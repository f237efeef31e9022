import AtomicSim.Heap
import AtomicSim.Polling
import AtomicSim.Compile.Widths
import AtomicSim.Native.Points

namespace AtomicSim

/-- `Layout::from_bytes`, whose multiplications panic on overflow. -/
def Layout.fromBytesU64 (bytes byteAlign : ℕ) : Option Layout := do
  let bits ← mulU64 bytes 8
  let bitAlign ← mulU64 byteAlign 8
  some ⟨bits, bitAlign⟩

theorem Layout.fromBytesU64_eq {bytes : ℕ} (h : bytes * 8 < 2 ^ 64) :
    fromBytesU64 bytes 1 = some (fromBytes bytes 1) := by
  simp only [fromBytesU64, mulU64, if_pos h]
  rfl

theorem Layout.bytes_fromBytes (len : ℕ) : (fromBytes len 1).bytes = len := by
  simp only [fromBytes, bytes]
  omega

theorem Process.value_resolve_self (p : Process) (c : ThunkInner) (v : Value) (m : Memory) :
    (p.resolve c v m).value c.threadid c.seq = some v := by
  rw [Process.value_resolve, if_pos ⟨rfl, rfl⟩]

theorem Memory.debug_read (m : Memory) (x len : ℕ) :
    (m.read x (.fromBytes len 1)).debug.isSome :=
  (COperation.isSome_debug _).mpr (.inr (Nat.mul_mod_left len 8))

/-- `bytes` and `byte_align` do not overflow. -/
def Layout.Fits (l : Layout) : Prop := l.bits + 7 < 2 ^ 64 ∧ l.bitAlign + 7 < 2 ^ 64

instance (l : Layout) : Decidable l.Fits := inferInstanceAs (Decidable (_ ∧ _))

theorem Memory.exists_alloc {m : Memory} {layout : Layout} (hl : layout.Fits)
    (ha : isPowerOfTwo layout.byteAlign)
    (hfit : roundUp m.inner.next layout.byteAlign + layout.bytes + heapGuard < 2 ^ 64) :
    ∃ n, m.alloc layout = some (roundUp m.inner.next layout.byteAlign, n) ∧
      n.inner = { m.inner with
        next := roundUp m.inner.next layout.byteAlign + layout.bytes + heapGuard } := by
  have hlt : layout.byteAlign < 2 ^ 64 := by
    have halign := hl.2
    simp only [Layout.byteAlign]
    omega
  obtain ⟨k, hk64, hk⟩ := exists_lt_of_isPowerOfTwo ha hlt
  have hne : layout.byteAlign ≠ 0 := hk ▸ (Nat.two_pow_pos k).ne'
  have halign : alignTo m.inner.next layout.byteAlign = roundUp m.inner.next layout.byteAlign := by
    have hround : roundUp m.inner.next layout.byteAlign < 2 ^ 64 := by omega
    rw [hk] at hround ⊢
    exact alignTo_two_pow hk64 hround
  have hend : roundUp m.inner.next layout.byteAlign + layout.bytes < 2 ^ 64 := by omega
  have hinner : m.inner.alloc layout = some (roundUp m.inner.next layout.byteAlign, { m.inner with
      next := roundUp m.inner.next layout.byteAlign + layout.bytes + heapGuard }) := by
    simp only [MemoryInner.alloc, if_neg hne, halign, addU64, if_pos hend, if_pos hfit,
      Option.bind_eq_bind, Option.bind_some]
  refine ⟨⟨_, wf_alloc m.wf hinner⟩, ?_, rfl⟩
  unfold Memory.alloc
  split
  · rename_i hn
    rw [hinner] at hn
    cases hn
  · rename_i hs
    rw [hinner] at hs
    cases hs
    rfl

/-- Nothing is stored above the bump pointer as long as stores stay in their blocks. -/
theorem Heap.Reachable.byteAt_next {h : Heap} (hr : Heap.Reachable h) {x : ℕ}
    (hx : h.memory.next ≤ x) : h.memory.byteAt x = 0 := by
  have hi := hr.inv
  rw [hi.holds.byte, lastStored_eq_none]
  · rfl
  intro s hs hcov
  obtain ⟨b, hb, hin⟩ := hi.inside s hs
  have hbelow := hi.below b hb
  have hstop := hin.2
  omega

/-- `free` forgets nothing yet. -/
def Memory.free (memory : Memory) (_ptr : ℕ) : Memory := memory

namespace FlowCtx

/-- The closure of `alloc` changes the memory, but no range of it is known beforehand. -/
def allocArgs (layout : Layout) : ThunkArgs where
  address := none
  atomicity := .none
  deps := []
  compute memory _ := (memory.alloc layout).map fun (ptr, memory) => (Process.addr ptr, memory)

/-- `CInstr::Alloca`. -/
def allocaArgs (layout : Layout) (count : Thunk) : ThunkArgs where
  address := none
  atomicity := .none
  deps := [count]
  compute memory args := do
    let count ← args[0]?
    let layout ← layout.repeated .none count.asU64
    let (ptr, memory) ← memory.alloc layout
    some (Process.addr ptr, memory)

def freeArgs (ptr : ℕ) : ThunkArgs where
  address := none
  atomicity := .none
  deps := []
  compute memory _ := some (Value.ofUnit, memory.free ptr)

def alloc (layout : Layout) (k : ℕ → Task) : Task :=
  .thunk (allocArgs layout) fun d => .await d fun v => k v.asU64

def free (ptr : ℕ) (_layout : Layout) (k : Task) : Task :=
  .thunk (freeArgs ptr) fun d => .await d fun _ => k

def load (address : ℕ) (layout : Layout) (k : Value → Task) : Task :=
  constant (Process.addr address) fun address =>
  .thunk (DataFlow.load address layout .none) fun d => .await d k

def memcpy (dst src len : ℕ) (k : Task) : Task :=
  if 0 < len then
    match Layout.fromBytesU64 len 1 with
    -- `len * 8` overflows
    | none => .panic .unwrap
    | some layout => load src layout fun value => store dst value k
  else k

def realloc (old : ℕ) (oldLayout newLayout : Layout) (k : ℕ → Task) : Task :=
  alloc newLayout fun new =>
  memcpy new old (min newLayout.bytes oldLayout.bytes) <|
  free old oldLayout (k new)

end FlowCtx

namespace Machine

/-- One action is possible, and it leads to `s'`. -/
def Next (s s' : Machine) : Prop :=
  (∃ a, s.act a = some s') ∧ ∀ a s'', s.act a = some s'' → s'' = s'

/-- Every run that goes on long enough passes through `s'`. -/
abbrev Leads (s s' : Machine) : Prop := Relation.ReflTransGen Next s s'

/-- The task awaits a thunk, and no action is possible any more. -/
def Stuck (s : Machine) (t : ThreadId) : Prop :=
  (s.control t).polls.isSome ∧ ∀ a, s.act a = none

/-- Thread `t` is alone in the process. What its pipeline holds unresolved are the thunks `cs`,
of which there is room for three. -/
structure Holding (t : ThreadId) (m : Memory) (cs : List ThunkInner) (p : Process) : Prop where
  memory : p.memory = m
  threads : p.threads = [t]
  created : t < p.nextThreadid
  joined : (p.flows t).joined = false
  unresolved : p.unresolved t = cs
  earlier : ∀ c ∈ cs, c.seq < (p.flows t).seq
  fresh : ∀ i ≥ (p.flows t).seq, p.value t i = none
  room : (p.flows t).len + 3 ≤ Process.pipelineSize + cs.length

/-- The task of the thread goes on with `k`. -/
structure Gathered (t : ThreadId) (m : Memory) (cs : List ThunkInner) (k : Task) (s : Machine) :
    Prop where
  config : s.config = .decoding s.process
  process : Holding t m cs s.process
  control : s.control t = k
  ready : ∀ u, s.ready u = decide (u = t)
  wakers : s.wakers = []
  failure : s.failure = none

/-- Nothing is left unresolved. -/
abbrev Alone (t : ThreadId) (m : Memory) (k : Task) (s : Machine) : Prop := Gathered t m [] k s

theorem visit_pure {c : Scan} {b : ThunkInner} {args : List Value} {v : Value} {n : Memory}
    (hb : b.address = none) (hargs : b.deps.mapM (Thunk.tryGet c.process) = some args)
    (hvalue : c.process.value b.threadid b.seq = none)
    (hv : b.compute c.process.memory args = some (v, n)) (hd : v.debug.isSome) :
    c.visit b =
      some ({ c with process := c.process.resolve b v n, progress := true }, false) := by
  obtain ⟨str, hstr⟩ := Option.isSome_iff_exists.mp hd
  have hstep : b.step c.process = some (c.process.resolve b v n, true) := by
    rw [step_of_ready hargs hvalue, hv]
    simp [hstr]
  simp [Scan.visit, hb, Scan.step, hstep]

/-- The loop of a pass resolves the thunks of `t` one after another. -/
inductive Resolves (t : ThreadId) : Scan → List ThunkInner → Scan → Prop
  | nil {c : Scan} : Resolves t c [] c
  | cons {c c₁ c' : Scan} {b : ThunkInner} {bs : List ThunkInner} {v : Value} {n : Memory} :
      b.threadid = t → c.visit b = some (c₁, false) → c₁.process = c.process.resolve b v n →
      c₁.progress = true → Resolves t c₁ bs c' → Resolves t c (b :: bs) c'

namespace Resolves

variable {t : ThreadId} {bs : List ThunkInner} {c c' : Scan}

theorem loop (h : Resolves t c bs c') : Scan.loop bs c = some c' := by
  induction h with
  | nil => rfl
  | cons _ hv _ _ _ ih => exact loop_cons.mpr ⟨_, false, hv, .inr ⟨rfl, ih⟩⟩

theorem progress (h : Resolves t c bs c') (hc : c.progress = true) : c'.progress = true := by
  induction h with
  | nil => exact hc
  | cons _ _ _ hp _ ih => exact ih hp

theorem progress_of_ne_nil (h : Resolves t c bs c') (hne : bs ≠ []) : c'.progress = true := by
  cases h with
  | nil => exact absurd rfl hne
  | cons _ _ _ hp hr => exact hr.progress hp

theorem value_of_forall_ne (h : Resolves t c bs c') {i : ℕ} (hi : ∀ b ∈ bs, b.seq ≠ i) :
    c'.process.value t i = c.process.value t i := by
  induction h with
  | nil => rfl
  | cons _ _ hp _ _ ih =>
    rw [ih fun b hb => hi b (List.mem_cons_of_mem _ hb), hp, Process.value_resolve]
    apply if_neg
    exact fun hn => hi _ List.mem_cons_self hn.2.symm

theorem value_isSome (h : Resolves t c bs c') :
    ∀ b ∈ bs, c'.process.value t b.seq ≠ none := by
  induction h with
  | nil => nofun
  | @cons c c₁ c' b bs v n ht _ hp _ hr ih =>
    intro d hd
    rcases List.mem_cons.mp hd with rfl | hd
    · have hv : c₁.process.value t d.seq = some v := by
        rw [hp, Process.value_resolve, if_pos ⟨ht.symm, rfl⟩]
      rw [(loop_extends hr.loop).value hv]
      nofun
    · exact ih d hd

theorem pure {b : ThunkInner} {args : List Value} {v : Value} {n : Memory}
    (hb : b.address = none) (ht : b.threadid = t)
    (hargs : b.deps.mapM (Thunk.tryGet c.process) = some args)
    (hvalue : c.process.value t b.seq = none)
    (hv : b.compute c.process.memory args = some (v, n)) (hd : v.debug.isSome)
    (h : Resolves t { c with process := c.process.resolve b v n, progress := true } bs c') :
    Resolves t c (b :: bs) c' := by
  subst ht
  exact .cons rfl (visit_pure hb hargs hvalue hv hd) rfl rfl h

theorem access {b : ThunkInner} {d : Thunk} {layout : Layout} {a v : Value} {args : List Value}
    {n : Memory} (hb : b.address = some (d, layout)) (ha : b.atomicity = .none)
    (ht : b.threadid = t) (hget : d.tryGet c.process = some a)
    (hfit : a.asU64 + layout.bytes < 2 ^ 64) (hpending : c.pending = RangeMap.new)
    (hargs : b.deps.mapM (Thunk.tryGet c.process) = some args)
    (hvalue : c.process.value t b.seq = none)
    (hv : b.compute c.process.memory args = some (v, n)) (hd : v.debug.isSome) :
    ∃ c', c'.process = c.process.resolve b v n ∧ Resolves t c [b] c' := by
  subst ht
  obtain ⟨str, hstr⟩ := Option.isSome_iff_exists.mp hd
  let r : Range ℕ := ⟨a.asU64, a.asU64 + layout.bytes⟩
  have hempty : c.pending.range r = [] := by
    rw [hpending]
    rfl
  have hstep : b.step c.process = some (c.process.resolve b v n, true) := by
    rw [step_of_ready hargs hvalue, hv]
    simp [hstr]
  let c' : Scan := { c with
    process := c.process.resolve b v n
    pending := c.pending.insert r ()
    progress := true }
  have hstop : addU64 a.asU64 layout.bytes = some (a.asU64 + layout.bytes) := if_pos hfit
  have hvisit : c.visit b = some (c', false) := by
    simp only [Scan.visit, hb, hget, hstop, Option.bind_eq_bind, Option.bind_some]
    rw [show c.pending.range ⟨a.asU64, a.asU64 + layout.bytes⟩ = [] from hempty]
    simp [Scan.step, ha, hstep, c', r]
  exact ⟨c', rfl, .cons rfl hvisit rfl rfl .nil⟩

end Resolves

section Holding

variable {t : ThreadId} {m : Memory} {cs : List ThunkInner} {p : Process}

theorem Holding.value_eq_none (h : Holding t m cs p) {c : ThunkInner} (hc : c ∈ cs) :
    p.value t c.seq = none :=
  (Process.mem_unresolved.mp (h.unresolved ▸ hc)).2

theorem Holding.scan_value (h : Holding t m cs p) {c : ThunkInner} (hc : c ∈ cs) :
    (p.scan t []).process.value t c.seq = none := by
  rw [show (p.scan t []).process.value = p.value from Process.value_retain _ _]
  exact h.value_eq_none hc

theorem Holding.debug (h : Holding t m cs p) {c : ThunkInner} (hc : c ∈ cs) :
    ((Thunk.cell t c.seq).debug p).isSome := by
  simp [Thunk.debug, h.value_eq_none hc]

theorem Holding.push (h : Holding t m cs p) (a : ThunkArgs) :
    Holding t m (cs ++ [a.thunk t (p.flows t).seq])
      (p.modify t fun f => f.push (a.thunk t (p.flows t).seq)) := by
  let c := a.thunk t (p.flows t).seq
  let p' := p.modify t fun f => f.push c
  have hflow : p'.flows t = (p.flows t).push c :=
    Process.flows_modify_self p t fun f => f.push c
  have hvalue : ∀ i, p'.value t i = p.value t i := by
    intro i
    show (p'.flows t).value i = _
    rw [hflow]
    rfl
  have hseq : (p'.flows t).seq = (p.flows t).seq + 1 := by
    rw [hflow]
    simp [DataFlow.seq, DataFlow.push]
  change Holding t m (cs ++ [c]) p'
  constructor
  case memory => exact h.memory
  case threads => exact h.threads
  case created => exact h.created
  case joined =>
    rw [hflow]
    exact h.joined
  case unresolved =>
    have hnone : p.value t c.seq = none := h.fresh _ le_rfl
    rw [Process.unresolved, hflow]
    simp only [hvalue]
    rw [DataFlow.push, List.filter_append, show List.filter _ (p.flows t).thunks = cs from
      h.unresolved]
    simp [hnone]
  case earlier =>
    intro b hb
    rw [hseq]
    rcases List.mem_append.mp hb with hb | hb
    · exact (h.earlier b hb).trans (Nat.lt_succ_self _)
    · rw [List.mem_singleton.mp hb]
      exact Nat.lt_succ_self _
  case fresh =>
    intro i hi
    rw [hvalue]
    apply h.fresh
    omega
  case room =>
    have hroom := h.room
    rw [hflow, List.length_append, List.length_singleton]
    simp only [DataFlow.len, DataFlow.push, List.length_append, List.length_singleton] at hroom ⊢
    omega

theorem Holding.pass (h : Holding t m cs p) {c : Scan} (hlen : cs.length ≤ 3) (hne : cs ≠ [])
    (hr : Resolves t (p.scan t []) cs c) :
    (Config.decoding p).act .pass = some (.decoding c.process.reapThreads) ∧
      Holding t c.process.memory [] c.process.reapThreads := by
  have hkept : p.Kept c.process :=
    (Process.Kept.modify p t DataFlow.retain (fun _ => rfl) fun _ => rfl).trans
      (loop_kept hr.loop)
  have hthunks : (c.process.flows t).thunks = cs :=
    (loop_thunks hr.loop t).trans ((Process.thunks_retain_self p t).trans h.unresolved)
  have hseq : (c.process.flows t).seq = (p.flows t).seq := congrArg List.length (hkept.decoded t)
  constructor
  · have hstep : Process.passFrom [t] (p, [], false) =
        some (c.process, c.resolvable, c.progress) := by
      refine passFrom_cons.mpr ⟨_, _, _, stepPure_eq_some.mpr ⟨c, ?_, rfl, rfl, rfl⟩, rfl⟩
      rw [h.unresolved]
      exact hr.loop
    rw [Config.act, Process.pass, h.threads, hstep]
    simp only [Option.map_some, hr.progress_of_ne_nil hne, if_true]
  constructor
  case memory => rfl
  case threads =>
    have hthreads : c.process.threads = [t] := hkept.threads.trans h.threads
    have hjoined : (c.process.flows t).joined = false := (hkept.joined t).trans h.joined
    simp [Process.reapThreads, hthreads, DataFlow.alive, hjoined]
  case created => exact h.created.trans_eq hkept.nextThreadid.symm
  case joined => exact (hkept.joined t).trans h.joined
  case unresolved =>
    rw [List.eq_nil_iff_forall_not_mem]
    intro b hb
    obtain ⟨hb, hn⟩ := Process.mem_unresolved.mp hb
    exact hr.value_isSome b (hthunks ▸ hb) hn
  case earlier => exact fun b hb => absurd hb List.not_mem_nil
  case fresh =>
    intro i hi
    have hi' : i ≥ (p.flows t).seq := hseq ▸ hi
    have hother : ∀ b ∈ cs, b.seq ≠ i := fun b hb => ((h.earlier b hb).trans_le hi').ne
    rw [← h.fresh i hi']
    exact (hr.value_of_forall_ne hother).trans (congrFun₂ (Process.value_retain _ _) t i)
  case room =>
    rw [DataFlow.len, show (c.process.reapThreads.flows t).thunks = cs from hthunks,
      List.length_nil, Process.pipelineSize]
    omega

end Holding

theorem wake_of_forall_fires {s : Machine} (h : ∀ w ∈ s.wakers, s.fires w.2 w.1 = false) :
    s.wake = s := by
  have hany : ∀ u, (s.wakers.any fun w => w.2 == u && s.fires u w.1) = false := by
    intro u
    rw [List.any_eq_false]
    intro w hw hf
    obtain ⟨hu, hf⟩ := Bool.and_eq_true_iff.mp hf
    rw [← beq_iff_eq.mp hu, h w hw] at hf
    cases hf
  have hfilter : s.wakers.filter (fun w => !s.fires w.2 w.1) = s.wakers := by
    rw [List.filter_eq_self]
    intro w hw
    simp [h w hw]
  unfold wake
  simp only [hany, Bool.or_false, hfilter]

theorem act_eq_none {s : Machine} (hc : s.config = .decoding s.process) (h0 : s.process.nextThreadid ≠ 0)
    (hr : ∀ u, s.ready u = false) (ha : s.config.act .pass = none) (a : MachineAction) :
    s.act a = none := by
  rw [Option.eq_none_iff_forall_not_mem]
  intro s' hact
  obtain ⟨s₁, hs₁, -⟩ := (act_eq_some hact).2
  unfold perform at hs₁
  rw [hc] at hs₁ ha
  cases a with
  | addMain => simp only [if_neg h0, reduceCtorEq] at hs₁
  | call u c =>
    simp only [enter, hr u, Bool.false_eq_true, false_and, if_false] at hs₁
    split at hs₁ <;> cases hs₁
  | poll u => simp only [hr u, Bool.false_eq_true, if_false, reduceCtorEq] at hs₁
  | pass =>
    simp only [ha, Option.map_none] at hs₁
    split_ifs at hs₁
  | choose n => cases hs₁

section Gathered

variable {t : ThreadId} {m : Memory} {cs : List ThunkInner} {k : Task} {s : Machine}

theorem Gathered.next_poll (h : Gathered t m cs k s) {s' : Machine}
    (hp : s.poll s.process t k = some s') : Next s s'.wake := by
  have hready : s.ready t := by simp [h.ready]
  have hact : s.act (.poll t) = some s'.wake :=
    act_poll h.failure h.config hready (by rw [h.control]; exact hp)
  refine ⟨⟨_, hact⟩, fun a s'' ha => ?_⟩
  have hperform := (act_eq_some ha).2
  obtain ⟨s₁, hs₁, rfl⟩ := hperform
  unfold perform at hs₁
  rw [h.config] at hs₁
  cases a with
  | addMain =>
    have hne : s.process.nextThreadid ≠ 0 := (Nat.zero_lt_of_lt h.process.created).ne'
    simp only [if_neg hne, reduceCtorEq] at hs₁
  | call u c =>
    -- the task is not back in the interpreter, since it can be polled
    simp only [enter] at hs₁
    split at hs₁
    · rename_i hret
      split_ifs at hs₁ with hu
      have hut : u = t := by simpa [h.ready] using hu.1
      rw [hut, h.control] at hret
      rw [hret] at hp
      cases hp
    · cases hs₁
  | poll u =>
    simp only at hs₁
    split_ifs at hs₁ with hu
    have hut : u = t := by simpa [h.ready] using hu
    rw [hut, h.control, hp] at hs₁
    rw [← Option.some.inj hs₁]
  | pass =>
    have hnot : ¬ s.Stalled := fun hst => by simp [hst t h.process.created] at hready
    simp only [if_neg hnot, reduceCtorEq] at hs₁
  | choose n => cases hs₁

theorem next_pass (hf : s.failure = none) (hc : s.config = .decoding s.process)
    (h0 : s.process.nextThreadid ≠ 0) (hr : ∀ u, s.ready u = false) {config : Config}
    (ha : s.config.act .pass = some config) : Next s (wake { s with config }) := by
  have hst : s.Stalled := fun u _ => hr u
  refine ⟨⟨.pass, act_pass hf hc hst ha⟩, fun a s'' hact => ?_⟩
  obtain ⟨s₁, hs₁, rfl⟩ := (act_eq_some hact).2
  unfold perform at hs₁
  rw [hc] at hs₁ ha
  cases a with
  | addMain => simp only [if_neg h0, reduceCtorEq] at hs₁
  | call u c =>
    simp only [enter, hr u, Bool.false_eq_true, false_and, if_false] at hs₁
    split at hs₁ <;> cases hs₁
  | poll u => simp only [hr u, Bool.false_eq_true, if_false, reduceCtorEq] at hs₁
  | pass =>
    simp only [if_pos hst, ha, Option.map_some, Option.some.injEq] at hs₁
    rw [← hs₁]
  | choose n => cases hs₁

theorem Gathered.decode {a : ThunkArgs} {f : Thunk → Task} (h : Gathered t m cs (.thunk a f) s)
    (hlen : cs.length < 3) (hop : ∀ d ∈ a.operands, ∃ c ∈ cs, d = .cell t c.seq) :
    ∃ s' i, Leads s s' ∧ (∀ c ∈ cs, c.seq < i) ∧
      Gathered t m (cs ++ [a.thunk t i]) (f (.cell t i)) s' := by
  let n := (s.process.flows t).seq
  let p' := s.process.modify t fun f => f.push (a.thunk t n)
  let s' := (s.decoded p' t).goto t (f (.cell t n))
  have hroom := h.process.room
  have hdebug : ∀ d ∈ a.operands, (d.debug s.process).isSome := by
    intro d hd
    obtain ⟨c, hc, rfl⟩ := hop d hd
    exact h.process.debug hc
  have himpl : s.process.thunkImpl t a.address a.atomicity a.deps a.compute =
      some (.cell t n, p') := by
    refine if_pos ⟨by simp [h.process.threads], by simp [h.process.joined], by omega,
      fun d hd => ?_, fun x hx => ?_⟩
    · apply hdebug d
      exact List.mem_append_left _ hd
    · apply hdebug x.1
      exact List.mem_append_right _ (List.mem_map_of_mem (Option.mem_toList.mpr hx))
  have hpoll : s.poll s.process t (.thunk a f) = some s' := by
    show (if (s.process.flows t).len < Process.pipelineSize then _ else _) = _
    rw [if_pos (by omega), himpl]
    rfl
  have hnext := h.next_poll hpoll
  rw [wake_of_wakers (s := s') h.wakers] at hnext
  have hcontrol : s'.control t = f (.cell t n) := Function.update_self t _ s.control
  exact ⟨s', n, .single hnext, h.process.earlier, rfl, h.process.push a, hcontrol, h.ready,
    h.wakers, h.failure⟩

theorem Gathered.suspend {d : ThunkInner} {f : Value → Task}
    (h : Gathered t m cs (.await (.cell t d.seq) f) s) (hd : d ∈ cs) :
    Next s (s.suspend t (some (.thunk (.cell t d.seq)))) := by
  have hnone := h.process.value_eq_none hd
  let s₁ := s.suspend t (some (.thunk (.cell t d.seq)))
  have hpoll : s.poll s.process t (.await (.cell t d.seq) f) = some s₁ := by
    have hthread : (Thunk.cell t d.seq).poll s.process = some none := by
      simp [Thunk.poll, Process.thread, Thunk.threadid, h.process.threads, Thunk.tryGet, hnone]
    simp only [poll, hthread]
    rfl
  have hnext := h.next_poll hpoll
  have hwake : s₁.wake = s₁ := by
    apply wake_of_forall_fires
    intro w hw
    simp only [s₁, Machine.suspend, h.wakers, Option.toList_some, List.map_cons, List.map_nil,
      List.nil_append, List.mem_singleton] at hw
    subst hw
    show (s.process.value t d.seq).isSome = false
    rw [hnone]
    rfl
  rwa [hwake] at hnext

theorem Gathered.ready_suspend (h : Gathered t m cs k s) {w : Option Waker} (u : ThreadId) :
    (s.suspend t w).ready u = false := by
  by_cases hu : u = t
  · rw [hu]
    exact Function.update_self t _ s.ready
  · rw [show (s.suspend t w).ready u = s.ready u from Function.update_of_ne hu _ _, h.ready]
    exact decide_eq_false hu

theorem Gathered.resume {d : ThunkInner} {f : Value → Task} {q : Process} {n : Memory} {v : Value}
    (h : Gathered t m cs (.await (.cell t d.seq) f) s) (hq : Holding t n [] q)
    (hv : q.value t d.seq = some v) :
    Alone t n (.await (.cell t d.seq) f)
      (wake { s.suspend t (some (.thunk (.cell t d.seq))) with config := .decoding q }) := by
  let s₁ := s.suspend t (some (.thunk (.cell t d.seq)))
  have hwakers : s₁.wakers = [(.thunk (.cell t d.seq), t)] := by
    simp [s₁, Machine.suspend, h.wakers]
  have hfires : fires { s₁ with config := .decoding q } t (.thunk (.cell t d.seq)) = true := by
    show (q.value t d.seq).isSome = true
    rw [hv]
    rfl
  constructor
  case config => rfl
  case process => exact hq
  case control => exact h.control
  case ready =>
    intro u
    show (s₁.ready u || s₁.wakers.any _) = _
    rw [hwakers]
    by_cases hu : u = t
    · subst hu
      simp only [List.any_cons, List.any_nil, Bool.or_false, BEq.rfl, Bool.true_and, decide_true]
      exact (congrArg _ hfires).trans (Bool.or_true _)
    · have hready : s₁.ready u = false := by
        rw [show s₁.ready u = s.ready u from Function.update_of_ne hu _ _, h.ready]
        exact decide_eq_false hu
      have hu' : (t == u) = false := beq_false_of_ne (Ne.symm hu)
      simp [hready, hu, hu']
  case wakers =>
    show s₁.wakers.filter _ = []
    rw [hwakers]
    apply List.filter_cons_of_neg
    rw [Bool.not_eq_true, Bool.not_eq_false']
    exact hfires
  case failure => exact h.failure

/-- The task waits for a thunk of its own; the next pass resolves all that its pipeline holds,
and the task goes on with the value. -/
theorem Gathered.await {d : ThunkInner} {f : Value → Task} {c : Scan} {v : Value}
    (h : Gathered t m cs (.await (.cell t d.seq) f) s) (hd : d ∈ cs) (hlen : cs.length ≤ 3)
    (hr : Resolves t (s.process.scan t []) cs c) (hv : c.process.value t d.seq = some v) :
    ∃ s', Leads s s' ∧ Alone t c.process.memory (f v) s' := by
  let s₁ := s.suspend t (some (.thunk (.cell t d.seq)))
  have hready : ∀ u, s₁.ready u = false := h.ready_suspend
  obtain ⟨hpass, hq⟩ := h.process.pass hlen (List.ne_nil_of_mem hd) hr
  have hcreated : s₁.process.nextThreadid ≠ 0 := (Nat.zero_lt_of_lt h.process.created).ne'
  have hnext := next_pass (s := s₁) h.failure h.config hcreated hready (h.config ▸ hpass)
  let s₂ := wake { s₁ with config := .decoding c.process.reapThreads }
  have h₂ : Alone t c.process.memory (.await (.cell t d.seq) f) s₂ := h.resume hq hv
  -- the second poll finds the value
  let s₃ := s₂.goto t (f v)
  have hpoll : s₂.poll s₂.process t (.await (.cell t d.seq) f) = some s₃ := by
    have hv' : s₂.process.value t d.seq = some v := hv
    have hthread : (Thunk.cell t d.seq).poll s₂.process = some (some v) := by
      simp [Thunk.poll, Process.thread, Thunk.threadid, h₂.process.threads, Thunk.tryGet, hv']
    simp only [poll, hthread]
    rfl
  have hnext₃ := h₂.next_poll hpoll
  rw [wake_of_wakers (s := s₃) h₂.wakers] at hnext₃
  have hcontrol : s₃.control t = f v := Function.update_self t _ s₂.control
  exact ⟨s₃, .tail (.tail (.single (h.suspend hd)) hnext) hnext₃, { h₂ with control := hcontrol }⟩

theorem Gathered.compute {a : ThunkArgs} {f : Value → Task} {n : Memory} {v : Value}
    (h : Alone t m (.thunk a fun d => .await d f) s) (ha : a.address = none) (hdeps : a.deps = [])
    (hv : a.compute m [] = some (v, n)) (hd : v.debug.isSome) :
    ∃ s', Leads s s' ∧ Alone t n (f v) s' := by
  have hop : a.operands = [] := by simp [ThunkArgs.operands, ha, hdeps]
  obtain ⟨s₁, i, hs₁, -, h₁⟩ := h.decode (by simp) (by simp [hop])
  let c := a.thunk t i
  let p := (s₁.process.scan t []).process
  have hnone : p.value t i = none := h₁.process.scan_value (c := c) (List.mem_singleton_self c)
  have hmem : p.memory = m := h₁.process.memory
  have hargs : c.deps.mapM (Thunk.tryGet p) = some [] := by simp [c, ThunkArgs.thunk, hdeps]
  have hr := Resolves.pure (c := s₁.process.scan t []) (b := c) (t := t) ha rfl hargs hnone
    (hmem ▸ hv) hd .nil
  obtain ⟨s₂, hs₂, h₂⟩ := h₁.await (List.mem_singleton_self c) (by simp) hr
    (p.value_resolve_self c v n)
  exact ⟨s₂, hs₁.trans hs₂, h₂⟩

theorem Gathered.alloc {layout : Layout} {f : ℕ → Task} {x : ℕ} {n : Memory}
    (h : Alone t m (FlowCtx.alloc layout f) s) (ha : m.alloc layout = some (x, n))
    (hx : x < 2 ^ 64) : ∃ s', Leads s s' ∧ Alone t n (f x) s' := by
  have hcomp : (FlowCtx.allocArgs layout).compute m [] = some (Process.addr x, n) := by
    simp [FlowCtx.allocArgs, ha]
  have hs := h.compute rfl rfl hcomp (Process.debug_addr x)
  rwa [Value.asU64_addr hx] at hs

theorem Gathered.free {x : ℕ} {layout : Layout} (h : Alone t m (FlowCtx.free x layout k) s) :
    ∃ s', Leads s s' ∧ Alone t m k s' :=
  h.compute (n := m) (v := Value.ofUnit) rfl rfl rfl rfl

theorem Gathered.load {x : ℕ} {layout : Layout} {f : Value → Task}
    (h : Alone t m (FlowCtx.load x layout f) s) (hfit : x + layout.bytes < 2 ^ 64)
    (hd : (m.read x layout).debug.isSome) :
    ∃ s', Leads s s' ∧ Alone t m (f (m.read x layout)) s' := by
  obtain ⟨s₁, i, hs₁, -, h₁⟩ := h.decode (by simp) nofun
  obtain ⟨s₂, j, hs₂, hij, h₂⟩ := h₁.decode (by simp) (by
    simp [ThunkArgs.operands, DataFlow.load, ThunkArgs.thunk])
  let b := (DataFlow.constant (Process.addr x)).thunk t i
  let d := (DataFlow.load (.cell t i) layout .none).thunk t j
  let c := s₂.process.scan t []
  have hi : c.process.value t i = none := h₂.process.scan_value (c := b) (by simp [b])
  have hj : c.process.value t j = none := h₂.process.scan_value (c := d) (by simp [d])
  have hlt : i < j := hij b (by simp [b])
  have hmem : c.process.memory = m := h₂.process.memory
  -- the pass resolves the address and then the load
  let p := c.process.resolve b (Process.addr x) c.process.memory
  have hget : (Thunk.cell t i).tryGet p = some (Process.addr x) :=
    c.process.value_resolve_self b _ _
  have hnone : p.value t j = none := by
    rw [Process.value_resolve, if_neg fun hn => hlt.ne hn.2.symm, hj]
  have hx : (Process.addr x).asU64 = x := Value.asU64_addr (by omega)
  have hcomp : d.compute p.memory [Process.addr x] = some (m.read x layout, m) := by
    have hload := compute_load (.cell t i) layout .none m (Process.addr x)
    rw [hx, Memory.loadImpl_eq, if_pos hfit] at hload
    show (DataFlow.load (.cell t i) layout .none).compute c.process.memory [Process.addr x] = _
    rw [hmem]
    exact hload
  have hargs : d.deps.mapM (Thunk.tryGet p) = some [Process.addr x] := by
    simp [d, ThunkArgs.thunk, DataFlow.load, hget]
  obtain ⟨c', hc', hr⟩ := Resolves.access (t := t) (c := { c with process := p, progress := true })
    (b := d) rfl rfl rfl hget (hx.symm ▸ hfit) rfl hargs hnone hcomp hd
  have hvalue : c'.process.value t j = some (m.read x layout) := by
    rw [hc']
    exact p.value_resolve_self d _ _
  obtain ⟨s₃, hs₃, h₃⟩ := h₂.await (d := d) (by simp [d]) (by simp)
    (Resolves.pure (b := b) rfl rfl rfl hi rfl (Process.debug_addr x) hr) hvalue
  rw [hc'] at h₃
  exact ⟨s₃, (hs₁.trans hs₂).trans hs₃, h₃⟩

theorem Gathered.stuck {d : ThunkInner} {f : Value → Task}
    (h : Gathered t m cs (.await (.cell t d.seq) f) s) (hd : d ∈ cs)
    (hloop : Scan.loop cs (s.process.scan t []) = none) :
    ∃ s', Leads s s' ∧ s'.Stuck t := by
  have hpass : s.process.pass = none := by
    have hstep : s.process.stepPure t [] = none := by
      have hthunks : ((s.process.scan t []).process.flows t).thunks = cs :=
        (Process.thunks_retain_self _ t).trans h.process.unresolved
      show ((s.process.scan t []).loop ((s.process.scan t []).process.flows t).thunks).bind _ = none
      rw [hthunks, hloop]
      rfl
    rw [Process.pass, h.process.threads]
    simp only [Process.passFrom, hstep, Option.map_none]
  let s' := s.suspend t (some (.thunk (.cell t d.seq)))
  have hcreated : s'.process.nextThreadid ≠ 0 := (Nat.zero_lt_of_lt h.process.created).ne'
  have hact : Config.act s'.config .pass = none := by
    show Config.act s.config .pass = none
    rw [h.config, Config.act, hpass]
    rfl
  refine ⟨s', .single (h.suspend hd), ?_, act_eq_none h.config hcreated h.ready_suspend hact⟩
  rw [show s'.control t = _ from h.control]
  rfl

/-- The pass computes where the load ends in 64 bits. -/
theorem Gathered.load_overflow {x : ℕ} {layout : Layout} {f : Value → Task}
    (h : Alone t m (FlowCtx.load x layout f) s) (hx : x < 2 ^ 64)
    (hover : 2 ^ 64 ≤ x + layout.bytes) : ∃ s', Leads s s' ∧ s'.Stuck t := by
  obtain ⟨s₁, i, hs₁, -, h₁⟩ := h.decode (by simp) nofun
  obtain ⟨s₂, j, hs₂, hij, h₂⟩ := h₁.decode (by simp) (by
    simp [ThunkArgs.operands, DataFlow.load, ThunkArgs.thunk])
  let b := (DataFlow.constant (Process.addr x)).thunk t i
  let d := (DataFlow.load (.cell t i) layout .none).thunk t j
  let c := s₂.process.scan t []
  have hi : c.process.value t i = none := h₂.process.scan_value (c := b) (by simp [b])
  let p := c.process.resolve b (Process.addr x) c.process.memory
  have hget : (Thunk.cell t i).tryGet p = some (Process.addr x) :=
    c.process.value_resolve_self b _ _
  have hvisit : c.visit b = some ({ c with process := p, progress := true }, false) :=
    visit_pure rfl rfl hi rfl (Process.debug_addr x)
  have hstop : Scan.visit { c with process := p, progress := true } d = none := by
    have hadd : addU64 x layout.bytes = none := if_neg (by omega)
    have haddress : d.address = some (.cell t i, layout) := rfl
    rw [Scan.visit, haddress]
    simp only [hget, Value.asU64_addr hx, hadd, Option.bind_eq_bind, Option.bind_none]
  obtain ⟨s₃, hs₃, hstuck⟩ := h₂.stuck (d := d) (by simp [d])
    (show Scan.loop [b, d] c = none by simp only [Scan.loop, hvisit, hstop])
  exact ⟨s₃, (hs₁.trans hs₂).trans hs₃, hstuck⟩

theorem Gathered.alloc_overflow {layout : Layout} {f : ℕ → Task}
    (h : Alone t m (FlowCtx.alloc layout f) s) (ha : m.alloc layout = none) :
    ∃ s', Leads s s' ∧ s'.Stuck t := by
  obtain ⟨s₁, i, hs₁, -, h₁⟩ := h.decode (by simp) nofun
  let b := (FlowCtx.allocArgs layout).thunk t i
  have hi : (s₁.process.scan t []).process.value t i = none :=
    h₁.process.scan_value (c := b) (by simp [b])
  have hcomp : (FlowCtx.allocArgs layout).compute m [] = none := by
    simp [FlowCtx.allocArgs, ha]
  have hstop : (s₁.process.scan t []).visit b = none := by
    have hmem : (s₁.process.scan t []).process.memory = m := h₁.process.memory
    have hargs : b.deps.mapM (Thunk.tryGet (s₁.process.scan t []).process) = some [] := rfl
    have hstep : b.step (s₁.process.scan t []).process = none := by
      rw [step_of_ready hargs hi, hmem]
      show Option.bind ((FlowCtx.allocArgs layout).compute m []) _ = none
      rw [hcomp]
      rfl
    show Option.map _ (Option.bind (b.step _) _) = none
    rw [hstep]
    rfl
  obtain ⟨s₂, hs₂, hstuck⟩ := h₁.stuck (d := b) (by simp [b])
    (show Scan.loop [b] _ = none by simp only [Scan.loop, hstop])
  exact ⟨s₂, hs₁.trans hs₂, hstuck⟩

theorem Gathered.store {x : ℕ} {v : Value} (h : Alone t m (FlowCtx.store x v k) s)
    (hfit : x + v.imp.length < 2 ^ 64) (hd : v.debug.isSome) :
    ∃ s', Leads s s' ∧ Alone t (m.write x v.imp) k s' := by
  let layout := Layout.fromBytes v.imp.length 1
  have hbytes : layout.bytes = v.imp.length := Layout.bytes_fromBytes _
  obtain ⟨s₁, i, hs₁, -, h₁⟩ := h.decode (by simp) nofun
  obtain ⟨s₂, j, hs₂, hij, h₂⟩ := h₁.decode (by simp) nofun
  obtain ⟨s₃, l, hs₃, hl, h₃⟩ := h₂.decode (by simp) (by
    simp [ThunkArgs.operands, DataFlow.store, ThunkArgs.thunk])
  let a := (DataFlow.constant (Process.addr x)).thunk t i
  let b := (DataFlow.constant v).thunk t j
  let d := (DataFlow.store (.cell t i) layout (.cell t j) .none).thunk t l
  let c := s₃.process.scan t []
  have hci : c.process.value t i = none := h₃.process.scan_value (c := a) (by simp [a])
  have hcj : c.process.value t j = none := h₃.process.scan_value (c := b) (by simp [b])
  have hcl : c.process.value t l = none := h₃.process.scan_value (c := d) (by simp [d, layout])
  have hlt : i < j := hij a (by simp [a])
  have hil : i < l := hl a (by simp [a])
  have hjl : j < l := hl b (by simp [b])
  have hmem : c.process.memory = m := h₃.process.memory
  -- the pass resolves the address, the value and then the store
  let p := c.process.resolve a (Process.addr x) c.process.memory
  let q := p.resolve b v p.memory
  have hpj : p.value t j = none := by
    rw [Process.value_resolve, if_neg fun hn => hlt.ne hn.2.symm, hcj]
  have hql : q.value t l = none := by
    rw [Process.value_resolve, if_neg fun hn => hjl.ne hn.2.symm, Process.value_resolve,
      if_neg fun hn => hil.ne hn.2.symm, hcl]
  have hget : (Thunk.cell t i).tryGet q = some (Process.addr x) := by
    show q.value t i = _
    rw [Process.value_resolve, if_neg fun hn => hlt.ne hn.2]
    exact c.process.value_resolve_self a _ _
  have hget' : (Thunk.cell t j).tryGet q = some v := p.value_resolve_self b _ _
  have hx : (Process.addr x).asU64 = x := Value.asU64_addr (by omega)
  have hcomp : d.compute q.memory [Process.addr x, v] =
      some (Value.ofUnit, m.write x v.imp) := by
    have hstore := compute_store (.cell t i) layout .none m (Process.addr x) (.cell t j) v
    rw [hx, Memory.storeImpl_eq, if_pos hfit] at hstore
    show (DataFlow.store (.cell t i) layout (.cell t j) .none).compute c.process.memory
      [Process.addr x, v] = _
    rw [hmem]
    exact hstore
  have hargs : d.deps.mapM (Thunk.tryGet q) = some [Process.addr x, v] := by
    simp [d, ThunkArgs.thunk, DataFlow.store, hget, hget']
  obtain ⟨c', hc', hr⟩ := Resolves.access (t := t) (c := { c with process := q, progress := true })
    (b := d) rfl rfl rfl hget (by rw [hx, hbytes]; exact hfit) rfl hargs hql hcomp rfl
  have hvalue : c'.process.value t l = some Value.ofUnit := by
    rw [hc']
    exact q.value_resolve_self d _ _
  have hrb := Resolves.pure (c := { c with process := p, progress := true }) (b := b) rfl rfl rfl
    hpj rfl hd hr
  obtain ⟨s₄, hs₄, h₄⟩ := h₃.await (d := d) (by simp [d, layout]) (by simp)
    (Resolves.pure (b := a) rfl rfl rfl hci rfl (Process.debug_addr x) hrb) hvalue
  rw [hc'] at h₄
  exact ⟨s₄, ((hs₁.trans hs₂).trans hs₃).trans hs₄, h₄⟩

theorem Gathered.memcpy {dst src len : ℕ} (h : Alone t m (FlowCtx.memcpy dst src len k) s)
    (hsrc : src + len < 2 ^ 64) (hdst : dst + len < 2 ^ 64) (hlen : len * 8 < 2 ^ 64) :
    ∃ s' m', Leads s s' ∧ Alone t m' k s' ∧ m'.inner.next = m.inner.next ∧
      ∀ x, m'.byteAt x = if dst ≤ x ∧ x < dst + len then m.byteAt (src + (x - dst))
        else m.byteAt x := by
  rw [FlowCtx.memcpy] at h
  split_ifs at h with hpos
  · rw [Layout.fromBytesU64_eq hlen] at h
    have hbytes := Layout.bytes_fromBytes len
    let v := m.read src (.fromBytes len 1)
    have himp : v.imp.length = len := by
      simp [v, Memory.read, MemoryInner.read, hbytes]
    have hprint : v.debug.isSome := m.debug_read src len
    obtain ⟨s₁, hs₁, h₁⟩ := h.load (by rw [hbytes]; exact hsrc) hprint
    obtain ⟨s₂, hs₂, h₂⟩ := h₁.store (by rw [himp]; exact hdst) hprint
    refine ⟨s₂, _, hs₁.trans hs₂, h₂, rfl, fun x => ?_⟩
    rw [Memory.byteAt_write, himp]
    split_ifs with hx
    · have hi : x - dst < len := by omega
      simp [Memory.read, MemoryInner.read, Memory.byteAt, hbytes, hi]
    · rfl
  · refine ⟨s, m, .refl, h, rfl, fun x => ?_⟩
    rw [if_neg (by omega)]

theorem Gathered.realloc {old : ℕ} {oldLayout newLayout : Layout} {f : ℕ → Task}
    (h : Alone t m (FlowCtx.realloc old oldLayout newLayout f) s) (hl : newLayout.Fits)
    (ha : isPowerOfTwo newLayout.byteAlign)
    (hfit : roundUp m.inner.next newLayout.byteAlign + newLayout.bytes + heapGuard < 2 ^ 64)
    (hold : old + min newLayout.bytes oldLayout.bytes < 2 ^ 64) :
    ∃ s' m', Leads s s' ∧ Alone t m' (f (roundUp m.inner.next newLayout.byteAlign)) s' ∧
      m'.inner.next = roundUp m.inner.next newLayout.byteAlign + newLayout.bytes + heapGuard ∧
      ∀ x, m'.byteAt x =
        if roundUp m.inner.next newLayout.byteAlign ≤ x ∧
            x < roundUp m.inner.next newLayout.byteAlign + min newLayout.bytes oldLayout.bytes then
          m.byteAt (old + (x - roundUp m.inner.next newLayout.byteAlign))
        else m.byteAt x := by
  obtain ⟨n, halloc, hinner⟩ := Memory.exists_alloc hl ha hfit
  have hbyte : ∀ x, n.byteAt x = m.byteAt x := by
    intro x
    simp only [Memory.byteAt, MemoryInner.byteAt, hinner]
  have hmin : min newLayout.bytes oldLayout.bytes ≤ newLayout.bytes := Nat.min_le_left _ _
  have hlen : newLayout.bytes * 8 ≤ newLayout.bits + 7 := by
    rw [Layout.bytes]
    omega
  have hbits := hl.1
  obtain ⟨s₁, hs₁, h₁⟩ := h.alloc halloc (by omega)
  obtain ⟨s₂, m', hs₂, h₂, hnext, hcopy⟩ := h₁.memcpy hold (by omega) (by omega)
  obtain ⟨s₃, hs₃, h₃⟩ := h₂.free
  refine ⟨s₃, m', (hs₁.trans hs₂).trans hs₃, h₃, hnext.trans (by rw [hinner]), fun x => ?_⟩
  rw [hcopy, hbyte, hbyte]

end Gathered

def started (m : Memory) (k : Task) : Machine := ((new m).spawn (.new m) []).goto 0 k

theorem alone_started (m : Memory) (k : Task) : Alone 0 m k (started m k) where
  config := rfl
  process := by
    constructor
    case memory => rfl
    case threads => rfl
    case created => exact Nat.zero_lt_one
    case joined => rfl
    case unresolved => rfl
    case earlier => nofun
    case fresh => exact fun _ _ => rfl
    case room =>
      show 0 + 3 ≤ Process.pipelineSize + 0
      decide
  control := by simp [started, goto]
  ready u := by
    by_cases hu : u = 0
    · subst hu
      rfl
    · rw [decide_eq_false hu]
      exact Function.update_of_ne hu _ _
  wakers := rfl
  failure := rfl

theorem wf_started {m : Memory} {k : Task} (h : k.Own 0 0) : (started m k).WF := by
  have hspawn : ((new m).spawn (.new m) []).WF := (wf_new m).spawn rfl []
  refine hspawn.goto ?_ h rfl
  show Task.start [] ≠ .done
  nofun

/-- A task that is alone copies the bytes as they were before, whether or not the ranges
overlap; it reallocates to a fresh block with the old contents, and all other bytes stay as
they are: zero above the old contents, if the stores before have stayed in their blocks. -/
theorem memcpy_realloc {t : ThreadId} {m : Memory} {s : Machine} :
    (∀ {dst src len : ℕ} {k : Task}, Alone t m (FlowCtx.memcpy dst src len k) s →
      src + len < 2 ^ 64 → dst + len < 2 ^ 64 → len * 8 < 2 ^ 64 →
      ∃ s' m', Leads s s' ∧ Alone t m' k s' ∧
        (∀ i < len, m'.byteAt (dst + i) = m.byteAt (src + i)) ∧
        ∀ x, ¬ (dst ≤ x ∧ x < dst + len) → m'.byteAt x = m.byteAt x) ∧
    ∀ {old : ℕ} {oldLayout newLayout : Layout} {k : ℕ → Task},
      Alone t m (FlowCtx.realloc old oldLayout newLayout k) s →
      oldLayout.Fits → newLayout.Fits → isPowerOfTwo newLayout.byteAlign →
      roundUp m.inner.next newLayout.byteAlign + newLayout.bytes + heapGuard < 2 ^ 64 →
      old + oldLayout.bytes < 2 ^ 64 →
      ∃ s' m' new, Leads s s' ∧ Alone t m' (k new) s' ∧ new % newLayout.byteAlign = 0 ∧
        m.inner.next ≤ new ∧ new + newLayout.bytes + heapGuard = m'.inner.next ∧
        (∀ i < min newLayout.bytes oldLayout.bytes, m'.byteAt (new + i) = m.byteAt (old + i)) ∧
        (∀ x, ¬ (new ≤ x ∧ x < new + min newLayout.bytes oldLayout.bytes) →
          m'.byteAt x = m.byteAt x) ∧
        ∀ h : Heap, Heap.Reachable h → h.memory = m.inner →
          (∀ b ∈ h.blocks, b.1 + b.2.bytes + heapGuard ≤ new) ∧
          ∀ i ≥ min newLayout.bytes oldLayout.bytes, m'.byteAt (new + i) = 0 := by
  constructor
  · intro dst src len k h hsrc hdst hlen
    obtain ⟨s', m', hs, h', -, hcopy⟩ := h.memcpy hsrc hdst hlen
    refine ⟨s', m', hs, h', fun i hi => ?_, fun x hx => ?_⟩
    · rw [hcopy, if_pos (by omega), Nat.add_sub_cancel_left]
    · rw [hcopy, if_neg hx]
  · intro old oldLayout newLayout k h _ hl ha hfit hold
    obtain ⟨s', m', hs, h', hnext, hcopy⟩ := h.realloc hl ha hfit (by omega)
    obtain ⟨e, he⟩ := eq_two_pow_of_isPowerOfTwo ha
    have hle : m.inner.next ≤ roundUp m.inner.next newLayout.byteAlign :=
      le_roundUp (he ▸ Nat.two_pow_pos e)
    refine ⟨s', m', _, hs, h', Nat.mul_mod_left _ _, hle, hnext.symm, fun i hi => ?_,
      fun x hx => ?_, fun p hp hmem => ⟨fun b hb => ?_, fun i hi => ?_⟩⟩
    · rw [hcopy, if_pos (by omega), Nat.add_sub_cancel_left]
    · rw [hcopy, if_neg hx]
    · have hbelow := hp.inv.below b hb
      rw [hmem] at hbelow
      omega
    · rw [hcopy, if_neg (by omega), Memory.byteAt, ← hmem]
      apply hp.byteAt_next
      rw [hmem]
      omega

/-- A block of four bytes, stored to, grows to eight. -/
theorem memcpy_realloc_grow : ∃ m s' m' new, Leads
      (started m (FlowCtx.realloc 128 ⟨32, 32⟩ ⟨64, 64⟩ Task.send)) s' ∧
    Alone 0 m' (.send new) s' ∧ m'.byteAt new = 7 ∧ m'.byteAt (new + 4) = 0 := by
  have hrun : ∃ h ∈ Heap.new.run [.alloc ⟨32, 32⟩, .store 128 (Value.new 32 7)],
      h.memory.next = 260 ∧ h.memory.byteAt 128 = 7 := by decide +kernel
  obtain ⟨h, hh, hnext, hbyte⟩ := hrun
  have hr : Heap.Reachable h := Heap.Reachable.new.run hh
  let m : Memory := ⟨h.memory, hr.inv.holds.wf⟩
  have hfit : roundUp m.inner.next (⟨64, 64⟩ : Layout).byteAlign + (⟨64, 64⟩ : Layout).bytes +
      heapGuard < 2 ^ 64 := by
    rw [show m.inner.next = 260 from hnext]
    decide
  obtain ⟨s', m', new, hs, h', -, -, -, hcopy, -, hheap⟩ :=
    memcpy_realloc.2 (alone_started m (FlowCtx.realloc 128 ⟨32, 32⟩ ⟨64, 64⟩ Task.send))
      (by decide) (by decide) (by decide) hfit (by decide)
  exact ⟨m, s', m', new, hs, h', (hcopy 0 (by decide)).trans hbyte,
    (hheap h hr rfl).2 4 (by decide)⟩

/-- A byte stored beyond the bump pointer shows in a block that is reallocated over it, and
`memcpy` panics on a length of `2 ^ 61`. -/
theorem memcpy_realloc_fails :
    (∃ m s, (started m (FlowCtx.realloc 128 ⟨32, 32⟩ ⟨512, 32⟩ Task.send)).run
        [.poll 0, .poll 0, .pass, .poll 0, .poll 0, .poll 0, .poll 0, .pass, .poll 0, .poll 0,
          .poll 0, .poll 0, .poll 0, .pass, .poll 0, .poll 0, .poll 0, .pass, .poll 0, .poll 0] =
        some s ∧ s.sent 0 = some 260 ∧ s.process.memory.byteAt (260 + 40) ≠ 0) ∧
    ∃ s, (started .new (FlowCtx.memcpy 0 0 (2 ^ 61) .ret)).run [.poll 0] = some s ∧
      s.failure ≠ none := by
  let m : Memory := (((Memory.new.alloc ⟨32, 32⟩).bind fun r =>
    r.2.storeImpl 300 (Value.new 8 255))).getD .new
  have hrun : ∃ s ∈ (started m (FlowCtx.realloc 128 ⟨32, 32⟩ ⟨512, 32⟩ Task.send)).run
      [.poll 0, .poll 0, .pass, .poll 0, .poll 0, .poll 0, .poll 0, .pass, .poll 0, .poll 0,
        .poll 0, .poll 0, .poll 0, .pass, .poll 0, .poll 0, .poll 0, .pass, .poll 0, .poll 0],
      s.sent 0 = some 260 ∧ s.process.memory.byteAt (260 + 40) ≠ 0 := by decide +kernel
  obtain ⟨s, hs, hsent, hbyte⟩ := hrun
  refine ⟨⟨m, s, hs, hsent, hbyte⟩, ?_⟩
  have hpanic : ∃ s ∈ (started .new (FlowCtx.memcpy 0 0 (2 ^ 61) .ret)).run [.poll 0],
      s.failure ≠ none := by decide +kernel
  exact hpanic

end Machine
end AtomicSim
