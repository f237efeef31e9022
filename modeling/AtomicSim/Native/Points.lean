import AtomicSim.AtomicUpdate
import AtomicSim.MachineRuns

namespace AtomicSim

namespace Process

/-- The handle is that of a thunk of `t`, decoded from `a` and not among the first `n`. -/
def Decodes (p : Process) (t : ThreadId) (n : ℕ) (d : Thunk) (a : ThunkArgs) : Prop :=
  ∃ i ≥ n, d = .cell t i ∧ (p.flows t).decoded[i]? = some (a.thunk t i)

section Decodes

variable {p q : Process} {t : ThreadId} {n : ℕ} {d : Thunk} {a : ThunkArgs} {memory : Memory}

theorem Decodes.mono (h : p.Decodes t n d a) (hq : p.Extends q) : q.Decodes t n d a := by
  obtain ⟨i, hi, hd, hdec⟩ := h
  exact ⟨i, hi, hd, hq.getElem? hdec⟩

theorem decodes_push (hn : n ≤ (p.flows t).seq) : Decodes
    (p.modify t fun f => f.push (a.thunk t (p.flows t).seq)) t n (.cell t (p.flows t).seq) a := by
  refine ⟨_, hn, rfl, ?_⟩
  rw [flows_modify_self, DataFlow.push]
  exact List.getElem?_concat_length

theorem Decodes.event (h : p.Decodes t n d a) (hp : p.WF) (hr : Recorded memory p) {v : Value}
    (hv : d.tryGet p = some v) : ∃ i ≥ n, ∃ m m' args, Event.res t i v m m' ∈ p.log ∧
      a.deps.mapM (Thunk.tryGet p) = some args ∧ a.compute m args = some (v, m') := by
  obtain ⟨i, hi, rfl, hdec⟩ := h
  obtain ⟨m, m', he⟩ := hp.logged.mp hv
  obtain ⟨c, args, hc, hargs, hcomp⟩ := hr.sound t i v m m' he
  cases Option.some.inj (hdec.symm.trans hc)
  exact ⟨i, hi, m, m', args, he, hargs, hcomp⟩

theorem Decodes.constant {v w : Value} (h : p.Decodes t n d (DataFlow.constant v)) (hp : p.WF)
    (hr : Recorded memory p) (hw : d.tryGet p = some w) : w = v := by
  obtain ⟨i, -, m, m', args, -, -, hcomp⟩ := h.event hp hr hw
  cases hcomp
  rfl

/-- The `dec` line of a later thunk can print a constant. -/
theorem Decodes.debug {v : Value} (h : p.Decodes t n d (DataFlow.constant v)) (hp : p.WF)
    (hr : Recorded memory p) (hv : v.debug.isSome) : (d.debug p).isSome := by
  obtain ⟨i, -, rfl, -⟩ := id h
  cases hw : p.value t i with
  | none => simp [Thunk.debug, hw]
  | some w =>
    cases h.constant hp hr hw
    simpa [Thunk.debug, hw] using hv

end Decodes

theorem debug_addr (x : ℕ) : (addr x).debug.isSome := by
  simp [Value.debug, addr, Value.new, Value.ofBits]

end Process

theorem Machine.Reachable.recorded {D : Machine → MachineAction → Prop} {memory : Memory}
    {s : Machine} (h : Machine.Reachable D memory s) : Recorded memory s.process :=
  (h.good (invariant_recorded memory) (recorded_new memory)).inv

section While

variable {s : Machine} {memory : Memory} {O G : Process → Prop}

/-- What holds while a pass or a choice goes on: nothing is decoded, and `G` holds as long as
the trace meets `O`. -/
structure Machine.While (s : Machine) (memory : Memory) (O G : Process → Prop) (p : Process) :
    Prop where
  recorded : Recorded memory p
  grows : Machine.Grows s.process p
  good : (∀ t, (p.flows t).decoded = (s.process.flows t).decoded) → O p → G p

theorem Machine.invariant_while (hwf : s.WF)
    (hback : ∀ {p q : Process}, p.Extends q → p.log <+: q.log → O q → O p)
    (hsame : ∀ {p q : Process}, p.Same q → G p → G q)
    (hstore : ∀ {p : Process} {n : Memory}, s.process.log.length ≤ p.log.length → G p →
      O { p with memory := n, log := p.log ++ [.store p.memory n] } →
      G { p with memory := n, log := p.log ++ [.store p.memory n] })
    (hresolve : ∀ {p : Process} {c : ThunkInner} {args : List Value} {v : Value} {n : Memory},
      p.WF → p.DepsEarlier → s.process.log.length ≤ p.log.length →
      (p.flows c.threadid).decoded[c.seq]? = some c → p.value c.threadid c.seq = none →
      c.compute p.memory args = some (v, n) → (c.isAtomic → Offered (fun _ _ => True) p c) →
      Recorded memory (p.resolve c v n) → G p → O (p.resolve c v n) → G (p.resolve c v n)) :
    Invariant (fun _ _ => True) (s.While memory O G) where
  same {p q} hs h := by
    have hext : p.Extends q :=
      ⟨fun t => by rw [hs.decoded], fun hv => by rw [hs.value]; exact hv⟩
    refine ⟨(invariant_recorded memory).same hs h.recorded, (invariant_grows _).same hs h.grows,
      fun hdec hO => hsame hs (h.good (fun t => ?_) (hback hext (by rw [hs.log]) hO))⟩
    rw [← hs.decoded, hdec]
  push {p c} hp ht hseq h := by
    refine ⟨(invariant_recorded memory).push hp ht hseq h.recorded,
      (invariant_grows _).push hp ht hseq h.grows, fun hdec => ?_⟩
    -- one thunk more than there were
    have hlen := congrArg List.length (hdec c.threadid)
    rw [Process.flows_modify_self, DataFlow.push, List.length_append, List.length_singleton] at hlen
    have hle := (h.grows.decoded c.threadid).length_le
    omega
  store {p n} hp h := by
    refine ⟨(invariant_recorded memory).store hp h.recorded,
      (invariant_grows _).store hp h.grows, fun hdec hO => ?_⟩
    have hext : p.Extends { p with memory := n, log := p.log ++ [.store p.memory n] } :=
      ⟨fun _ => List.prefix_rfl, id⟩
    exact hstore h.grows.log.length_le (h.good hdec (hback hext (List.prefix_append _ _) hO)) hO
  resolve {p p' c} hp h he hoff hs := by
    have hr := (invariant_recorded memory).resolve hp h.recorded he hoff hs
    refine ⟨hr, (invariant_grows _).resolve hp h.grows he hoff hs, fun hdec hO => ?_⟩
    have hext := hs.extends
    cases hs with
    | resolved _ hv hcomp _ =>
      have hsame : ∀ t, (p.flows t).decoded = (s.process.flows t).decoded := fun t => by
        rw [← hdec, Process.decoded_resolve]
      have hdeps : p.DepsEarlier := fun t _ c hc d hd =>
        hwf.deps.before hwf.process (hsame t ▸ hc) hd
      exact hresolve hp hdeps h.grows.log.length_le (hp.getElem?_of_mem he.mem) hv hcomp hoff hr
        (h.good hsame (hback hext (List.prefix_append _ _) hO)) hO

theorem Machine.While.act (hi : Invariant (fun _ _ => True) (s.While memory O G)) (hwf : s.WF)
    (hr : Recorded memory s.process) (h : G s.process) {a : Action} {config : Config}
    (ha : s.config.act a = some config) (hd : ∀ d, a ≠ .decode d) (hO : O config.process) :
    G config.process := by
  have hgood : config.Good (fun _ _ => True) (s.While memory O G) :=
    hi.act ⟨hwf.process, ⟨hr, ⟨.refl _, List.prefix_rfl⟩, fun _ _ => h⟩, hwf.good.offered⟩ ha
      fun _ _ => trivial
  exact hgood.inv.good (passed_of_act ha hd).decoded hO

end While

theorem Machine.polled_thunk {s s' : Machine} {p : Process} {t : ThreadId} {a : ThunkArgs}
    {k : Thunk → Task} (hs : Polled s p t (.thunk a k) s') :
    s' = s.suspend t none ∨
    s' = (s.decoded (p.modify t fun f => f.push (a.thunk t (p.flows t).seq)) t).goto t
      (k (.cell t (p.flows t).seq)) := by
  cases hs with
  | fail hf => cases hf
  | suspend hf => cases hf
  | full _ => exact .inl rfl
  | decode _ => exact .inr rfl

theorem Machine.exists_poll_thunk {s : Machine} {p : Process} {t : ThreadId} {a : ThunkArgs}
    {k : Thunk → Task} (h : s.WF) (hc : s.config = .decoding p) (hk : s.control t = .thunk a k)
    (ha : ∀ d ∈ a.operands, (d.debug p).isSome) : ∃ s', s.poll p t (.thunk a k) = some s' := by
  have hp := process_eq hc
  subst hp
  have hne : s.control t ≠ .done := by rw [hk]; nofun
  have hj : (s.process.flows t).joined = false := by
    rw [h.joined, (h.lt_of_control hne).2]
    rfl
  simp only [poll]
  split_ifs with hlen
  · have haddr : ∀ x ∈ a.address, (x.1.debug s.process).isSome := fun x hx => ha x.1
      (List.mem_append_right _ (List.mem_map_of_mem (Option.mem_toList.mpr hx)))
    have himpl : s.process.thunkImpl t a.address a.atomicity a.deps a.compute = some _ :=
      if_pos ⟨h.mem_threads hne, by simp [hj], hlen, fun d hd => ha d (List.mem_append_left _ hd),
        haddr⟩
    rw [himpl]
    exact ⟨_, rfl⟩
  · exact ⟨_, rfl⟩

theorem Machine.exists_poll_await {s : Machine} {p : Process} {t : ThreadId} {d : Thunk}
    {k : Value → Task} : ∃ s', s.poll p t (.await d k) = some s' := by
  simp only [poll]
  split <;> exact ⟨_, rfl⟩

/-- The operations that are left to a task, on the path that some answers to it take; each thunk
that it awaits gives the pointer 1. -/
def Task.left : Task → ℕ
  | .ret | .done | .panic _ => 0
  | .send _ => 1
  | .thunk _ k => (k (.constant .ofUnit)).left + 1
  | .await _ k => (k (Process.addr 1)).left + 1
  | .threadLocal _ _ k => (k 0).left + 1
  | .lock _ k | .wait _ _ k => k.left + 2
  | .unlock _ k | .receive k | .notify _ k | .notifyAll _ k | .thread _ k => k.left + 1
  | .tryLock _ k => (k true).left + 1
  | .addThread _ k => (k 0).left + 1
  | .join _ k => (k 0).left + 1

theorem left_store (address : ℕ) (value : Value) (k : Task) :
    (FlowCtx.store address value k).left = k.left + 4 := rfl

/-- The task is in `FlowCtx::store`, which goes on with `k`; the thunks of the call are among
those from the `n`-th on. -/
inductive InStore (p : Process) (t : ThreadId) (n address : ℕ) (value : Value) (k : Task) :
    Task → Prop
  | address : InStore p t n address value k (FlowCtx.store address value k)
  | value {a : Thunk} : p.Decodes t n a (DataFlow.constant (Process.addr address)) →
      InStore p t n address value k (FlowCtx.constant value fun v =>
        .thunk (DataFlow.store a (.fromBytes value.imp.length 1) v .none) fun d =>
        .await d fun _ => k)
  | store {a v : Thunk} : p.Decodes t n a (DataFlow.constant (Process.addr address)) →
      p.Decodes t n v (DataFlow.constant value) →
      InStore p t n address value k
        (.thunk (DataFlow.store a (.fromBytes value.imp.length 1) v .none) fun d =>
        .await d fun _ => k)
  | await {a v d : Thunk} : p.Decodes t n a (DataFlow.constant (Process.addr address)) →
      p.Decodes t n v (DataFlow.constant value) →
      p.Decodes t n d (DataFlow.store a (.fromBytes value.imp.length 1) v .none) →
      InStore p t n address value k (.await d fun _ => k)

/-- A thunk of `t`, not among the first `n`, has stored the value. -/
def Process.Stored (p : Process) (t : ThreadId) (n address : ℕ) (value : Value) : Prop :=
  ∃ i ≥ n, ∃ v m m', Event.res t i v m m' ∈ p.log ∧ m.storeImpl address value = some m'

section Store

variable {p q : Process} {t : ThreadId} {n address : ℕ} {value : Value} {k task : Task}

theorem InStore.mono (h : InStore p t n address value k task) (hq : p.Extends q) :
    InStore q t n address value k task := by
  cases h with
  | address => exact .address
  | value ha => exact .value (ha.mono hq)
  | store ha hv => exact .store (ha.mono hq) (hv.mono hq)
  | await ha hv hd => exact .await (ha.mono hq) (hv.mono hq) (hd.mono hq)

theorem Process.Stored.mono (h : p.Stored t n address value) (hq : p.log <+: q.log) :
    q.Stored t n address value := by
  obtain ⟨i, hi, v, m, m', he, hs⟩ := h
  exact ⟨i, hi, v, m, m', hq.subset he, hs⟩

theorem stored_of_tryGet {memory : Memory} {a v d : Thunk} {w : Value} {layout : Layout}
    {atomicity : Ordering} (hx : address < 2 ^ 64)
    (ha : p.Decodes t n a (DataFlow.constant (Process.addr address)))
    (hv : p.Decodes t n v (DataFlow.constant value))
    (hd : p.Decodes t n d (DataFlow.store a layout v atomicity)) (hp : p.WF)
    (hr : Recorded memory p) (hw : d.tryGet p = some w) : p.Stored t n address value := by
  obtain ⟨i, hi, m, m', args, he, hargs, hcomp⟩ := hd.event hp hr hw
  obtain ⟨x, y, hax, hvy, rfl⟩ := mapM_pair hargs
  cases ha.constant hp hr hax
  cases hv.constant hp hr hvy
  rw [compute_store, Value.asU64_addr hx] at hcomp
  obtain ⟨m'', hs, hm⟩ := Option.map_eq_some_iff.mp hcomp
  cases hm
  exact ⟨i, hi, _, m, _, he, hs⟩

open Machine in
/-- A poll leaves the task in `store`, or the value is stored and the task goes on; unless it
is suspended, it is a step nearer to its end. -/
theorem InStore.polled {s s' : Machine} {memory : Memory} (h : InStore p t n address value k task)
    (hwf : s.WF) (hr : Recorded memory p) (hc : s.config = .decoding p) (hx : address < 2 ^ 64)
    (hn : n ≤ (p.flows t).seq) (hk : s.control t = task) (hs : Polled s p t task s') :
    s'.failure = s.failure ∧ (s'.ready t = false ∨ (s'.control t).left < task.left) ∧
      (InStore s'.process t n address value k (s'.control t) ∨
        (s'.control t = k ∧ s'.process.Stored t n address value)) := by
  have hp := process_eq hc
  subst hp
  have hmem : t ∈ s.process.threads := hwf.mem_threads (by rw [hk]; rintro rfl; cases h)
  have hext := fun {a} => (Process.decoded_push hmem a).extends hwf.process
  have hself := hk ▸ h
  have hsleep : ∀ w, (s.suspend t w).ready t = false := fun _ => Function.update_self _ _ _
  cases h with
  | address =>
    rcases polled_thunk hs with rfl | rfl
    · exact ⟨rfl, .inl (hsleep _), .inl hself⟩
    · rw [control_goto]
      exact ⟨rfl, .inr (Nat.lt_succ_self _), .inl (.value (Process.decodes_push hn))⟩
  | value ha =>
    rcases polled_thunk hs with rfl | rfl
    · exact ⟨rfl, .inl (hsleep _), .inl hself⟩
    · rw [control_goto]
      exact ⟨rfl, .inr (Nat.lt_succ_self _),
        .inl (.store (ha.mono hext) (Process.decodes_push hn))⟩
  | store ha hv =>
    rcases polled_thunk hs with rfl | rfl
    · exact ⟨rfl, .inl (hsleep _), .inl hself⟩
    · rw [control_goto]
      exact ⟨rfl, .inr (Nat.lt_succ_self _),
        .inl (.await (ha.mono hext) (hv.mono hext) (Process.decodes_push hn))⟩
  | await ha hv hd =>
    cases hs with
    | fail hf =>
      -- the thread that awaits its own thunk is in the table
      cases hf with
      | await hno =>
        obtain ⟨i, -, rfl, -⟩ := hd
        exact absurd hmem hno
    | suspend _ => exact ⟨rfl, .inl (hsleep _), .inl hself⟩
    | await hw =>
      rw [control_goto]
      exact ⟨rfl, .inr (Nat.lt_succ_self _),
        .inr ⟨rfl, stored_of_tryGet hx ha hv hd hwf.process hr hw⟩⟩

open Machine in
theorem InStore.exists_poll {s : Machine} {memory : Memory} (h : InStore p t n address value k task)
    (hwf : s.WF) (hr : Recorded memory p) (hc : s.config = .decoding p)
    (hv : value.debug.isSome) (hk : s.control t = task) : ∃ s', s.poll p t task = some s' := by
  have hp : p.WF := process_eq hc ▸ hwf.process
  cases h with
  | address | value _ => exact exists_poll_thunk hwf hc hk nofun
  | store ha hv' =>
    refine exists_poll_thunk hwf hc hk fun d hd => ?_
    simp only [ThunkArgs.operands, DataFlow.store, List.mem_append, List.mem_cons,
      List.not_mem_nil, or_false, Option.toList_some, List.map_cons, List.map_nil] at hd
    rcases hd with (rfl | rfl) | rfl
    · exact ha.debug hp hr (Process.debug_addr _)
    · exact hv'.debug hp hr hv
    · exact ha.debug hp hr (Process.debug_addr _)
  | await _ _ _ => exact exists_poll_await

end Store

/-- The arguments of a `cmpxchg_u64`. -/
structure Exchange where
  address : ℕ
  expected : ℕ
  replacement : ℕ
  success : Ordering
  failure : Ordering

namespace Exchange

def task (x : Exchange) (k : ℕ × Bool → Task) : Task :=
  FlowCtx.cmpxchgU64 x.address x.expected x.replacement x.success x.failure k

def args (x : Exchange) (a e r : Thunk) : ThunkArgs :=
  FlowCtx.cmpxchg i64 a e r x.success x.failure

/-- What `cmpxchg_u64` does with the output of its thunk. -/
def output (k : ℕ × Bool → Task) (v : Value) : Task :=
  match FlowCtx.cmpxchgOutputU64 v with
  | some result => k result
  | none => .panic .unwrap

end Exchange

/-- Thunk `i` of `t` is the one of the call, and its operands are the constants of the call. -/
def Process.Exchanges (p : Process) (t : ThreadId) (n : ℕ) (x : Exchange) (i : ℕ) : Prop :=
  ∃ a e r, p.Decodes t n a (DataFlow.constant (Process.addr x.address)) ∧
    p.Decodes t n e (DataFlow.constant (Value.new 64 x.expected)) ∧
    p.Decodes t n r (DataFlow.constant (Value.new 64 x.replacement)) ∧
    p.Decodes t n (.cell t i) (x.args a e r)

/-- The task is in `cmpxchg_u64`, which goes on with `k`; `some i` once its thunk is decoded. -/
inductive InExchange (p : Process) (t : ThreadId) (n : ℕ) (x : Exchange) (k : ℕ × Bool → Task) :
    Option ℕ → Task → Prop
  | address : InExchange p t n x k none (x.task k)
  | expected {a : Thunk} : p.Decodes t n a (DataFlow.constant (Process.addr x.address)) →
      InExchange p t n x k none (FlowCtx.constant (Value.new 64 x.expected) fun e =>
        FlowCtx.constant (Value.new 64 x.replacement) fun r =>
        .thunk (x.args a e r) fun d => .await d (Exchange.output k))
  | replacement {a e : Thunk} : p.Decodes t n a (DataFlow.constant (Process.addr x.address)) →
      p.Decodes t n e (DataFlow.constant (Value.new 64 x.expected)) →
      InExchange p t n x k none (FlowCtx.constant (Value.new 64 x.replacement) fun r =>
        .thunk (x.args a e r) fun d => .await d (Exchange.output k))
  | thunk {a e r : Thunk} : p.Decodes t n a (DataFlow.constant (Process.addr x.address)) →
      p.Decodes t n e (DataFlow.constant (Value.new 64 x.expected)) →
      p.Decodes t n r (DataFlow.constant (Value.new 64 x.replacement)) →
      InExchange p t n x k none (.thunk (x.args a e r) fun d => .await d (Exchange.output k))
  | await {i : ℕ} : p.Exchanges t n x i →
      InExchange p t n x k (some i) (.await (.cell t i) (Exchange.output k))

section Exchange

variable {p q : Process} {t : ThreadId} {n : ℕ} {x : Exchange} {k : ℕ × Bool → Task} {task : Task}
  {o : Option ℕ} {i : ℕ} {memory : Memory}

theorem Process.Exchanges.mono (h : p.Exchanges t n x i) (hq : p.Extends q) :
    q.Exchanges t n x i := by
  obtain ⟨a, e, r, ha, he, hr, hi⟩ := h
  exact ⟨a, e, r, ha.mono hq, he.mono hq, hr.mono hq, hi.mono hq⟩

theorem InExchange.mono (h : InExchange p t n x k o task) (hq : p.Extends q) :
    InExchange q t n x k o task := by
  cases h with
  | address => exact .address
  | expected ha => exact .expected (ha.mono hq)
  | replacement ha he => exact .replacement (ha.mono hq) (he.mono hq)
  | thunk ha he hr => exact .thunk (ha.mono hq) (he.mono hq) (hr.mono hq)
  | await hi => exact .await (hi.mono hq)

theorem Process.Exchanges.event (h : p.Exchanges t n x i) (hp : p.WF) (hr : Recorded memory p)
    (hx : x.address < 2 ^ 64) (hexp : x.expected < 2 ^ 64) (hrep : x.replacement < 2 ^ 64)
    {v : Value} {m m' : Memory} (hev : Event.res t i v m m' ∈ p.log) :
    FlowCtx.cmpxchgOutputU64 v =
      some (m.number x.address 64, decide (m.number x.address 64 = x.expected)) ∧
    (m.number x.address 64 = x.expected → m'.number x.address 64 = x.replacement) ∧
    (m.number x.address 64 ≠ x.expected → m' = m) := by
  obtain ⟨a, e, r, ha, he, hr', j, -, hj, hdec⟩ := h
  cases hj
  -- the operands have their values, since the thunk has been resolved
  obtain ⟨c, args, hc, hargs, -⟩ := hr.sound t i v m m' hev
  cases Option.some.inj (hdec.symm.trans hc)
  obtain ⟨y, -, -, hy, -, -, -⟩ := mapM_triple hargs
  cases ha.constant hp hr hy
  have haddr : (a.tryGet p).map Value.asU64 = some x.address := by
    rw [hy, Option.map_some, Value.asU64_addr hx]
  obtain ⟨old, e', r', flag, hload, he', hr'', hold, hflag, hiff, hstore, hsame⟩ :=
    cmpxchg_result (w := 64) (by decide) hr hev (by decide) hdec haddr
  cases he.constant hp hr he'
  cases hr'.constant hp hr hr''
  have hbits : old.bits = 64 := Memory.bits_of_loadImpl hload
  have hnum : old.asU128 = m.number x.address 64 := by
    rw [Memory.loadImpl_eq] at hload
    split_ifs at hload
    exact Option.some.inj hload ▸ rfl
  have hexp' : (Value.new 64 x.expected).asU128 = x.expected := by
    rw [Value.asU128_new (by decide), Nat.mod_eq_of_lt hexp]
  have hequal : flag = true ↔ m.number x.address 64 = x.expected := by
    rw [hiff, ← hnum]
    refine ⟨fun h => h ▸ hexp', fun h => ?_⟩
    exact Value.eq_of_asU128 hbits (hbits ▸ by decide) (h.trans hexp'.symm)
  refine ⟨?_, fun h => ?_, fun h => ?_⟩
  · have hdecide : decide (m.number x.address 64 = x.expected) = flag := by
      cases flag <;> simpa using hequal
    obtain ⟨w, hw, hwflag⟩ := Option.bind_eq_some_iff.mp hflag
    simp only [FlowCtx.cmpxchgOutputU64, hold, hw, Option.bind_eq_bind, Option.bind_some,
      Value.unwrapInt, hbits, if_true, hnum, hwflag, hdecide]
  · have hm' := hstore (hequal.mpr h)
    rw [Memory.storeImpl_eq] at hm'
    split_ifs at hm'
    have hw : (m.write x.address (Value.new 64 x.replacement).imp).number x.address 64 =
        (Value.new 64 x.replacement).asU128 := number_write rfl
    rw [← Option.some.inj hm', hw, Value.asU128_new (by decide), Nat.mod_eq_of_lt hrep]
  · exact hsame (by simpa using fun hf => h (hequal.mp hf))

/-- The ways a poll goes in `cmpxchg_u64`: the task is suspended, it decodes a constant or its
thunk, or it goes on with the output. -/
inductive Exchanging (s : Machine) (p : Process) (t : ThreadId) (n : ℕ) (x : Exchange)
    (k : ℕ × Bool → Task) : Option ℕ → Machine → Prop
  | suspend {o : Option ℕ} {w : Option Waker} : Exchanging s p t n x k o (s.suspend t w)
  | constant {v : Value} {k' : Task} :
      InExchange (p.modify t fun f => f.push ((DataFlow.constant v).thunk t (p.flows t).seq))
        t n x k none k' →
      Exchanging s p t n x k none
        ((s.decoded (p.modify t fun f => f.push
          ((DataFlow.constant v).thunk t (p.flows t).seq)) t).goto t k')
  | thunk {a : ThunkArgs} :
      Process.Exchanges (p.modify t fun f => f.push (a.thunk t (p.flows t).seq)) t n x
        (p.flows t).seq →
      Exchanging s p t n x k none
        ((s.decoded (p.modify t fun f => f.push (a.thunk t (p.flows t).seq)) t).goto t
          (.await (.cell t (p.flows t).seq) (Exchange.output k)))
  | output {i : ℕ} {v : Value} : p.value t i = some v →
      Exchanging s p t n x k (some i) (s.goto t (Exchange.output k v))

open Machine in
theorem InExchange.polled {s s' : Machine} (h : InExchange p t n x k o task) (hwf : s.WF)
    (hc : s.config = .decoding p) (hn : n ≤ (p.flows t).seq) (hk : s.control t = task)
    (hs : Polled s p t task s') : Exchanging s p t n x k o s' := by
  have hp := process_eq hc
  subst hp
  have hmem : t ∈ s.process.threads := hwf.mem_threads (by rw [hk]; rintro rfl; cases h)
  have hext := fun {a} => (Process.decoded_push hmem a).extends hwf.process
  cases h with
  | address =>
    rcases polled_thunk hs with rfl | rfl
    · exact .suspend
    · exact .constant (.expected (Process.decodes_push hn))
  | expected ha =>
    rcases polled_thunk hs with rfl | rfl
    · exact .suspend
    · exact .constant (.replacement (ha.mono hext) (Process.decodes_push hn))
  | replacement ha he =>
    rcases polled_thunk hs with rfl | rfl
    · exact .suspend
    · exact .constant (.thunk (ha.mono hext) (he.mono hext) (Process.decodes_push hn))
  | thunk ha he hr =>
    rcases polled_thunk hs with rfl | rfl
    · exact .suspend
    · exact .thunk ⟨_, _, _, ha.mono hext, he.mono hext, hr.mono hext, Process.decodes_push hn⟩
  | await hi =>
    cases hs with
    | fail hf =>
      cases hf with
      | await hno => exact absurd hmem hno
    | suspend _ => exact .suspend
    | await hv => exact .output hv

end Exchange

end AtomicSim
