import AtomicSim.Lib.Reorder
import AtomicSim.Runs
import AtomicSim.Flow

namespace AtomicSim

/-- What a thread decodes that allocates nothing: pure thunks and accesses, where an `atomicrmw` has
a scalar operation. -/
inductive Instr where
  | thunk (deps : List Thunk) (compute : List Value → Option Value)
  | load (address : Thunk) (layout : Layout) (atomicity : Ordering)
  | store (address : Thunk) (layout : Layout) (value : Thunk) (atomicity : Ordering)
  | cmpxchg (layout : Layout) (address expected replacement : Thunk) (success failure : Ordering)
  | atomicrmw (layout : Layout) (address value : Thunk) (atomicity : Ordering)
      (operation : COperationName)

def Thunk.get (value : ℕ → Option Value) : Thunk → Option Value
  | constant v => some v
  | cell threadid seq => if threadid = 0 then value seq else none

/-- Among the values that a thread has found so far. -/
def Thunk.valueIn (threadid : ThreadId) (values : List Value) : Thunk → Option Value
  | constant value => some value
  | cell t seq => if t = threadid then values[seq]? else none

namespace Instr

def args : Instr → ThunkArgs
  | thunk deps compute => DataFlow.thunk deps compute
  | load address layout atomicity => DataFlow.load address layout atomicity
  | store address layout value atomicity => DataFlow.store address layout value atomicity
  | cmpxchg layout address expected replacement success failure =>
    FlowCtx.cmpxchg layout address expected replacement success failure
  | atomicrmw layout address value atomicity operation =>
    FlowCtx.atomicrmw layout address value atomicity operation.callScalarBinop

/-- The closure, applied to the values of its operands. -/
def call (value : ℕ → Option Value) (a : Instr) (m : Memory) : Option (Value × Memory) :=
  (a.args.deps.mapM (Thunk.get value)).bind (a.args.compute m)

def range (value : ℕ → Option Value) (a : Instr) : Option (Range ℕ) :=
  a.args.address.bind fun (address, layout) =>
    (address.get value).map fun v => ⟨v.asU64, v.asU64 + layout.bytes⟩

def Widths (value : ℕ → Option Value) : Instr → Prop
  | thunk _ _ | load _ _ _ => True
  | store _ layout v _ | atomicrmw layout _ v _ _ => ∀ x ∈ v.get value, x.bits = layout.bits
  | cmpxchg layout _ expected replacement _ _ =>
    (∀ x ∈ expected.get value, x.bits = layout.bits) ∧
      ∀ x ∈ replacement.get value, x.bits = layout.bits

instance (value : ℕ → Option Value) : DecidablePred (Widths value)
  | thunk _ _ | load _ _ _ => inferInstanceAs (Decidable True)
  | store _ _ v _ | atomicrmw _ _ v _ _ => inferInstanceAs (Decidable (∀ x ∈ v.get value, _))
  | cmpxchg _ _ _ _ _ _ => inferInstanceAs (Decidable (_ ∧ _))

end Instr

/-- Accesses touch the same bytes or no common byte, and operands have the right widths. -/
structure Regular (prog : List Instr) (value : ℕ → Option Value) : Prop where
  ranges : ∀ a ∈ prog, ∀ b ∈ prog, ∀ r ∈ a.range value, ∀ s ∈ b.range value,
    r = s ∨ ¬ r.Overlaps s
  widths : ∀ a ∈ prog, a.Widths value

instance (prog : List Instr) (value : ℕ → Option Value) : Decidable (Regular prog value) :=
  decidable_of_iff (_ ∧ _) ⟨fun h => ⟨h.1, h.2⟩, fun h => ⟨h.ranges, h.widths⟩⟩

/-- Every operand is a constant or an earlier thunk of the program. -/
def OperandsEarlier (prog : List Instr) : Prop :=
  ∀ i < prog.length, ∀ a ∈ prog[i]?, ∀ d ∈ a.args.deps, d.Before (a.args.thunk 0 i)

instance (prog : List Instr) : Decidable (OperandsEarlier prog) :=
  inferInstanceAs (Decidable (∀ i < prog.length, _))

/-- One thunk after the other: each sees the values of those before it and the memory that
they leave. -/
def execute (acc : List Value × Memory) (a : Instr) : Option (List Value × Memory) :=
  (a.call (fun i => acc.1[i]?) acc.2).map fun (v, m) => (acc.1 ++ [v], m)

def sequential (prog : List Instr) (memory : Memory) : Option (List Value × Memory) :=
  prog.foldlM execute ([], memory)

/-- What can happen to the thread: its task decodes the next thunk, a pass of `step_pure`
runs, or one of the thunks that the last pass offered is resolved. -/
inductive Move where
  | decode
  | pass
  | resolve (n : ℕ)

namespace Move

/-- `none` where the move is not enabled or the code panics. -/
def act (prog : List Instr) :
    Process × List ThunkInner → Move → Option (Process × List ThunkInner)
  | (p, resolvable), decode =>
    prog[(p.flows 0).seq]?.bind fun a => (p.decode (a.args.decode 0)).map fun p' => (p', resolvable)
  | (p, _), pass => (p.stepPure 0 []).map fun (p', resolvable, _) => (p', resolvable)
  | (p, resolvable), resolve n =>
    match resolvable[n]? with
    | none => none
    | some c =>
      match c.step p with
      | some (p', true) => some (p', resolvable)
      | _ => none

/-- A run of a fresh thread over the given memory. -/
def run (prog : List Instr) (memory : Memory) (moves : List Move) :
    Option (Process × List ThunkInner) :=
  moves.foldlM (act prog) ((Process.new memory).addThread, [])

end Move

def Memory.put (m : Memory) (ptr : ℕ) : Option (List Byte) → Memory
  | none => m
  | some bytes => m.write ptr bytes

/-- `f` reads and writes only the bytes of `r`. -/
def Confined (r : Range ℕ) (f : Memory → Option (Value × Memory)) : Prop :=
  ∀ m v n, f m = some (v, n) → ∃ w : Option (List Byte),
    (∀ bytes ∈ w, r.start + bytes.length = r.stop) ∧
    ∀ m', (∀ x, r.Contains x → m'.byteAt x = m.byteAt x) → f m' = some (v, m'.put r.start w)

theorem byteAt_put {m : Memory} {r : Range ℕ} {w : Option (List Byte)}
    (hw : ∀ bytes ∈ w, r.start + bytes.length = r.stop) {x : ℕ} (hx : ¬ r.Contains x) :
    (m.put r.start w).byteAt x = m.byteAt x := by
  cases w with
  | none => rfl
  | some bytes =>
    have hx' : ¬ (r.start ≤ x ∧ x < r.start + bytes.length) := by
      rw [hw bytes rfl]
      exact hx
    rw [Memory.put, Memory.byteAt_write, if_neg hx']

theorem put_comm {m : Memory} {r s : Range ℕ} {w u : Option (List Byte)}
    (hw : ∀ bytes ∈ w, r.start + bytes.length = r.stop)
    (hu : ∀ bytes ∈ u, s.start + bytes.length = s.stop) (hd : ¬ r.Overlaps s) :
    (m.put r.start w).put s.start u = (m.put s.start u).put r.start w := by
  cases w with
  | none => rfl
  | some b =>
    cases u with
    | none => rfl
    | some c =>
      refine Memory.write_comm m ?_
      rw [hw b rfl, hu c rfl]
      exact hd

theorem Confined.swap {r s : Range ℕ} {f g : Memory → Option (Value × Memory)}
    (hf : Confined r f) (hg : Confined s g) (hd : ¬ r.Overlaps s) {m m₁ m₂ : Memory}
    {v w : Value} (h₁ : f m = some (v, m₁)) (h₂ : g m₁ = some (w, m₂)) :
    ∃ m', g m = some (w, m') ∧ f m' = some (v, m₂) := by
  obtain ⟨a, ha, hfa⟩ := hf m v m₁ h₁
  obtain ⟨b, hb, hgb⟩ := hg m₁ w m₂ h₂
  -- what each action writes is fixed by its own bytes, which the other leaves alone
  have hm₁ : m₁ = m.put r.start a := by
    have h := (hfa m fun _ _ => rfl).symm.trans h₁
    simpa using h.symm
  have hm₂ : m₂ = m₁.put s.start b := by
    have h := (hgb m₁ fun _ _ => rfl).symm.trans h₂
    simpa using h.symm
  have hnot : ∀ x, r.Contains x → ¬ s.Contains x :=
    fun x hr hs => hd (Range.overlaps_iff_exists.mpr ⟨x, hr, hs⟩)
  refine ⟨m.put s.start b, hgb m fun x hx => ?_, ?_⟩
  · rw [hm₁, byteAt_put ha fun hr => hnot x hr hx]
  · rw [hfa (m.put s.start b) fun x hx => byteAt_put hb (hnot x hx), hm₂, hm₁, put_comm ha hb hd]

/-- Whether and what a store of the right width writes does not depend on the memory. -/
theorem storeImpl_put {m n : Memory} {ptr : ℕ} {layout : Layout} {v : Value}
    (hv : v.bits = layout.bits) (h : m.storeImpl ptr v = some n) :
    ptr + v.imp.length = ptr + layout.bytes ∧
      ∀ m' : Memory, m'.storeImpl ptr v = some (m'.put ptr (some v.imp)) := by
  rw [Memory.storeImpl_eq] at h
  split_ifs at h with hlt
  refine ⟨?_, fun m' => ?_⟩
  · rw [v.length_imp, hv, Layout.bytes]
  · rw [Memory.storeImpl_eq, if_pos hlt]
    rfl

section Closures

variable (address : Thunk) (layout : Layout) (atomicity : Ordering) (p : Value)

theorem confined_load : Confined ⟨p.asU64, p.asU64 + layout.bytes⟩
    fun m => (DataFlow.load address layout atomicity).compute m [p] := by
  intro m v n h
  beta_reduce at h ⊢
  rw [compute_load] at h
  obtain ⟨x, hx, hxv⟩ := Option.map_eq_some_iff.mp h
  cases hxv
  refine ⟨none, nofun, fun m' hm' => ?_⟩
  rw [compute_load, Memory.loadImpl_congr hm', hx]
  rfl

theorem confined_store (value : Thunk) {x : Value} (hx : x.bits = layout.bits) :
    Confined ⟨p.asU64, p.asU64 + layout.bytes⟩
      fun m => (DataFlow.store address layout value atomicity).compute m [p, x] := by
  intro m v n h
  beta_reduce at h ⊢
  rw [compute_store] at h
  obtain ⟨n', hn, hnv⟩ := Option.map_eq_some_iff.mp h
  cases hnv
  obtain ⟨hlen, hput⟩ := storeImpl_put hx hn
  refine ⟨some x.imp, fun b hb => Option.some.inj hb ▸ hlen, fun m' _ => ?_⟩
  rw [compute_store, hput m']
  rfl

theorem confined_cmpxchg (expected replacement : Thunk) (success failure : Ordering) (e : Value)
    {r : Value} (hr : r.bits = layout.bits) :
    Confined ⟨p.asU64, p.asU64 + layout.bytes⟩ fun m =>
      (FlowCtx.cmpxchg layout address expected replacement success failure).compute m
        [p, e, r] := by
  intro m v n h
  beta_reduce at h ⊢
  rw [compute_cmpxchg] at h
  obtain ⟨current, hc, h⟩ := Option.bind_eq_some_iff.mp h
  obtain ⟨n', hn, h⟩ := Option.bind_eq_some_iff.mp h
  obtain ⟨o, ho, h⟩ := Option.bind_eq_some_iff.mp h
  obtain ⟨x, hx, hxv⟩ := Option.map_eq_some_iff.mp h
  cases hxv
  -- the outcome is fixed by the value loaded, so only the store is left to look at
  have hcompute : ∀ {m' n'}, m'.loadImpl p.asU64 layout = some current →
      (if current == e then m'.storeImpl p.asU64 r else some m') = some n' →
      (FlowCtx.cmpxchg layout address expected replacement success failure).compute m' [p, e, r] =
        some (v, n') := by
    intro m' n' hload hstore
    rw [compute_cmpxchg, hload, Option.bind_some, hstore, Option.bind_some, ho, Option.bind_some,
      hx]
    rfl
  by_cases heq : (current == e) = true
  · rw [if_pos heq] at hn
    obtain ⟨hlen, hput⟩ := storeImpl_put hr hn
    refine ⟨some r.imp, fun b hb => Option.some.inj hb ▸ hlen, fun m' hm' => ?_⟩
    refine hcompute ((Memory.loadImpl_congr hm').trans hc) ?_
    rw [if_pos heq, hput m']
  · refine ⟨none, nofun, fun m' hm' => ?_⟩
    refine hcompute ((Memory.loadImpl_congr hm').trans hc) ?_
    rw [if_neg heq]
    rfl

theorem confined_atomicrmw (value : Thunk) {oper : Value → Value → Option Value} {x : Value}
    (hoper : ∀ current new, oper current x = some new → new.bits = layout.bits) :
    Confined ⟨p.asU64, p.asU64 + layout.bytes⟩
      fun m => (FlowCtx.atomicrmw layout address value atomicity oper).compute m [p, x] := by
  intro m v n h
  beta_reduce at h ⊢
  rw [compute_atomicrmw] at h
  obtain ⟨current, hc, h⟩ := Option.bind_eq_some_iff.mp h
  obtain ⟨new, hnew, h⟩ := Option.bind_eq_some_iff.mp h
  obtain ⟨n', hn, hnv⟩ := Option.map_eq_some_iff.mp h
  cases hnv
  obtain ⟨hlen, hput⟩ := storeImpl_put (hoper _ _ hnew) hn
  refine ⟨some new.imp, fun b hb => Option.some.inj hb ▸ hlen, fun m' hm' => ?_⟩
  rw [compute_atomicrmw, Memory.loadImpl_congr hm', hc, Option.bind_some, hnew, Option.bind_some,
    hput m']
  rfl

end Closures

namespace Instr

def bytes (value : ℕ → Option Value) (a : Instr) : Range ℕ := (a.range value).getD ⟨0, 0⟩

theorem bytes_eq {value : ℕ → Option Value} {a : Instr} {address : Thunk} {layout : Layout}
    (ha : a.args.address = some (address, layout)) {p : Value} (hp : address.get value = some p) :
    a.bytes value = ⟨p.asU64, p.asU64 + layout.bytes⟩ := by
  simp only [bytes, range, ha, Option.bind_some, hp, Option.map_some, Option.getD_some]

theorem confined {value : ℕ → Option Value} {a : Instr} (hw : a.Widths value) :
    Confined (a.bytes value) (a.call value) := by
  cases hargs : a.args.deps.mapM (Thunk.get value) with
  | none =>
    intro m v n h
    rw [call, hargs] at h
    cases h
  | some args =>
    have hcall : a.call value = fun m => a.args.compute m args := by
      funext m
      rw [call, hargs, Option.bind_some]
    rw [hcall]
    cases a with
    | thunk deps compute =>
      intro m v n h
      obtain ⟨x, hx, hxv⟩ := Option.map_eq_some_iff.mp h
      cases hxv
      exact ⟨none, nofun, fun m' _ => Option.map_eq_some_iff.mpr ⟨v, hx, rfl⟩⟩
    | load address layout atomicity =>
      obtain ⟨p, hp, rfl⟩ := mapM_singleton hargs
      rw [bytes_eq rfl hp]
      exact confined_load address layout atomicity p
    | store address layout v atomicity =>
      obtain ⟨p, x, hp, hx, rfl⟩ := mapM_pair hargs
      rw [bytes_eq rfl hp]
      exact confined_store address layout atomicity p v (hw x hx)
    | cmpxchg layout address expected replacement success failure =>
      obtain ⟨p, e, r, hp, -, hr, rfl⟩ := mapM_triple hargs
      rw [bytes_eq rfl hp]
      exact confined_cmpxchg address layout p expected replacement success failure e (hw.2 r hr)
    | atomicrmw layout address v atomicity operation =>
      obtain ⟨p, x, hp, hx, rfl⟩ := mapM_pair hargs
      rw [bytes_eq rfl hp]
      refine confined_atomicrmw address layout atomicity p v fun current new hnew => ?_
      exact (COperationName.bits_callScalarBinop hnew).trans (hw x hx)

end Instr

/-- The thunks as actions on the memory, with the values of their operands given. -/
def action (prog : List Instr) (value : ℕ → Option Value) (i : ℕ) (m : Memory) :
    Option (Value × Memory) :=
  prog[i]?.bind fun a => a.call value m

/-- Two accesses that touch a common byte. -/
def Conflict (prog : List Instr) (value : ℕ → Option Value) (i j : ℕ) : Prop :=
  ∃ a ∈ prog[i]?, ∃ b ∈ prog[j]?, (a.bytes value).Overlaps (b.bytes value)

theorem commutes_action {prog : List Instr} {value : ℕ → Option Value} (h : Regular prog value)
    {i j : ℕ} (hij : ¬ Conflict prog value j i) : Reorder.Commutes (action prog value) i j := by
  unfold action
  cases ha : prog[i]? with
  | none =>
    intro m v w m'
    simp [ha]
  | some a =>
    cases hb : prog[j]? with
    | none =>
      intro m v w m'
      simp [hb]
    | some b =>
      have hca := Instr.confined (h.widths a (List.mem_of_getElem? ha))
      have hcb := Instr.confined (h.widths b (List.mem_of_getElem? hb))
      have hba : ¬ (b.bytes value).Overlaps (a.bytes value) := fun ho => hij ⟨b, hb, a, ha, ho⟩
      intro m v w m'
      simp only [ha, hb, Option.bind_some]
      constructor
      · rintro ⟨m₁, h₁, h₂⟩
        exact hca.swap hcb (Range.overlaps_comm.not.mp hba) h₁ h₂
      · rintro ⟨m₁, h₁, h₂⟩
        exact hcb.swap hca hba h₁ h₂

section Replay

variable {prog : List Instr} {value value' : ℕ → Option Value} {m m' : Memory}

theorem Instr.call_congr {a : Instr} {i : ℕ} (hd : ∀ d ∈ a.args.deps, d.Before (a.args.thunk 0 i))
    (h : ∀ j < i, value j = value' j) : a.call value = a.call value' := by
  have hget : ∀ d ∈ a.args.deps, d.get value = d.get value' := by
    intro d hda
    have hb := hd d hda
    cases d with
    | constant v => rfl
    | cell t j => rw [Thunk.get, Thunk.get, h j hb.2]
  funext m
  rw [call, call, mapM_congr hget]

theorem OperandsEarlier.of_append {l : List Instr} (h : OperandsEarlier (prog ++ l)) :
    OperandsEarlier prog := by
  intro i hi a ha
  refine h i (List.length_append ▸ Nat.lt_add_right _ hi) a ?_
  rwa [List.getElem?_append_left hi]

/-- Sequential execution finds the values of a list exactly when the actions with these
values replay in order. -/
theorem sequential_eq_some (hd : OperandsEarlier prog) {vals : List Value} :
    sequential prog m = some (vals, m') ↔ vals.length = prog.length ∧
      Reorder.Replays (action prog fun i => vals[i]?) (fun i => vals[i]?) m
        (List.range prog.length) m' := by
  induction prog using List.reverseRecOn generalizing vals m' with
  | nil => simp [sequential, Reorder.replays_nil, eq_comm]
  | append_singleton prog a ih =>
    have hd' := hd.of_append
    have hda : ∀ d ∈ a.args.deps, d.Before (a.args.thunk 0 prog.length) :=
      hd prog.length (by simp) a (by simp)
    -- a thunk sees only the values before it, so one more value changes no action
    have hcongr : ∀ us v, us.length = prog.length → ∀ i ∈ List.range prog.length,
        action prog (fun i => us[i]?) i = action (prog ++ [a]) (fun i => (us ++ [v])[i]?) i ∧
          us[i]? = (us ++ [v])[i]? := by
      intro us v hus i hi
      rw [List.mem_range] at hi
      refine ⟨?_, (List.getElem?_append_left (hus ▸ hi)).symm⟩
      unfold action
      rw [List.getElem?_append_left hi]
      funext n
      refine Option.bind_congr fun b hb => ?_
      rw [Instr.call_congr (hd' i hi b hb) fun j hj => ?_]
      exact (List.getElem?_append_left (hus ▸ hj.trans hi)).symm
    have hlast : ∀ us v, us.length = prog.length →
        action (prog ++ [a]) (fun i => (us ++ [v])[i]?) prog.length =
          a.call fun i => us[i]? := by
      intro us v hus
      funext n
      rw [action, List.getElem?_concat_length, Option.bind_some,
        Instr.call_congr hda fun j hj => ?_]
      exact List.getElem?_append_left (hus ▸ hj)
    -- the last instruction runs after all the others
    rw [sequential, List.foldlM_append, List.length_append, List.length_singleton,
      List.range_succ, Reorder.replays_append]
    constructor
    · intro h
      obtain ⟨⟨us, m₁⟩, hseq, h⟩ := Option.bind_eq_some_iff.mp h
      obtain ⟨⟨v, m₂⟩, hcall, hv⟩ :=
        Option.map_eq_some_iff.mp ((List.foldlM_cons.trans (bind_pure _)).symm.trans h)
      cases hv
      obtain ⟨hus, hrep⟩ := (ih hd').mp hseq
      refine ⟨by rw [List.length_append, hus, List.length_singleton], m₁,
        (Reorder.replays_congr (hcongr us v hus)).mp hrep, ?_⟩
      refine .cons ((congrFun (hlast us v hus) m₁).trans hcall) ?_ (.nil _)
      rw [← hus, List.getElem?_concat_length]
    · rintro ⟨hlen, m₁, hrep, hrep'⟩
      obtain ⟨us, v, rfl⟩ : ∃ us v, vals = us ++ [v] := by
        rcases List.eq_nil_or_concat vals with rfl | ⟨us, v, rfl⟩
        · cases hlen
        · exact ⟨us, v, List.concat_eq_append⟩
      have hus : us.length = prog.length := by simpa using hlen
      obtain ⟨w, m₂, hact, hw, hnil⟩ := Reorder.replays_cons.mp hrep'
      cases Reorder.replays_nil.mp hnil
      rw [← hus, List.getElem?_concat_length] at hw
      cases hw
      rw [hlast us v hus] at hact
      have hseq := (ih hd').mpr ⟨hus, (Reorder.replays_congr (hcongr us v hus)).mpr hrep⟩
      refine Option.bind_eq_some_iff.mpr ⟨_, hseq, ?_⟩
      rw [List.foldlM_cons, execute, hact]
      rfl

end Replay

end AtomicSim
