import AtomicSim.Process
import AtomicSim.Compile.Operation

namespace AtomicSim

/-- What the callers of `thunk_impl` pass to it. -/
structure ThunkArgs where
  address : Option (Thunk × Layout)
  atomicity : Ordering
  deps : List Thunk
  compute : Memory → List Value → Option (Value × Memory)

namespace ThunkArgs

def decode (a : ThunkArgs) (threadid : ThreadId) : Decode :=
  .thunkImpl threadid a.address a.atomicity a.deps a.compute

def thunk (a : ThunkArgs) (threadid : ThreadId) (seq : ℕ) : ThunkInner :=
  ⟨threadid, seq, a.deps, a.address, a.atomicity, a.compute⟩

end ThunkArgs

namespace DataFlow

/-- `DataFlow::thunk` with a closure that does not touch the memory. -/
def thunk (deps : List Thunk) (compute : List Value → Option Value) : ThunkArgs where
  address := none
  atomicity := .none
  deps := deps
  compute memory args := (compute args).map fun v => (v, memory)

def store (address : Thunk) (layout : Layout) (value : Thunk) (atomicity : Ordering) :
    ThunkArgs where
  address := some (address, layout)
  atomicity := atomicity
  deps := [address, value]
  compute memory args := do
    let ptr ← args[0]?
    let value ← args[1]?
    let memory ← memory.storeImpl ptr.asU64 value
    some (Value.ofUnit, memory)

def load (address : Thunk) (layout : Layout) (atomicity : Ordering) : ThunkArgs where
  address := some (address, layout)
  atomicity := atomicity
  deps := [address]
  compute memory args := do
    let ptr ← args[0]?
    let value ← memory.loadImpl ptr.asU64 layout
    some (value, memory)

end DataFlow

namespace FlowCtx

/-- `types.struc(vec![class, types.bool()], false)`. -/
def cmpxchgOutput (layout : Layout) : Option (Layout × List ℤ) := do
  let bool ← Layout.ofInt 1
  Layout.struc false [layout, bool]

def cmpxchg (layout : Layout) (address expected replacement : Thunk) (success failure : Ordering) :
    ThunkArgs where
  address := some (address, layout)
  atomicity := success.union failure
  deps := [address, expected, replacement]
  compute memory args := do
    let ptr ← args[0]?
    let current ← memory.loadImpl ptr.asU64 layout
    let expected ← args[1]?
    let changed := current == expected
    let memory ← if changed then do
        let replacement ← args[2]?
        memory.storeImpl ptr.asU64 replacement
      else some memory
    let (struct, offsets) ← cmpxchgOutput layout
    let result ← Value.aggregate struct offsets [current, Value.ofBool changed]
    some (result, memory)

def atomicrmw (layout : Layout) (address value : Thunk) (atomicity : Ordering)
    (oper : Value → Value → Option Value) : ThunkArgs where
  address := some (address, layout)
  atomicity := atomicity
  deps := [address, value]
  compute memory args := do
    let ptr ← args[0]?
    let current ← memory.loadImpl ptr.asU64 layout
    let operand ← args[1]?
    let new ← oper current operand
    let memory ← memory.storeImpl ptr.asU64 new
    some (current, memory)

/-- `output.extract(&struct, index)` on the result of `cmpxchg`. -/
def cmpxchgExtract (layout : Layout) (output : Value) (index : ℕ) : Option Value := do
  let bool ← Layout.ofInt 1
  let (_, offsets) ← cmpxchgOutput layout
  let offset ← offsets[index]?
  let element ← [layout, bool][index]?
  output.extractBits offset element.bits

end FlowCtx

section Compute

variable (address : Thunk) (layout : Layout) (atomicity : Ordering) (m : Memory) (p : Value)

theorem compute_load : (DataFlow.load address layout atomicity).compute m [p] =
    (m.loadImpl p.asU64 layout).map fun v => (v, m) := by
  simp [DataFlow.load, Option.map_eq_bind]

theorem compute_store (value : Thunk) (x : Value) :
    (DataFlow.store address layout value atomicity).compute m [p, x] =
      (m.storeImpl p.asU64 x).map fun n => (Value.ofUnit, n) := by
  simp [DataFlow.store, Option.map_eq_bind]

theorem compute_cmpxchg (expected replacement : Thunk) (success failure : Ordering)
    (e r : Value) :
    (FlowCtx.cmpxchg layout address expected replacement success failure).compute m [p, e, r] =
      (m.loadImpl p.asU64 layout).bind fun current =>
        (if current == e then m.storeImpl p.asU64 r else some m).bind fun n =>
          (FlowCtx.cmpxchgOutput layout).bind fun o =>
            (Value.aggregate o.1 o.2 [current, Value.ofBool (current == e)]).map
              fun v => (v, n) := by
  simp only [FlowCtx.cmpxchg, Option.map_eq_bind, Option.bind_eq_bind, Option.bind_some,
    List.getElem?_cons_zero, List.getElem?_cons_succ]
  refine Option.bind_congr fun current _ => ?_
  split_ifs <;> rfl

theorem compute_atomicrmw (value : Thunk) (oper : Value → Value → Option Value) (x : Value) :
    (FlowCtx.atomicrmw layout address value atomicity oper).compute m [p, x] =
      (m.loadImpl p.asU64 layout).bind fun current => (oper current x).bind fun new =>
        (m.storeImpl p.asU64 new).map fun n => (current, n) := by
  simp [FlowCtx.atomicrmw, Option.map_eq_bind]

end Compute

def ptr (n : ℕ) : Thunk := .constant (Value.new 64 n)

/-- An operand of type `i32`. -/
def int (n : ℕ) : Thunk := .constant (Value.new 32 n)

def i32 : Layout := ⟨32, 32⟩

def i64 : Layout := ⟨64, 64⟩

def decodeAll (l : List ThunkArgs) : List Decode :=
  .addThread :: l.map fun a => a.decode 0

theorem decode_eq_some {p p' : Process} {a : ThunkArgs} {t : ThreadId}
    (h : p.decode (a.decode t) = some p') :
    t ∈ p.threads ∧ p' = p.modify t fun f => f.push (a.thunk t (p.flows t).seq) := by
  simp only [Process.decode, ThunkArgs.decode, Process.thunkImpl, Option.map_eq_some_iff] at h
  obtain ⟨_, h, rfl⟩ := h
  split_ifs at h with hg
  exact ⟨hg.1, by rw [← Option.some.inj h]; rfl⟩

theorem run_decodes {p p' : Process} {ds : List Decode}
    (hd : ds.foldlM Process.decode p = some p') :
    (Config.decoding p).run (ds.map .decode) = some (.decoding p') := by
  induction ds generalizing p with
  | nil =>
    cases hd
    rfl
  | cons d ds ih =>
    rw [List.foldlM_cons] at hd
    obtain ⟨q, hq, hd⟩ := Option.bind_eq_some_iff.mp hd
    rw [List.map_cons, Config.run, Config.act, hq]
    exact ih hd

theorem Reachable.decodes {G : Process → ThunkInner → Prop} {p p' : Process} {ds : List Decode}
    (h : Reachable G (.decoding p)) (hd : ds.foldlM Process.decode p = some p') :
    Reachable G (.decoding p') := by
  induction ds generalizing p with
  | nil =>
    cases hd
    exact h
  | cons d ds ih =>
    rw [List.foldlM_cons] at hd
    obtain ⟨q, hq, hd⟩ := Option.bind_eq_some_iff.mp hd
    exact ih (h.act (a := .decode d) (by rw [Config.act, hq]; rfl) nofun) hd

theorem Reachable.of_run {G : Process → ThunkInner → Prop} {ds : List Decode} {acts : List Action}
    {p : Process} {c : Config} (hd : ds.foldlM Process.decode (.new .new) = some p)
    (h : (Config.decoding p).run acts = some c)
    (hG : ∀ v ∈ (Config.decoding p).runVisits acts, G v.1 v.2) : Reachable G c :=
  ((Reachable.new _).decodes hd).run h hG

end AtomicSim
