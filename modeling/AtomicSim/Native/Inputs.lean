import AtomicSim.Native.Task

namespace AtomicSim

/-- A type that a native function takes an argument as: whether the operand is awaited first,
and how it is read off the operand and the value awaited. -/
structure NativeInput (α : Type) where
  needsValue : Bool
  fromThunk : Thunk × Option Value → Option α

namespace NativeInput

variable {α : Type}

/-- `t.try_get().unwrap()`, and then one of the `unwrap` functions. -/
def ofValue (unwrap : Value → Option α) : NativeInput α := ⟨true, fun t => t.2.bind unwrap⟩

def thunk : NativeInput Thunk := ⟨false, fun t => some t.1⟩

def bool : NativeInput Bool := ofValue Value.unwrapBool

def uint (bits : ℕ) : NativeInput ℕ := ofValue fun v => (v.unwrapInt bits).map (· % 2 ^ bits)

def u32 : NativeInput ℕ := uint 32

def u64 : NativeInput ℕ := uint 64

def addr : NativeInput ℕ := ofValue fun v => some v.asU64

@[simp] theorem fromThunk_ofValue (unwrap : Value → Option α) (x : Thunk) (v : Value) :
    (ofValue unwrap).fromThunk (x, some v) = unwrap v := rfl

theorem fromThunk_bool (x : Thunk) (b : Bool) :
    bool.fromThunk (x, some (Value.ofBool b)) = some b := by
  rw [bool, fromThunk_ofValue, Value.unwrapBool_ofBool]

theorem fromThunk_uint {bits n : ℕ} (hb : bits ≤ 128) (hn : n < 2 ^ bits) (x : Thunk) :
    (uint bits).fromThunk (x, some (Value.new bits n)) = some n := by
  have hbits : (Value.new bits n).bits = bits := rfl
  rw [uint, fromThunk_ofValue, Value.unwrapInt, if_pos hbits, Value.asU128_new hb, Option.map_some,
    Nat.mod_mod, Nat.mod_eq_of_lt hn]

theorem fromThunk_addr {n : ℕ} (hn : n < 2 ^ 64) (x : Thunk) :
    addr.fromThunk (x, some (Process.addr n)) = some n := by
  rw [addr, fromThunk_ofValue, Value.asU64_addr hn]

end NativeInput

/-- A tuple of arguments. -/
structure NativeInputs (α : Type) where
  needsValue : ℕ → Option Bool
  fromThunks : List (Thunk × Option Value) → Option α

namespace NativeInputs

variable {α β γ δ : Type}

def two (a : NativeInput α) (b : NativeInput β) : NativeInputs (α × β) where
  needsValue index := [a.needsValue, b.needsValue][index]?
  fromThunks ts := do
    let x ← ts[0]?
    let x ← a.fromThunk x
    let y ← ts[1]?
    let y ← b.fromThunk y
    some (x, y)

def three (a : NativeInput α) (b : NativeInput β) (c : NativeInput γ) :
    NativeInputs (α × β × γ) where
  needsValue index := [a.needsValue, b.needsValue, c.needsValue][index]?
  fromThunks ts := do
    let x ← ts[0]?
    let x ← a.fromThunk x
    let y ← ts[1]?
    let y ← b.fromThunk y
    let z ← ts[2]?
    let z ← c.fromThunk z
    some (x, y, z)

def four (a : NativeInput α) (b : NativeInput β) (c : NativeInput γ) (d : NativeInput δ) :
    NativeInputs (α × β × γ × δ) where
  needsValue index := [a.needsValue, b.needsValue, c.needsValue, d.needsValue][index]?
  fromThunks ts := do
    let x ← ts[0]?
    let x ← a.fromThunk x
    let y ← ts[1]?
    let y ← b.fromThunk y
    let z ← ts[2]?
    let z ← c.fromThunk z
    let w ← ts[3]?
    let w ← d.fromThunk w
    some (x, y, z, w)

variable {a : NativeInput α} {b : NativeInput β} {c : NativeInput γ} {d : NativeInput δ}
  {x y z w : Thunk × Option Value} {u : α} {v : β} {r : γ} {q : δ}

theorem fromThunks_two (hx : a.fromThunk x = some u) (hy : b.fromThunk y = some v) :
    (two a b).fromThunks [x, y] = some (u, v) := by
  simp [two, hx, hy]

theorem fromThunks_three (hx : a.fromThunk x = some u) (hy : b.fromThunk y = some v)
    (hz : c.fromThunk z = some r) : (three a b c).fromThunks [x, y, z] = some (u, v, r) := by
  simp [three, hx, hy, hz]

theorem fromThunks_four (hx : a.fromThunk x = some u) (hy : b.fromThunk y = some v)
    (hz : c.fromThunk z = some r) (hw : d.fromThunk w = some q) :
    (four a b c d).fromThunks [x, y, z, w] = some (u, v, r, q) := by
  simp [four, hx, hy, hz, hw]

end NativeInputs

section Func

variable {α : Type}

/-- The loop of `from_thunks_impl` behind the operands that it has read. An operand for which
the tuple has no place is a mismatch, found once the operands before it are there. -/
def fromThunksLoop (inputs : NativeInputs α) (k : Option α → Task) :
    List (Thunk × Option Value) → List Thunk → Task
  | read, [] =>
    match inputs.fromThunks read with
    | none => .panic .unwrap
    | some argvs => k (some argvs)
  | read, x :: args =>
    match inputs.needsValue read.length with
    | none => k none
    | some true => .await x fun v => fromThunksLoop inputs k (read ++ [(x, some v)]) args
    | some false => fromThunksLoop inputs k (read ++ [(x, none)]) args

def fromThunksImpl (inputs : NativeInputs α) (args : List Thunk) (k : Option α → Task) : Task :=
  fromThunksLoop inputs k [] args

theorem fromThunksLoop_induction {P : Task → Prop} {inputs : NativeInputs α} {k : Option α → Task}
    {args : List Thunk} (hunwrap : P (.panic .unwrap)) (hk : ∀ o, P (k o))
    (hawait : ∀ d ∈ args, ∀ f : Value → Task, (∀ v, P (f v)) → P (.await d f))
    (read : List (Thunk × Option Value)) : P (fromThunksLoop inputs k read args) := by
  induction args generalizing read with
  | nil =>
    rw [fromThunksLoop]
    split
    · exact hunwrap
    · exact hk _
  | cons x args ih =>
    obtain ⟨hx, hargs⟩ := List.forall_mem_cons.mp hawait
    rw [fromThunksLoop]
    split
    · exact hk none
    · exact hx _ fun v => ih hargs _
    · exact ih hargs _

/-- The trait `Func`. -/
structure Func where
  name : String
  callImp : List Thunk → (Thunk → Task) → Task

/-- `native_fn!`, for a function that returns a value. -/
def nativeFn (name : String) (inputs : NativeInputs α) (f : α → (Value → Task) → Task) : Func where
  name := name
  callImp args k := fromThunksImpl inputs args fun
    | none => .panic (.argumentMismatch name)
    | some argvs => f argvs fun out => FlowCtx.constant out k

/-- The thunk of a `NativeComp`, whose closure reads the operands once all of them are there. -/
def nativeCompArgs (inputs : NativeInputs α) (f : α → Option Value) (args : List Thunk) :
    ThunkArgs :=
  DataFlow.thunk args fun values => do
    let argvs ← inputs.fromThunks (args.zip (values.map some))
    f argvs

/-- `native_comp!`. -/
def nativeComp (name : String) (inputs : NativeInputs α) (f : α → Option Value) : Func where
  name := name
  callImp args k := .thunk (nativeCompArgs inputs f args) k

theorem compute_nativeComp {inputs : NativeInputs α} {f : α → Option Value} {xs : List Thunk}
    {vs : List Value} {a : α} (ha : inputs.fromThunks (xs.zip (vs.map some)) = some a)
    (memory : Memory) :
    (nativeCompArgs inputs f xs).compute memory vs = (f a).map fun v => (v, memory) := by
  simp only [nativeCompArgs, DataFlow.thunk, ha, Option.bind_eq_bind, Option.bind_some]

end Func

end AtomicSim
