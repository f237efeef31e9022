import AtomicSim.Value

namespace AtomicSim

/-- The operations that an `atomicrmw` instruction compiles to. -/
inductive COperationName where
  | xchg
  | add
  | sub
  | and
  | or
  | xor
  | fAdd
  | fSub
  deriving DecidableEq, Repr

/-- The operands have one of the supported widths, and the same; the rest is `todo!`. -/
def callScalarBinopUnsigned (v₁ v₂ : Value) (f₁ : Bool → Bool → Option Value)
    (f : ℕ → ℕ → ℕ → Value) : Option Value :=
  if v₁.bits = 1 ∧ v₂.bits = 1 then do
    let x ← v₁.unwrapBool
    let y ← v₂.unwrapBool
    f₁ x y
  else if v₁.bits ∈ [8, 16, 32, 64, 128] ∧ v₂.bits = v₁.bits then do
    let x ← v₁.unwrapInt v₁.bits
    let y ← v₂.unwrapInt v₁.bits
    some (f v₁.bits x y)
  else none

/-- `call_operation` on two scalars; the floating-point operations are `todo!`. -/
def COperationName.callScalarBinop (name : COperationName) (v₁ v₂ : Value) : Option Value :=
  match name with
  | xchg => some v₂
  | add =>
    callScalarBinopUnsigned v₁ v₂ (fun _ _ => none) fun w x y => Value.new w ((x + y) % 2 ^ w)
  | sub =>
    callScalarBinopUnsigned v₁ v₂ (fun _ _ => none) fun w x y =>
      Value.new w ((x + (2 ^ w - y)) % 2 ^ w)
  | xor =>
    callScalarBinopUnsigned v₁ v₂ (fun x y => some (Value.ofBool (x ^^ y))) fun w x y =>
      Value.new w (x ^^^ y)
  | and =>
    callScalarBinopUnsigned v₁ v₂ (fun x y => some (Value.ofBool (x && y))) fun w x y =>
      Value.new w (x &&& y)
  | or =>
    callScalarBinopUnsigned v₁ v₂ (fun x y => some (Value.ofBool (x || y))) fun w x y =>
      Value.new w (x ||| y)
  | fAdd | fSub => none

theorem bits_callScalarBinopUnsigned {x y z : Value} {f₁ : Bool → Bool → Option Value}
    {f : ℕ → ℕ → ℕ → Value} (hf₁ : ∀ b c v, f₁ b c = some v → v.bits = 1)
    (hf : ∀ w m n, (f w m n).bits = w) (hz : callScalarBinopUnsigned x y f₁ f = some z) :
    z.bits = y.bits := by
  unfold callScalarBinopUnsigned at hz
  split_ifs at hz with h₁ h₂
  · obtain ⟨b, -, hz⟩ := Option.bind_eq_some_iff.mp hz
    obtain ⟨c, -, hz⟩ := Option.bind_eq_some_iff.mp hz
    exact (hf₁ b c z hz).trans h₁.2.symm
  · obtain ⟨b, -, hz⟩ := Option.bind_eq_some_iff.mp hz
    obtain ⟨c, -, hz⟩ := Option.bind_eq_some_iff.mp hz
    cases hz
    exact (hf _ _ _).trans h₂.2.symm

theorem COperationName.bits_callScalarBinop {name : COperationName} {x y z : Value}
    (hz : name.callScalarBinop x y = some z) : z.bits = y.bits := by
  cases name with
  | xchg =>
    cases hz
    rfl
  | add | sub =>
    simp only [callScalarBinop] at hz
    refine bits_callScalarBinopUnsigned (fun b c v hv => ?_) (fun w m n => ?_) hz
    · cases hv
    · rfl
  | and | or | xor =>
    simp only [callScalarBinop] at hz
    refine bits_callScalarBinopUnsigned (fun b c v hv => ?_) (fun w m n => ?_) hz
    · cases hv
      rfl
    · rfl
  | fAdd | fSub => cases hz

end AtomicSim
