import AtomicSim.Compile.Class
import AtomicSim.Compile.Operation
import AtomicSim.ValueBits

namespace AtomicSim

open LittleEndian (bit)

namespace Value

/-- `Value::from` on a signed integer of the given width. -/
def ofInt (bits : ℕ) (z : ℤ) : Value := new bits (z % 2 ^ bits).toNat

/-- `unwrap_i8` to `unwrap_i128`. -/
def unwrapSigned (v : Value) (expectedBits : ℕ) : Option ℤ :=
  (v.unwrapInt expectedBits).map fun n => Int.bmod n (2 ^ expectedBits)

/-- The other widths are `todo!`. -/
def asI128 (v : Value) : Option ℤ :=
  if v.bits ∈ [8, 16, 32, 64, 128] then v.unwrapSigned v.bits else none

def asI64 (v : Value) : Option ℤ := v.asI128.map fun z => Int.bmod z (2 ^ 64)

def ucast (v : Value) (layout : Layout) : Value :=
  ofBits layout.bits fun i => decide (i < min v.bits layout.bits) && bit v.imp i

variable (tm : TypeMap)

def extract (v : Value) (c : Class) (index : ℤ) : Option Value := do
  let element ← c.element tm index
  v.extractBits element.bitOffset element.cls.layout.bits

/-- Panics when the value is not as wide as the element. -/
def insert (v : Value) (c : Class) (index : ℤ) (value : Value) : Option Value := do
  let element ← c.element tm index
  if element.cls.layout.bits = value.bits then v.insertBits element.bitOffset value else none

/-- `Value::aggregate`; the widths of the values are not compared with the elements'. -/
def aggregateOf (c : Class) (vs : List Value) : Option Value :=
  vs.zipIdx.foldlM (fun result e => do
    let element ← c.element tm e.2
    result.insertBits element.bitOffset e.1) (zero c.layout.bits)

end Value

/-- A difference below zero panics, and so does a sum from `2 ^ 64` on. -/
def addU64I64 (x : ℕ) (y : ℤ) : Option ℕ :=
  if y < 0 then if (-y).toNat ≤ x then some (x - (-y).toNat) else none
  else addU64 x y.toNat

inductive CIntPredicate where
  | eq
  | ne
  | ugt
  | uge
  | ult
  | ule
  | sgt
  | sge
  | slt
  | sle
  deriving DecidableEq, Repr

inductive CFPPredicate where
  | false
  | oeq
  | ogt
  | oge
  | olt
  | ole
  | one
  | ord
  | uno
  | ueq
  | ugt
  | uge
  | ult
  | ule
  | une
  | true
  deriving DecidableEq, Repr

/-- The names whose operands and result have one class. -/
inductive CBinopName where
  | xchg
  | add
  | sub
  | mul
  | uDiv
  | sDiv
  | uRem
  | sRem
  | and
  | or
  | xor
  | shl
  | lShr
  | aShr
  | fAdd
  | fSub
  | fMul
  | fDiv
  | fRem
  | fNeg
  deriving DecidableEq, Repr

/-- The names with a target class that act on each lane of a vector. -/
inductive CCastName where
  | zExt
  | sExt
  | trunc
  | fpTrunc
  | fpExt
  | fpToUI
  | fpToSI
  | uiToFP
  | siToFP
  deriving DecidableEq, Repr

namespace COperation

/-- `COperationName`, with the names that are compiled and called alike under one
constructor. -/
inductive Name where
  | binop (name : CBinopName)
  | iCmp (predicate : CIntPredicate)
  | fCmp (predicate : CFPPredicate)
  | cast (name : CCastName) (target : Class)
  | bitCast (target : Class)
  | getElementPtr
  | extractElement
  | extractValue (indices : List ℤ)
  | insertElement
  | insertValue (indices : List ℤ)
  | shuffle (indices : List ℤ)
  | select
  | aggregate (output : Class)

end COperation

structure COperation where
  name : COperation.Name
  input : List Class
  output : Class

namespace COperation

/-- The operands have one of the supported widths, and the same; the rest is `todo!`. -/
def callScalarBinopUnsigned (v₁ v₂ : Value) (f₁ : Bool → Bool → Option Value)
    (f : ℕ → ℕ → ℕ → Option Value) : Option Value :=
  if v₁.bits = 1 ∧ v₂.bits = 1 then do
    let x ← v₁.unwrapBool
    let y ← v₂.unwrapBool
    f₁ x y
  else if v₁.bits ∈ [8, 16, 32, 64, 128] ∧ v₂.bits = v₁.bits then do
    let x ← v₁.unwrapInt v₁.bits
    let y ← v₂.unwrapInt v₁.bits
    f v₁.bits x y
  else none

def callScalarBinopSigned (v₁ v₂ : Value) (f : ℕ → ℤ → ℤ → Option Value) : Option Value :=
  if v₁.bits ∈ [8, 16, 32, 64, 128] ∧ v₂.bits = v₁.bits then do
    let x ← v₁.unwrapSigned v₁.bits
    let y ← v₂.unwrapSigned v₁.bits
    f v₁.bits x y
  else none

/-- `|_, _| todo!()`. -/
def todoBool (_ _ : Bool) : Option Value := none

/-- The widths may differ; `width - shift` panics below zero. -/
def callScalarLShr (v₁ v₂ : Value) : Option Value :=
  let width := v₁.bits
  let shift := v₂.asU64
  if shift ≤ width then
    some (Value.ofBits width fun i => decide (i < width - shift) && bit v₁.imp (shift + i))
  else none

/-- Division by zero panics, `wrapping_div` and all; so does a shift by the width or more. -/
def callScalarBinop (name : CBinopName) (v₁ v₂ : Value) : Option Value :=
  match name with
  | .xchg => some v₂
  | .add => callScalarBinopUnsigned v₁ v₂ todoBool fun w x y => some (.new w ((x + y) % 2 ^ w))
  | .sub =>
    callScalarBinopUnsigned v₁ v₂ todoBool fun w x y => some (.new w ((x + (2 ^ w - y)) % 2 ^ w))
  | .mul => callScalarBinopUnsigned v₁ v₂ todoBool fun w x y => some (.new w (x * y % 2 ^ w))
  | .uDiv =>
    callScalarBinopUnsigned v₁ v₂ todoBool fun w x y =>
      if y = 0 then none else some (.new w (x / y))
  | .sDiv =>
    callScalarBinopSigned v₁ v₂ fun w x y => if y = 0 then none else some (.ofInt w (x.tdiv y))
  | .uRem =>
    callScalarBinopUnsigned v₁ v₂ todoBool fun w x y =>
      if y = 0 then none else some (.new w (x % y))
  | .sRem =>
    callScalarBinopSigned v₁ v₂ fun w x y => if y = 0 then none else some (.ofInt w (x.tmod y))
  | .xor =>
    callScalarBinopUnsigned v₁ v₂ (fun x y => some (.ofBool (x ^^ y))) fun w x y =>
      some (.new w (x ^^^ y))
  | .and =>
    callScalarBinopUnsigned v₁ v₂ (fun x y => some (.ofBool (x && y))) fun w x y =>
      some (.new w (x &&& y))
  | .or =>
    callScalarBinopUnsigned v₁ v₂ (fun x y => some (.ofBool (x || y))) fun w x y =>
      some (.new w (x ||| y))
  | .shl =>
    callScalarBinopUnsigned v₁ v₂ todoBool fun w x y =>
      if y < w then some (.new w (x * 2 ^ y % 2 ^ w)) else none
  | .lShr => callScalarLShr v₁ v₂
  | .aShr =>
    callScalarBinopSigned v₁ v₂ fun w x y =>
      if 0 ≤ y ∧ y < w then some (.ofInt w (x / 2 ^ y.toNat)) else none
  | .fAdd | .fSub | .fMul | .fDiv | .fRem | .fNeg => none

def callScalarICmp (predicate : CIntPredicate) (v₁ v₂ : Value) : Option Value :=
  match predicate with
  | .eq => callScalarBinopUnsigned v₁ v₂ todoBool fun _ x y => some (.ofBool (x == y))
  | .ne => callScalarBinopUnsigned v₁ v₂ todoBool fun _ x y => some (.ofBool (x != y))
  | .ugt => callScalarBinopUnsigned v₁ v₂ todoBool fun _ x y => some (.ofBool (decide (y < x)))
  | .uge => callScalarBinopUnsigned v₁ v₂ todoBool fun _ x y => some (.ofBool (decide (y ≤ x)))
  | .ult => callScalarBinopUnsigned v₁ v₂ todoBool fun _ x y => some (.ofBool (decide (x < y)))
  | .ule => callScalarBinopUnsigned v₁ v₂ todoBool fun _ x y => some (.ofBool (decide (x ≤ y)))
  | .sgt => callScalarBinopSigned v₁ v₂ fun _ x y => some (.ofBool (decide (y < x)))
  | .sge => callScalarBinopSigned v₁ v₂ fun _ x y => some (.ofBool (decide (y ≤ x)))
  | .slt => callScalarBinopSigned v₁ v₂ fun _ x y => some (.ofBool (decide (x < y)))
  | .sle => callScalarBinopSigned v₁ v₂ fun _ x y => some (.ofBool (decide (x ≤ y)))

/-- The pairs of widths that are listed; every other one is `todo!`. -/
def callScalarSext (v₁ : Value) (bits : ℕ) : Option Value :=
  if v₁.bits = bits then some v₁
  else if (v₁.bits, bits) ∈ [(8, 16), (8, 32), (8, 64), (16, 32), (16, 64), (32, 64)] then
    (v₁.unwrapSigned v₁.bits).map fun x => .ofInt bits x
  else none

/-- `call_scalar`; an operand that is not there panics. -/
def callScalar (name : Name) (inputs : List Value) : Option Value :=
  match name with
  | .binop name => do
    let v₁ ← inputs[0]?
    let v₂ ← inputs[1]?
    callScalarBinop name v₁ v₂
  | .iCmp predicate => do
    let v₁ ← inputs[0]?
    let v₂ ← inputs[1]?
    callScalarICmp predicate v₁ v₂
  | .cast .sExt output => do
    let v₁ ← inputs[0]?
    callScalarSext v₁ output.layout.bits
  | .cast .zExt output | .cast .trunc output => do
    let v₁ ← inputs[0]?
    some (v₁.ucast output.layout)
  | .cast _ _ => none
  | _ => none

variable (tm : TypeMap)

def lanes (op : COperation) (inputs : List Value) (i : ℤ) : Option (List Value) :=
  (op.input.zip inputs).mapM fun e => e.2.extract tm e.1 i

/-- One turn of the loop over the lanes of a vector. -/
def callLane (op : COperation) (inputs : List Value) (vector : Value) (i : ℕ) :
    Option Value := do
  let inputs ← op.lanes tm inputs i
  let scalar ← callScalar op.name inputs
  vector.insert tm op.output i scalar

/-- The names that act on scalars and on the lanes of vectors; `len as i64` may be
negative. -/
def callSimple (op : COperation) (inputs : List Value) : Option Value :=
  match op.output.kind with
  | .integer _ => callScalar op.name inputs
  | .pointer _ => callScalar op.name inputs
  | .fp _ => callScalar op.name inputs
  | .vector _ len =>
    (List.range (asI64 len).toNat).foldlM (op.callLane tm inputs)
      (Value.zero op.output.layout.bits)
  | _ => none

/-- The lane of the result that a mask entry picks. -/
def shuffleLane (op : COperation) (len : ℕ) (inputs : List Value) (result : Value)
    (e : ℤ × ℕ) : Option Value := do
  let v₁ ← inputs[0]?
  let c ← op.input[0]?
  let lane ← if e.1 < asI64 len then v₁.extract tm c e.1
    else v₁.extract tm c (e.1 - asI64 len)
  result.insert tm op.output e.2 lane

def callOperation (op : COperation) (inputs : List Value) : Option Value :=
  match op.name with
  | .binop _ | .iCmp _ | .fCmp _ | .cast _ _ => op.callSimple tm inputs
  | .bitCast x => do
    let v ← inputs[0]?
    some (v.ucast x.layout)
  | .getElementPtr => do
    let c ← op.input[0]?
    let indices ← (inputs.drop 1).mapM Value.asI64
    let element ← c.elementRec tm indices
    let v ← inputs[0]?
    if element.bitOffset % 8 = 0 then do
      let ptr ← addU64I64 v.asU64 (element.bitOffset / 8)
      some (.new op.output.layout.bits ptr)
    else none
  | .extractElement => do
    let c ← op.input[0]?
    let v ← inputs[0]?
    let index ← (inputs[1]?).bind Value.asI64
    v.extract tm c index
  | .extractValue indices => do
    let c ← op.input[0]?
    let v ← inputs[0]?
    let element ← c.elementRec tm indices
    v.extractBits element.bitOffset element.cls.layout.bits
  | .insertElement => do
    let c ← op.input[0]?
    let v ← inputs[0]?
    let x ← inputs[1]?
    let index ← (inputs[2]?).bind Value.asI64
    let element ← c.element tm index
    v.insertBits element.bitOffset x
  | .insertValue indices => do
    let c ← op.input[0]?
    let v ← inputs[0]?
    let x ← inputs[1]?
    let element ← c.elementRec tm indices
    v.insertBits element.bitOffset x
  | .shuffle indices => do
    let v₁ ← (op.input[0]?).bind Class.asVector
    let _ ← (op.input[1]?).bind Class.asVector
    indices.zipIdx.foldlM (op.shuffleLane tm v₁.2 inputs) (Value.zero op.output.layout.bits)
  | .select => do
    let condition ← (inputs[0]?).bind Value.unwrapBool
    if condition then inputs[1]? else inputs[2]?
  | .aggregate output => Value.aggregateOf tm output inputs

end COperation

namespace OperCompiler

open COperation

variable (tm : TypeMap)

/-- `assert!(operands.iter().all_equal())`, then the first one. -/
def allEqual (operands : List Class) : Option Class :=
  match operands with
  | [] => none
  | c :: cs => if cs.all fun d => d.typ == c.typ then some c else none

/-- The target of a vector is a vector of targets. -/
def targetOf (c target : Class) : Option Class :=
  match c.kind with
  | .vector _ len => tm.vector target len
  | _ => some target

def output (name : COperation.Name) (operands : List Class) : Option Class :=
  match name with
  | .binop _ => allEqual operands
  | .cast _ target => do
    let c ← operands[0]?
    targetOf tm c target
  | .iCmp _ | .fCmp _ => do
    let c ← operands[0]?
    let bool ← tm.bool
    targetOf tm c bool
  | .bitCast target => some target
  | .getElementPtr => none
  | .extractElement => do
    let c ← operands[0]?
    c.target tm
  | .extractValue indices => do
    let c ← operands[0]?
    let element ← c.elementRec tm indices
    some element.cls
  | .insertElement => operands[0]?
  | .insertValue _ => operands[0]?
  | .shuffle indices => do
    let l ← (operands[0]?).bind Class.asVector
    tm.vector l.1 indices.length
  | .select => do
    let c ← operands[1]?
    let d ← operands[2]?
    if c.typ = d.typ then some c else none
  | .aggregate output => some output

def compileOperation (name : COperation.Name) (operands : List Class) : Option COperation := do
  let output ← output tm name operands
  some ⟨name, operands, output⟩

/-- The `GetElementPtr` case of `compile_instr`, on the classes of the indices and the values
of those that are constants. -/
def compileGetElementPtr (address : Class) (indices : List (Class × Option Value)) :
    Option COperation := do
  let output ← indices.foldlM (fun (output : Class) (index : Class × Option Value) => do
    let i ← match index.2 with
      | some v => v.asI64
      | none => some (-1)
    let element ← output.element tm i
    some element.cls) address
  let output ← tm.ptr output
  some ⟨.getElementPtr, address :: indices.map Prod.fst, output⟩

/-- The casts of `compile_instr` and `compile_cast`. -/
def compileCast (name : CCastName) (toType : TypeRef) (operand : Class) :
    Option COperation := do
  let target ← tm.get toType
  compileOperation tm (.cast name target) [operand]

end OperCompiler
end AtomicSim
