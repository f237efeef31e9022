import AtomicSim.Compile.Oper
import AtomicSim.Symbols

namespace AtomicSim

/-- `llvm_ir::Name`. -/
inductive Name where
  | name (name : String)
  | number (number : ℕ)
  deriving DecidableEq, Repr

/-- The constant casts that are compiled; the others are `todo!`. -/
inductive ConstantCast where
  | bitCast
  | intToPtr
  | trunc
  | sExt
  | zExt
  | ptrToInt
  deriving DecidableEq, Repr

inductive Binop where
  | add
  | sub
  | mul
  | uDiv
  | sDiv
  | uRem
  | sRem
  | and
  | or
  | xor
  | shl
  | lShr
  | aShr
  | fAdd
  | fSub
  | fMul
  | fDiv
  | fRem
  deriving DecidableEq, Repr

/-- `llvm_ir::Constant`, with the constants that are `todo!` under one constructor. -/
inductive Constant where
  | int (bits : UInt32) (value : UInt64)
  | cast (name : ConstantCast) (operand : Constant) (toType : TypeRef)
  | globalReference (name : Name) (ty : TypeRef)
  | undef (typ : TypeRef)
  | null (typ : TypeRef)
  | aggregateZero (typ : TypeRef)
  | struc (name : Option String) (values : List Constant) (isPacked : Bool)
  | array (elementType : TypeRef) (elements : List Constant)
  | vector (elements : List Constant)
  | getElementPtr (address : Constant) (indices : List Constant)
  | select (condition trueValue falseValue : Constant)
  | single (bits : UInt32)
  | double (bits : UInt64)
  | binop (name : Binop) (operand₀ operand₁ : Constant)
  | iCmp (predicate : CIntPredicate) (operand₀ operand₁ : Constant)
  | fCmp (predicate : CFPPredicate) (operand₀ operand₁ : Constant)
  | unsupported

inductive CExpr where
  | const (cls : Class) (value : Value)
  | threadLocal (cls : Class) (key : ThreadLocalKey)
  | apply (oper : COperation) (args : List CExpr)

namespace CExpr

def cls : CExpr → Class
  | const cls _ => cls
  | threadLocal cls _ => cls
  | apply oper _ => oper.output

def asConst : CExpr → Option (Class × Value)
  | const cls value => some (cls, value)
  | _ => none

/-- An operation on constants is called at once. -/
def reduceRoot (tm : TypeMap) : CExpr → Option CExpr
  | apply oper args =>
    match args.mapM fun arg => arg.asConst.map Prod.snd with
    | some values => (oper.callOperation tm values).map (const oper.output)
    | none => some (apply oper args)
  | e => some e

section Evaluate

variable (tm : TypeMap) (threadLocalInit : ThreadLocalKey → Option (Layout × Value))
  (threadid : ThreadId)

mutual

/-- `FlowCtx::evaluate`. -/
def evaluate : CExpr → StateT Locals Option Value
  | const _ value => pure value
  | threadLocal _ key => do
    let ptr ← AtomicSim.threadLocal threadLocalInit threadid key
    pure (.new 64 ptr)
  | apply oper args => do
    let x ← evaluateList args
    oper.callOperation tm x

def evaluateList : List CExpr → StateT Locals Option (List Value)
  | [] => pure []
  | arg :: args => do
    let x ← evaluate arg
    let xs ← evaluateList args
    pure (x :: xs)

end

end Evaluate
end CExpr

/-- `named_struct(name).unwrap()`: the types it looks in stay blank, so it panics. -/
def TypeMap.namedStruct (_ : TypeMap) (_ : String) : Option Class := none

structure ExprCompiler where
  tm : TypeMap
  symbols : SymbolTable
  moduleid : ModuleId

namespace ExprCompiler

def compileCast (target : Class) : ConstantCast → COperation.Name
  | .trunc => .cast .trunc target
  | .zExt => .cast .zExt target
  | .sExt => .cast .sExt target
  | .ptrToInt => .cast .zExt target
  | .intToPtr => .cast .zExt target
  | .bitCast => .bitCast target

def compileBinop : Binop → CBinopName
  | .add => .add
  | .sub => .sub
  | .mul => .mul
  | .uDiv => .uDiv
  | .sDiv => .sDiv
  | .uRem => .uRem
  | .sRem => .sRem
  | .and => .and
  | .or => .or
  | .xor => .xor
  | .shl => .shl
  | .lShr => .lShr
  | .aShr => .aShr
  | .fAdd => .fAdd
  | .fSub => .fSub
  | .fMul => .fMul
  | .fDiv => .fDiv
  | .fRem => .fRem

variable (x : ExprCompiler)

def apply (oper : COperation.Name) (args : List CExpr) : Option CExpr := do
  let oper ← OperCompiler.compileOperation x.tm oper (args.map CExpr.cls)
  some (.apply oper args)

/-- A numbered name panics. -/
def lookup : Name → Option SymbolDef
  | .name name => x.symbols.lookup (some x.moduleid) name
  | .number _ => none

def zero (typ : TypeRef) : Option CExpr := do
  let cls ← x.tm.get typ
  some (.const cls (.zero cls.layout.bits))

/-- An index whose value is not known counts as `-1`. -/
def indexOf (v : Option Value) : Option ℤ :=
  match v with
  | some v => v.asI64
  | none => some (-1)

/-- The operation of a constant `getelementptr`, on the classes of the operands and the values
of those that are constant. -/
def compileGetElementPtr (args : List (Class × Option Value)) : Option COperation := do
  let address ← args[0]?
  let indices ← (args.drop 1).mapM fun arg => indexOf arg.2
  let element ← address.1.elementRec x.tm indices
  if element.bitOffset % 8 = 0 then do
    let output ← x.tm.ptr element.cls
    some ⟨.getElementPtr, args.map Prod.fst, output⟩
  else none

mutual

/-- `compile_const_impl`; `compile_const` also reduces the root of what it returns. -/
def compileConstImpl : Constant → Option CExpr
  | .int bits value => do
    let cls ← x.tm.int bits.toNat
    some (.const cls (.new bits.toNat value.toNat))
  | .cast name operand toType => do
    let toClass ← x.tm.get toType
    let inner ← compileConstImpl operand
    let inner ← inner.reduceRoot x.tm
    x.apply (compileCast toClass name) [inner]
  | .globalReference name ty => do
    let d ← x.lookup name
    let pointee ← x.tm.get ty
    let cls ← x.tm.ptr pointee
    match d with
    | .global g => some (.const cls (.new 64 g))
    | .threadLocal key => some (.threadLocal cls key)
  | .undef typ => x.zero typ
  | .null typ => x.zero typ
  | .aggregateZero typ => x.zero typ
  | .struc name values isPacked => do
    let children ← compileConsts values
    let cls ← match name with
      | some name => x.tm.namedStruct name
      | none => x.tm.struc (children.map CExpr.cls) isPacked
    x.apply (.aggregate cls) children
  | .array elementType elements => do
    let children ← compileConsts elements
    let element ← x.tm.get elementType
    let cls ← x.tm.array element elements.length
    x.apply (.aggregate cls) children
  | .vector elements => do
    let children ← compileConsts elements
    let child ← children[0]?
    let cls ← x.tm.vector child.cls elements.length
    x.apply (.aggregate cls) children
  | .getElementPtr address indices => do
    let address ← compileConstImpl address
    let address ← address.reduceRoot x.tm
    let indices ← compileConsts indices
    let args := address :: indices
    let oper ← x.compileGetElementPtr (args.map fun c => (c.cls, c.asConst.map Prod.snd))
    some (.apply oper args)
  | .select condition trueValue falseValue => do
    let condition ← compileConstImpl condition
    let condition ← condition.reduceRoot x.tm
    let trueValue ← compileConstImpl trueValue
    let trueValue ← trueValue.reduceRoot x.tm
    let falseValue ← compileConstImpl falseValue
    let falseValue ← falseValue.reduceRoot x.tm
    x.apply .select [condition, trueValue, falseValue]
  | .single bits => do
    let cls ← x.tm.float .single
    some (.const cls (.new 32 bits.toNat))
  | .double bits => do
    let cls ← x.tm.float .double
    some (.const cls (.new 64 bits.toNat))
  | .binop name operand₀ operand₁ => do
    let operand₀ ← compileConstImpl operand₀
    let operand₀ ← operand₀.reduceRoot x.tm
    let operand₁ ← compileConstImpl operand₁
    let operand₁ ← operand₁.reduceRoot x.tm
    x.apply (.binop (compileBinop name)) [operand₀, operand₁]
  | .iCmp predicate operand₀ operand₁ => do
    let operand₀ ← compileConstImpl operand₀
    let operand₀ ← operand₀.reduceRoot x.tm
    let operand₁ ← compileConstImpl operand₁
    let operand₁ ← operand₁.reduceRoot x.tm
    x.apply (.iCmp predicate) [operand₀, operand₁]
  | .fCmp predicate operand₀ operand₁ => do
    let operand₀ ← compileConstImpl operand₀
    let operand₀ ← operand₀.reduceRoot x.tm
    let operand₁ ← compileConstImpl operand₁
    let operand₁ ← operand₁.reduceRoot x.tm
    x.apply (.fCmp predicate) [operand₀, operand₁]
  | .unsupported => none

def compileConsts : List Constant → Option (List CExpr)
  | [] => some []
  | c :: cs => do
    let e ← compileConstImpl c
    let e ← e.reduceRoot x.tm
    let es ← compileConsts cs
    some (e :: es)

end

def compileConst (c : Constant) : Option CExpr := do
  let result ← x.compileConstImpl c
  result.reduceRoot x.tm

end ExprCompiler

namespace Constant

def operands : Constant → List Constant
  | cast _ operand _ => [operand]
  | struc _ values _ => values
  | array _ elements => elements
  | vector elements => elements
  | getElementPtr address indices => address :: indices
  | select condition trueValue falseValue => [condition, trueValue, falseValue]
  | binop _ operand₀ operand₁ => [operand₀, operand₁]
  | iCmp _ operand₀ operand₁ => [operand₀, operand₁]
  | fCmp _ operand₀ operand₁ => [operand₀, operand₁]
  | _ => []

/-- The first constant stands inside the second one. -/
inductive Inside : Constant → Constant → Prop
  | refl (c : Constant) : Inside c c
  | operand {c d e : Constant} : d ∈ e.operands → Inside c d → Inside c e

end Constant

namespace ExprCompiler

variable (x : ExprCompiler)

/-- No reference inside the constant resolves to a thread-local symbol. -/
def ThreadLocalFree (c : Constant) : Prop :=
  ∀ name ty key, Constant.Inside (.globalReference name ty) c →
    x.lookup name ≠ some (.threadLocal key)

/-- No index of a `getelementptr` inside the constant depends on the thread. -/
def FixedIndices (c : Constant) : Prop :=
  ∀ address indices, Constant.Inside (.getElementPtr address indices) c →
    ∀ index ∈ indices, x.ThreadLocalFree index

/-- The operation at the root of a constant, on the classes of the operands and those of their
values that are known. -/
def operation (c : Constant) (args : List (Class × Option Value)) : Option COperation :=
  let classes := args.map Prod.fst
  match c with
  | .cast name _ toType => do
    let target ← x.tm.get toType
    OperCompiler.compileOperation x.tm (compileCast target name) classes
  | .struc name _ isPacked => do
    let cls ← match name with
      | some name => x.tm.namedStruct name
      | none => x.tm.struc classes isPacked
    OperCompiler.compileOperation x.tm (.aggregate cls) classes
  | .array elementType elements => do
    let element ← x.tm.get elementType
    let cls ← x.tm.array element elements.length
    OperCompiler.compileOperation x.tm (.aggregate cls) classes
  | .vector elements => do
    let element ← classes[0]?
    let cls ← x.tm.vector element elements.length
    OperCompiler.compileOperation x.tm (.aggregate cls) classes
  | .getElementPtr _ _ => x.compileGetElementPtr args
  | .select _ _ _ => OperCompiler.compileOperation x.tm .select classes
  | .binop name _ _ => OperCompiler.compileOperation x.tm (.binop (compileBinop name)) classes
  | .iCmp predicate _ _ => OperCompiler.compileOperation x.tm (.iCmp predicate) classes
  | .fCmp predicate _ _ => OperCompiler.compileOperation x.tm (.fCmp predicate) classes
  | _ => none

/-- The operation at the root, called on the values of all operands. -/
def call (c : Constant) (args : List (Class × Value)) : Option (Class × Value) := do
  let oper ← x.operation c (args.map fun arg => (arg.1, some arg.2))
  let value ← oper.callOperation x.tm (args.map Prod.snd)
  some (oper.output, value)

section Value

variable (threadLocalInit : ThreadLocalKey → Option (Layout × Value)) (threadid : ThreadId)

mutual

/-- The class and the value of a constant for a thread: the operands first, then the operation,
and nothing is folded. -/
def value (c : Constant) : StateT Locals Option (Class × Value) :=
  match c with
  | .cast name operand toType => do
    let arg ← value operand
    x.call (.cast name operand toType) [arg]
  | .struc name values isPacked => do
    let args ← valueList values
    x.call (.struc name values isPacked) args
  | .array elementType elements => do
    let args ← valueList elements
    x.call (.array elementType elements) args
  | .vector elements => do
    let args ← valueList elements
    x.call (.vector elements) args
  | .getElementPtr address indices => do
    let arg ← value address
    let args ← valueList indices
    x.call (.getElementPtr address indices) (arg :: args)
  | .select condition trueValue falseValue => do
    let arg₀ ← value condition
    let arg₁ ← value trueValue
    let arg₂ ← value falseValue
    x.call (.select condition trueValue falseValue) [arg₀, arg₁, arg₂]
  | .binop name operand₀ operand₁ => do
    let arg₀ ← value operand₀
    let arg₁ ← value operand₁
    x.call (.binop name operand₀ operand₁) [arg₀, arg₁]
  | .iCmp predicate operand₀ operand₁ => do
    let arg₀ ← value operand₀
    let arg₁ ← value operand₁
    x.call (.iCmp predicate operand₀ operand₁) [arg₀, arg₁]
  | .fCmp predicate operand₀ operand₁ => do
    let arg₀ ← value operand₀
    let arg₁ ← value operand₁
    x.call (.fCmp predicate operand₀ operand₁) [arg₀, arg₁]
  | .int bits n => do
    let cls ← x.tm.int bits.toNat
    pure (cls, .new bits.toNat n.toNat)
  | .single bits => do
    let cls ← x.tm.float .single
    pure (cls, .new 32 bits.toNat)
  | .double bits => do
    let cls ← x.tm.float .double
    pure (cls, .new 64 bits.toNat)
  | .undef typ | .null typ | .aggregateZero typ => do
    let cls ← x.tm.get typ
    pure (cls, .zero cls.layout.bits)
  | .globalReference name ty => do
    let d ← x.lookup name
    let pointee ← x.tm.get ty
    let cls ← x.tm.ptr pointee
    match d with
    | .global g => pure (cls, .new 64 g)
    | .threadLocal key => do
      let ptr ← threadLocal threadLocalInit threadid key
      pure (cls, .new 64 ptr)
  | .unsupported => failure

def valueList (cs : List Constant) : StateT Locals Option (List (Class × Value)) :=
  match cs with
  | [] => pure []
  | c :: cs => do
    let arg ← value c
    let args ← valueList cs
    pure (arg :: args)

end

end Value
end ExprCompiler
end AtomicSim
