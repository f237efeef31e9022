import AtomicSim.Compile.Expr

namespace AtomicSim

inductive Operand where
  | localOperand (name : Name) (ty : TypeRef)
  | constantOperand (constant : Constant)
  | metadataOperand

inductive Cast where
  | trunc
  | zExt
  | sExt
  | fpTrunc
  | fpExt
  | fpToUI
  | fpToSI
  | uiToFP
  | siToFP
  | ptrToInt
  | intToPtr
  | addrSpaceCast
  | bitCast
  deriving DecidableEq, Repr

structure Phi where
  incomingValues : List (Operand × Name)
  dest : Name

/-- The instructions that compute a value from those of their operands, and the phi nodes. -/
inductive Instruction where
  | phi (phi : Phi)
  | binop (name : Binop) (operand₀ operand₁ : Operand) (dest : Name)
  | fNeg (operand : Operand) (dest : Name)
  | cast (name : Cast) (operand : Operand) (toType : TypeRef) (dest : Name)
  | iCmp (predicate : CIntPredicate) (operand₀ operand₁ : Operand) (dest : Name)
  | fCmp (predicate : CFPPredicate) (operand₀ operand₁ : Operand) (dest : Name)
  | getElementPtr (address : Operand) (indices : List Operand) (dest : Name)
  | extractElement (vector index : Operand) (dest : Name)
  | insertElement (vector element index : Operand) (dest : Name)
  | shuffleVector (operand₀ operand₁ : Operand) (mask : Constant) (dest : Name)
  | extractValue (aggregate : Operand) (indices : List UInt32) (dest : Name)
  | insertValue (aggregate element : Operand) (indices : List UInt32) (dest : Name)
  | select (condition trueValue falseValue : Operand) (dest : Name)

inductive Terminator where
  | ret (returnOperand : Option Operand)
  | br (dest : Name)
  | condBr (condition : Operand) (trueDest falseDest : Name)
  | switch (operand : Operand) (dests : List (Constant × Name)) (defaultDest : Name)
  | unreachable

abbrev CLocal := ℕ

abbrev CBlockId := ℕ

inductive COperand where
  | constant (cls : Class) (thunk : Thunk)
  | expr (e : CExpr)
  | local (cls : Class) (var : CLocal)

def COperand.cls : COperand → Class
  | .constant cls _ => cls
  | .local cls _ => cls
  | .expr e => e.cls

structure CCompute where
  dest : CLocal
  operands : List COperand
  operation : COperation

structure CPhi where
  dest : CLocal
  mapping : List (CBlockId × COperand)

inductive CTerm where
  | ret (returnOperand : COperand)
  | br (target : CBlockId)
  | condBr (condition : COperand) (trueTarget falseTarget : CBlockId)
  | switch (condition : COperand) (targets : List (Value × CBlockId)) (defaultTarget : CBlockId)
  | unreachable

/-- What a `FuncCompiler` changes while it compiles; the hash maps have their last insertion
first. -/
structure FuncCompiler where
  locals : List (Name × CLocal)
  localNames : List Name
  blockIds : List (Name × CBlockId)

namespace FuncCompiler

def new : FuncCompiler := ⟨[], [], []⟩

/-- A name gets the next number when it is first met. -/
def compileLocal (name : Name) : StateT FuncCompiler Option CLocal := fun s =>
  match s.locals.lookup name with
  | some l => some (l, s)
  | none =>
    let l := s.localNames.length
    some (l, { s with locals := (name, l) :: s.locals, localNames := s.localNames ++ [name] })

def compileTarget (name : Name) : StateT FuncCompiler Option CBlockId := fun s =>
  (s.blockIds.lookup name).map fun b => (b, s)

def compileCast (target : Class) : Cast → COperation.Name
  | .trunc => .cast .trunc target
  | .zExt => .cast .zExt target
  | .sExt => .cast .sExt target
  | .fpTrunc => .cast .fpTrunc target
  | .fpExt => .cast .fpExt target
  | .fpToUI => .cast .fpToUI target
  | .fpToSI => .cast .fpToSI target
  | .uiToFP => .cast .uiToFP target
  | .siToFP => .cast .siToFP target
  | .ptrToInt => .cast .zExt target
  | .intToPtr => .cast .zExt target
  | .addrSpaceCast => .cast .zExt target
  | .bitCast => .bitCast target

variable (x : ExprCompiler)

def compileOperand : Operand → StateT FuncCompiler Option COperand
  | .localOperand name ty => do
    let cls ← x.tm.get ty
    let var ← compileLocal name
    pure (.local cls var)
  | .constantOperand constant => do
    match ← x.compileConst constant with
    | .const cls value => pure (.constant cls (.constant value))
    | e => pure (.expr e)
  | .metadataOperand => do
    let cls ← x.tm.void
    pure (.constant cls (.constant .ofUnit))

def compilePhi (phi : Phi) : StateT FuncCompiler Option CPhi := do
  let dest ← compileLocal phi.dest
  let mapping ← phi.incomingValues.mapM fun (oper, origin) => do
    let b ← compileTarget origin
    let oper ← compileOperand x oper
    pure (b, oper)
  -- the last insertion of a key is the one that is found
  pure ⟨dest, mapping.reverse⟩

def compileCompute (dest : Name) (operands : List Operand) (name : COperation.Name) :
    StateT FuncCompiler Option CCompute := do
  let operands ← operands.mapM (compileOperand x)
  let operation ← OperCompiler.compileOperation x.tm name (operands.map COperand.cls)
  let dest ← compileLocal dest
  pure ⟨dest, operands, operation⟩

def compileIndex (output : Class) (index : COperand) : Option Class := do
  let i ← match index with
    | .constant _ (.constant value) => value.asI64
    | .local _ _ => some (-1)
    | _ => none
  let element ← output.element x.tm i
  some element.cls

/-- The lanes of the mask of a `shufflevector`; `len as i64` may be negative. -/
def maskIndices (mask : Constant) : Option (List ℤ) := do
  let (maskClass, mask) ← (← x.compileConst mask).asConst
  let maskVector ← maskClass.asVector
  (List.range (asI64 maskVector.2).toNat).mapM fun i => do
    let lane ← mask.extract x.tm maskClass i
    some (asI64 lane.asU64)

/-- `none` for a phi node, which is `unreachable!`. -/
def compileInstr : Instruction → StateT FuncCompiler Option CCompute
  | .binop name operand₀ operand₁ dest => do
    let operand₀ ← compileOperand x operand₀
    let operand₁ ← compileOperand x operand₁
    if operand₀.cls.typ = operand₁.cls.typ then
      let dest ← compileLocal dest
      pure ⟨dest, [operand₀, operand₁], ⟨.binop (ExprCompiler.compileBinop name),
        [operand₀.cls, operand₀.cls], operand₀.cls⟩⟩
    else failure
  | .fNeg operand dest => compileCompute x dest [operand] (.binop .fNeg)
  | .cast name operand toType dest => do
    let target ← x.tm.get toType
    compileCompute x dest [operand] (compileCast target name)
  | .iCmp predicate operand₀ operand₁ dest =>
    compileCompute x dest [operand₀, operand₁] (.iCmp predicate)
  | .fCmp predicate operand₀ operand₁ dest =>
    compileCompute x dest [operand₀, operand₁] (.fCmp predicate)
  | .getElementPtr address indices dest => do
    let address ← compileOperand x address
    let indices ← indices.mapM (compileOperand x)
    let output ← (indices.foldlM (compileIndex x) address.cls : Option Class)
    let dest ← compileLocal dest
    let output ← x.tm.ptr output
    let operands := address :: indices
    pure ⟨dest, operands, ⟨.getElementPtr, operands.map COperand.cls, output⟩⟩
  | .extractElement vector index dest => compileCompute x dest [vector, index] .extractElement
  | .insertElement vector element index dest =>
    compileCompute x dest [vector, element, index] .insertElement
  | .shuffleVector operand₀ operand₁ mask dest => do
    let indices ← maskIndices x mask
    compileCompute x dest [operand₀, operand₁] (.shuffle indices)
  | .extractValue aggregate indices dest =>
    compileCompute x dest [aggregate] (.extractValue (indices.map fun i => (i.toNat : ℤ)))
  | .insertValue aggregate element indices dest =>
    compileCompute x dest [aggregate, element] (.insertValue (indices.map fun i => (i.toNat : ℤ)))
  | .select condition trueValue falseValue dest =>
    compileCompute x dest [condition, trueValue, falseValue] .select
  | .phi _ => failure

def compileTerm : Terminator → StateT FuncCompiler Option CTerm
  | .ret (some operand) => do
    let operand ← compileOperand x operand
    pure (.ret operand)
  | .ret none => do
    let cls ← x.tm.void
    pure (.ret (.constant cls (.constant .ofUnit)))
  | .br dest => do
    let target ← compileTarget dest
    pure (.br target)
  | .condBr condition trueDest falseDest => do
    let condition ← compileOperand x condition
    let trueTarget ← compileTarget trueDest
    let falseTarget ← compileTarget falseDest
    pure (.condBr condition trueTarget falseTarget)
  | .switch operand dests defaultDest => do
    let condition ← compileOperand x operand
    let targets ← dests.mapM fun (pat, target) => do
      let (_, value) ← (← x.compileConst pat).asConst
      let b ← compileTarget target
      pure (value, b)
    let defaultTarget ← compileTarget defaultDest
    pure (.switch condition targets.reverse defaultTarget)
  | .unreachable => pure .unreachable

end FuncCompiler
end AtomicSim
