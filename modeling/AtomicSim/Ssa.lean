import AtomicSim.Compile.Function

namespace AtomicSim

/-- An environment gives the values of the names that are assigned so far. -/
abbrev Env := Name → Option Value

namespace Instruction

/-- A phi node stands for no operation, and reads its operands elsewhere. -/
def operands : Instruction → List Operand
  | phi _ => []
  | binop _ operand₀ operand₁ _ => [operand₀, operand₁]
  | fNeg operand _ => [operand]
  | cast _ operand _ _ => [operand]
  | iCmp _ operand₀ operand₁ _ => [operand₀, operand₁]
  | fCmp _ operand₀ operand₁ _ => [operand₀, operand₁]
  | getElementPtr address indices _ => address :: indices
  | extractElement vector index _ => [vector, index]
  | insertElement vector element index _ => [vector, element, index]
  | shuffleVector operand₀ operand₁ _ _ => [operand₀, operand₁]
  | extractValue aggregate _ _ => [aggregate]
  | insertValue aggregate element _ _ => [aggregate, element]
  | select condition trueValue falseValue _ => [condition, trueValue, falseValue]

def dest : Instruction → Name
  | phi p => p.dest
  | binop _ _ _ dest => dest
  | fNeg _ dest => dest
  | cast _ _ _ dest => dest
  | iCmp _ _ _ dest => dest
  | fCmp _ _ _ dest => dest
  | getElementPtr _ _ dest => dest
  | extractElement _ _ dest => dest
  | insertElement _ _ _ dest => dest
  | shuffleVector _ _ _ dest => dest
  | extractValue _ _ dest => dest
  | insertValue _ _ _ dest => dest
  | select _ _ _ dest => dest

def asPhi : Instruction → Option Phi
  | phi p => some p
  | _ => none

end Instruction

namespace Ssa

variable (x : ExprCompiler)

/-- The class of an operand, and its value where that is known without running. -/
def known : Operand → Option (Class × Option Value)
  | .localOperand _ ty => do
    let cls ← x.tm.get ty
    some (cls, none)
  | .constantOperand constant => do
    let e ← x.compileConst constant
    some (e.cls, e.asConst.map Prod.snd)
  | .metadataOperand => do
    let cls ← x.tm.void
    some (cls, some .ofUnit)

/-- The operation that an instruction stands for, on the classes of its operands. -/
def operation (instr : Instruction) : Option COperation := do
  let args ← instr.operands.mapM (known x)
  let classes := args.map Prod.fst
  match instr with
  | .phi _ => none
  | .binop name _ _ _ => do
    let cls ← OperCompiler.allEqual classes
    some ⟨.binop (ExprCompiler.compileBinop name), [cls, cls], cls⟩
  | .fNeg _ _ => OperCompiler.compileOperation x.tm (.binop .fNeg) classes
  | .cast name _ toType _ => do
    let target ← x.tm.get toType
    OperCompiler.compileOperation x.tm (FuncCompiler.compileCast target name) classes
  | .iCmp predicate _ _ _ => OperCompiler.compileOperation x.tm (.iCmp predicate) classes
  | .fCmp predicate _ _ _ => OperCompiler.compileOperation x.tm (.fCmp predicate) classes
  | .getElementPtr _ _ _ => do
    let address ← args[0]?
    OperCompiler.compileGetElementPtr x.tm address.1 (args.drop 1)
  | .extractElement _ _ _ => OperCompiler.compileOperation x.tm .extractElement classes
  | .insertElement _ _ _ _ => OperCompiler.compileOperation x.tm .insertElement classes
  | .shuffleVector _ _ mask _ => do
    let indices ← FuncCompiler.maskIndices x mask
    OperCompiler.compileOperation x.tm (.shuffle indices) classes
  | .extractValue _ indices _ =>
    OperCompiler.compileOperation x.tm (.extractValue (indices.map fun i => (i.toNat : ℤ))) classes
  | .insertValue _ _ indices _ =>
    OperCompiler.compileOperation x.tm (.insertValue (indices.map fun i => (i.toNat : ℤ))) classes
  | .select _ _ _ _ => OperCompiler.compileOperation x.tm .select classes

def assignAll (env : Env) (values : List (Name × Value)) : Env :=
  values.foldl (fun env e => Function.update env e.1 (some e.2)) env

inductive Result where
  | jump (target : Name)
  | ret (value : Value)

end Ssa
end AtomicSim
