import AtomicSim.Ir.Interp
import AtomicSim.Ssa

namespace AtomicSim

namespace Locals

def memory (s : Locals) : Memory := s.process.memory

def setMemory (s : Locals) (memory : Memory) : Locals :=
  { s with process := { s.process with memory } }

@[simp] theorem memory_setMemory (s : Locals) (memory : Memory) :
    (s.setMemory memory).memory = memory := rfl

/-- An operation on the memory alone. -/
def onMemory (f : Memory → Option (Value × Memory)) (s : Locals) : Option (Value × Locals) :=
  (f s.memory).map fun (v, memory) => (v, s.setMemory memory)

end Locals

namespace Ir

/-- The instructions are executed one after the other, and each acts on the memory and on the
thread-local storage at once. -/
abbrev Execution := Effects Locals Value Stop

namespace Instruction

def asPhi : Instruction → Option Phi
  | compute (.phi p) => some p
  | _ => none

end Instruction

namespace BasicBlock

def phis (block : BasicBlock) : List Phi := block.instrs.filterMap Instruction.asPhi

def body (block : BasicBlock) : List Instruction := block.instrs.filter fun i => i.asPhi.isNone

end BasicBlock

/-- Neither memory accesses nor calls. -/
def Instruction.Pure : Instruction → Prop
  | .compute _ => True
  | _ => False

def Terminator.Pure : Terminator → Prop
  | .simple _ => True
  | _ => False

structure BasicBlock.Pure (block : BasicBlock) : Prop where
  instrs : ∀ instr ∈ block.instrs, instr.Pure
  term : block.term.Pure

def Function.Pure (func : Function) : Prop := ∀ block ∈ func.basicBlocks, block.Pure

/-- What stands under the address of a function: one of the source program, with the compiler of
its module, or a native one. -/
inductive Callee where
  | function (x : ExprCompiler) (func : Function)
  | comp (f : Memory → List Value → Option (Value × Memory))
  | native (arity : ℕ) (f : List Value → Flow Value)
  | bomb

namespace Ssa

open AtomicSim.Ssa (known operation assignAll Result)

def onMemory (f : Memory → Option (Value × Memory)) : Execution Value :=
  Program.op (Locals.onMemory f)

def load (address : ℕ) (layout : Layout) : Execution Value :=
  onMemory fun m => (m.loadImpl address layout).map fun v => (v, m)

def store (address : ℕ) (value : Value) : Execution Value :=
  onMemory fun m => (m.storeImpl address value).map fun m => (Value.ofUnit, m)

def alloc (layout : Layout) : Execution Value :=
  onMemory fun m => (m.alloc layout).map fun (ptr, m) => (Process.addr ptr, m)

/-- The old value and whether it was replaced, as a struct. -/
def cmpXchg (layout : Layout) (address : ℕ) (expected replacement : Value) : Execution Value :=
  onMemory fun m => do
    let current ← m.loadImpl address layout
    let m ← if current == expected then m.storeImpl address replacement else some m
    let (struct, offsets) ← FlowCtx.cmpxchgOutput layout
    let result ← Value.aggregate struct offsets [current, Value.ofBool (current == expected)]
    some (result, m)

def atomicRMW (layout : Layout) (address : ℕ) (f : Value → Option Value) : Execution Value :=
  onMemory fun m => do
    let current ← m.loadImpl address layout
    let new ← f current
    let m ← m.storeImpl address new
    some (current, m)

def flowOp : FlowOp → Execution Value
  | .alloc layout => alloc layout
  | .free _ => onMemory fun m => some (Value.ofUnit, m)
  | .load address layout => load (Process.addr address).asU64 layout
  | .store address value => store (Process.addr address).asU64 value
  | .cmpxchg address expected replacement _ _ =>
    cmpXchg i64 (Process.addr address).asU64 (.new 64 expected) (.new 64 replacement)

section Frame

variable (x : ExprCompiler)

def classOf (o : Operand) : Option Class := (known x o).map Prod.fst

variable (threadLocalInit : ThreadLocalKey → Option (Layout × Value)) (threadid : ThreadId)
variable (call : ℕ → List Value → Execution Value)

/-- The value of a constant, which is fixed unless it refers to a thread-local variable. -/
def constant (c : Constant) : Execution Value := do
  let e ← x.compileConst c
  let evaluate := Program.op fun s =>
    (x.value threadLocalInit threadid c s).map fun r => (r.1.2, r.2)
  e.asConst.elim evaluate fun const => pure const.2

def operand (env : Env) : Operand → Execution Value
  | .localOperand name _ => liftM (env name)
  | .constantOperand c => constant x threadLocalInit threadid c
  | .metadataOperand => pure .ofUnit

def instruction (env : Env) : Instruction → Execution Env
  | .compute instr => do
    let oper ← operation x instr
    let args ← instr.operands.mapM (operand x threadLocalInit threadid env)
    let value ← oper.callOperation x.tm args
    pure (Function.update env instr.dest (some value))
  | .alloca allocatedType numElements dest alignment => do
    let cls ← x.tm.get allocatedType
    let alignBits ← alignmentBits alignment
    let layout ← cls.layout.alignToBits alignBits
    let count ← operand x threadLocalInit threadid env numElements
    let layout ← layout.repeated .none count.asU64
    let ptr ← alloc layout
    pure (Function.update env dest (some ptr))
  | .load address dest _ => do
    let cls ← classOf x address
    let ptr ← operand x threadLocalInit threadid env address
    let target ← cls.target x.tm
    let value ← load ptr.asU64 target.layout
    pure (Function.update env dest (some value))
  | .store address value _ => do
    let ptr ← operand x threadLocalInit threadid env address
    let value ← operand x threadLocalInit threadid env value
    let _ ← store ptr.asU64 value
    pure env
  | .cmpXchg address expected replacement dest atomicity failureMemoryOrdering => do
    let cls ← classOf x expected
    let ptr ← operand x threadLocalInit threadid env address
    let expected ← operand x threadLocalInit threadid env expected
    let replacement ← operand x threadLocalInit threadid env replacement
    let _ ← Ordering.ofMemoryOrdering atomicity.memOrdering
    let _ ← Ordering.ofMemoryOrdering failureMemoryOrdering
    let result ← cmpXchg cls.layout ptr.asU64 expected replacement
    pure (Function.update env dest (some result))
  | .atomicRMW rmw address value dest _ => do
    let name ← compileRMW rmw
    let cls ← classOf x value
    let oper ← OperCompiler.compileOperation x.tm (.binop name) [cls, cls]
    let ptr ← operand x threadLocalInit threadid env address
    let value ← operand x threadLocalInit threadid env value
    let result ← atomicRMW cls.layout ptr.asU64 fun current =>
      oper.callOperation x.tm [current, value]
    pure (Function.update env dest (some result))
  | .call function arguments dest => do
    let function ← function
    let f ← operand x threadLocalInit threadid env function
    let args ← arguments.mapM (operand x threadLocalInit threadid env)
    let result ← call f.asU64 args
    pure (dest.elim env fun dest => Function.update env dest (some result))
  | .fence => pure env
  | .freeze | .unknown => .fail

/-- All phi nodes of a block read the environment that the predecessor left. -/
def phis (env : Env) (origin : Option Name) (phis : List Phi) : Execution Env := do
  let values ← phis.mapM fun phi => do
    let origin ← origin
    let incoming ← (phi.incomingValues.map Prod.swap).lookup origin
    let value ← operand x threadLocalInit threadid env incoming
    pure (phi.dest, value)
  pure (assignAll env values)

def simple (env : Env) : AtomicSim.Terminator → Execution Result
  | .ret (some returnOperand) => do
    let value ← operand x threadLocalInit threadid env returnOperand
    pure (.ret value)
  | .ret none => pure (.ret .ofUnit)
  | .br dest => pure (.jump dest)
  | .condBr condition trueDest falseDest => do
    let value ← operand x threadLocalInit threadid env condition
    let b ← value.unwrapBool
    pure (.jump (if b then trueDest else falseDest))
  | .switch condition dests defaultDest => do
    let value ← operand x threadLocalInit threadid env condition
    let cases ← dests.mapM fun (pat, target) => do
      let pat ← constant x threadLocalInit threadid pat
      pure (pat, target)
    pure (.jump ((cases.lookup value).getD defaultDest))
  | .unreachable => .fail

def terminator (env : Env) : Terminator → Execution (Env × Result)
  | .simple term => do
    let result ← simple x threadLocalInit threadid env term
    pure (env, result)
  | .invoke function arguments result returnLabel => do
    let function ← function
    let f ← operand x threadLocalInit threadid env function
    let args ← arguments.mapM (operand x threadLocalInit threadid env)
    let value ← call f.asU64 args
    pure (Function.update env result (some value), .jump returnLabel)
  | .resume | .unsupported => .fail

def block (env : Env) (origin : Option Name) (b : BasicBlock) : Execution (Env × Result) := do
  let env ← phis x threadLocalInit threadid env origin b.phis
  let env ← b.body.foldlM (instruction x threadLocalInit threadid call) env
  terminator x threadLocalInit threadid call env b.term

end Frame

section Call

variable (threadLocalInit : ThreadLocalKey → Option (Layout × Value)) (threadid : ThreadId)
variable (functions : ℕ → Option Callee)

/-- A function from a block on: the blocks that are visited, and the value that is returned, if one
is within the steps that there are. -/
abbrev Runner := ExprCompiler → Function → Env → Option Name → Name →
  Execution (List Name × Option Value)

/-- A call of the function: it starts at its first block. -/
def enter (run : Runner) (x : ExprCompiler) (func : Function) (args : List Value) :
    Execution (List Name × Option Value) := do
  let entry ← func.basicBlocks.head?
  if func.parameters.length = args.length then
    run x func (assignAll (fun _ => none) (func.parameters.zip args)) none entry.name
  else .fail

def callImp (run : Runner) (address : ℕ) (args : List Value) : Execution Value := do
  match ← functions address with
  | .function x func => do
    let (_, result) ← enter run x func args
    result.elim (.raise .fuel) pure
  | .comp f => onMemory fun m => f m args
  | .native arity f => if args.length = arity then (f args).translate flowOp else .fail
  | .bomb => .fail

/-- The execution from a block on, for at most so many blocks in this call, and in the calls that
each of them makes. -/
def run : ℕ → Runner
  | 0, _, _, _, _, _ => pure ([], none)
  | n + 1, x, func, env, origin, name => do
    let b ← func.basicBlocks.find? fun b => b.name = name
    let (env, result) ← block x threadLocalInit threadid (callImp functions (run n)) env origin b
    match result with
    | .jump target => do
      let (blocks, result) ← run n x func env (some name) target
      pure (name :: blocks, result)
    | .ret value => pure ([name], some value)

def call (n : ℕ) (address : ℕ) (args : List Value) : Execution Value :=
  callImp functions (run threadLocalInit threadid functions n) address args

end Call

/-- What the compiler relies on: blocks have different names, the entries of a phi node for one
predecessor are the same, and so are the targets of the cases of a switch with one value. -/
structure WellFormed (x : ExprCompiler) (func : Function) : Prop where
  nonempty : func.basicBlocks ≠ []
  names : (func.basicBlocks.map BasicBlock.name).Nodup
  incoming : ∀ b ∈ func.basicBlocks, ∀ phi ∈ b.phis, ∀ e ∈ phi.incomingValues,
    ∀ e' ∈ phi.incomingValues, e.2 = e'.2 → e.1 = e'.1
  cases : ∀ b ∈ func.basicBlocks, ∀ condition dests defaultDest,
    b.term = .simple (.switch condition dests defaultDest) → ∀ e ∈ dests, ∀ e' ∈ dests,
    ∀ cls cls' value, x.compileConst e.1 = some (.const cls value) →
    x.compileConst e'.1 = some (.const cls' value) → e.2 = e'.2

end Ssa
end Ir
end AtomicSim
