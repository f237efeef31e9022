import AtomicSim.Compile.Function
import AtomicSim.Data

namespace AtomicSim

inductive MemoryOrdering where
  | unordered
  | monotonic
  | acquire
  | release
  | acquireRelease
  | sequentiallyConsistent
  | notAtomic
  deriving DecidableEq, Repr

inductive SynchronizationScope where
  | singleThread
  | system
  deriving DecidableEq, Repr

structure Atomicity where
  synchScope : SynchronizationScope
  memOrdering : MemoryOrdering
  deriving DecidableEq, Repr

namespace Ordering

/-- `Ordering::from` on a memory ordering. -/
def ofMemoryOrdering : MemoryOrdering → Option Ordering
  | .unordered => Option.none
  | .monotonic => some relaxed
  | .acquire => some acquire
  | .release => some release
  | .acquireRelease => some acqRel
  | .sequentiallyConsistent => some seqCst
  | .notAtomic => some none

/-- Panics on a scope of one thread. -/
def ofAtomicity (atomicity : Atomicity) : Option Ordering :=
  if atomicity.synchScope = .system then ofMemoryOrdering atomicity.memOrdering else Option.none

def ofAccess : Option Atomicity → Option Ordering
  | some atomicity => ofAtomicity atomicity
  | Option.none => some none

end Ordering

/-- `Layout::align_to_bits`. -/
def Layout.alignToBits (l : Layout) (alignBits : ℕ) : Option Layout :=
  fromBits l.bits (max l.bitAlign alignBits)

inductive RMWBinOp where
  | xchg
  | add
  | sub
  | and
  | nand
  | or
  | xor
  | max
  | min
  | uMax
  | uMin
  | fAdd
  | fSub
  deriving DecidableEq, Repr

namespace Ir

/-- The instructions that compute a value, those that access the memory, and calls. `none` as
the function of a call is inline assembly. -/
inductive Instruction where
  | compute (instr : AtomicSim.Instruction)
  | alloca (allocatedType : TypeRef) (numElements : Operand) (dest : Name) (alignment : UInt32)
  | load (address : Operand) (dest : Name) (atomicity : Option Atomicity)
  | store (address value : Operand) (atomicity : Option Atomicity)
  | cmpXchg (address expected replacement : Operand) (dest : Name) (atomicity : Atomicity)
      (failureMemoryOrdering : MemoryOrdering)
  | atomicRMW (operation : RMWBinOp) (address value : Operand) (dest : Name)
      (atomicity : Atomicity)
  | call (function : Option Operand) (arguments : List Operand) (dest : Option Name)
  | fence
  | freeze
  | unknown

inductive Terminator where
  | simple (term : AtomicSim.Terminator)
  | invoke (function : Option Operand) (arguments : List Operand) (result returnLabel : Name)
  | resume
  | unsupported

structure BasicBlock where
  name : Name
  instrs : List Instruction
  term : Terminator

structure Function where
  parameters : List Name
  basicBlocks : List BasicBlock

structure CLoad where
  dest : CLocal
  address : COperand
  atomicity : Ordering

structure CStore where
  address : COperand
  value : COperand
  atomicity : Ordering

structure CAlloca where
  dest : CLocal
  count : COperand
  layout : Layout

/-- `none` is the operand `Inline`. -/
structure CCall where
  dest : Option CLocal
  func : Option COperand
  arguments : List COperand

structure CAtomicRMW where
  dest : CLocal
  address : COperand
  value : COperand
  operation : COperation
  atomicity : Ordering

structure CCmpXchg where
  dest : CLocal
  address : COperand
  expected : COperand
  replacement : COperand
  success : MemoryOrdering
  failure : MemoryOrdering

inductive CInstr where
  | compute (compute : CCompute)
  | call (call : CCall)
  | alloca (alloca : CAlloca)
  | load (load : CLoad)
  | store (store : CStore)
  | cmpXchg (cmpxchg : CCmpXchg)
  | atomicRMW (atomicrmw : CAtomicRMW)
  | freeze
  | fence
  | unknown

structure CInvoke where
  function : COperand
  arguments : List COperand
  dest : CLocal
  target : CBlockId

inductive CTerm where
  | simple (term : AtomicSim.CTerm)
  | invoke (invoke : CInvoke)
  | resume

structure CBlock where
  id : CBlockId
  phis : List CPhi
  instrs : List CInstr
  term : CTerm

structure CFunc where
  args : List CLocal
  blocks : List CBlock
  locals : List Name

open FuncCompiler (compileLocal compileTarget compileOperand compilePhi)

/-- The remaining operations are `todo!`. -/
def compileRMW : RMWBinOp → Option CBinopName
  | .xchg => some .xchg
  | .add => some .add
  | .sub => some .sub
  | .and => some .and
  | .or => some .or
  | .xor => some .xor
  | .fAdd => some .fAdd
  | .fSub => some .fSub
  | .nand | .max | .min | .uMax | .uMin => none

/-- `(8 * *alignment) as u64`, a product of `u32`. -/
def alignmentBits (alignment : UInt32) : Option ℕ :=
  if 8 * alignment.toNat < 2 ^ 32 then some (8 * alignment.toNat) else none

variable (x : ExprCompiler)

def compileFuncOperand : Option Operand → StateT FuncCompiler Option (Option COperand)
  | none => pure none
  | some operand => do
    let operand ← compileOperand x operand
    pure (some operand)

def compileInstr : Instruction → StateT FuncCompiler Option CInstr
  | .compute instr => do
    let compute ← FuncCompiler.compileInstr x instr
    pure (.compute compute)
  | .alloca allocatedType numElements dest alignment => do
    let dest ← compileLocal dest
    let count ← compileOperand x numElements
    let cls ← x.tm.get allocatedType
    let alignBits ← alignmentBits alignment
    let layout ← cls.layout.alignToBits alignBits
    pure (.alloca ⟨dest, count, layout⟩)
  | .load address dest atomicity => do
    let dest ← compileLocal dest
    let address ← compileOperand x address
    let atomicity ← Ordering.ofAccess atomicity
    pure (.load ⟨dest, address, atomicity⟩)
  | .store address value atomicity => do
    let address ← compileOperand x address
    let value ← compileOperand x value
    let atomicity ← Ordering.ofAccess atomicity
    pure (.store ⟨address, value, atomicity⟩)
  | .cmpXchg address expected replacement dest atomicity failureMemoryOrdering => do
    let address ← compileOperand x address
    let expected ← compileOperand x expected
    let replacement ← compileOperand x replacement
    let dest ← compileLocal dest
    pure (.cmpXchg
      ⟨dest, address, expected, replacement, atomicity.memOrdering, failureMemoryOrdering⟩)
  | .atomicRMW operation address value dest atomicity => do
    let address ← compileOperand x address
    let value ← compileOperand x value
    let operation ← compileRMW operation
    let operation ← OperCompiler.compileOperation x.tm (.binop operation) [value.cls, value.cls]
    let dest ← compileLocal dest
    let atomicity ← Ordering.ofAtomicity atomicity
    pure (.atomicRMW ⟨dest, address, value, operation, atomicity⟩)
  | .call function arguments dest => do
    let dest ← dest.mapM compileLocal
    let func ← compileFuncOperand x function
    let arguments ← arguments.mapM (compileOperand x)
    pure (.call ⟨dest, func, arguments⟩)
  | .fence => pure .fence
  | .freeze => pure .freeze
  | .unknown => pure .unknown

/-- Inline assembly panics in an `invoke`. -/
def compileTerm : Terminator → StateT FuncCompiler Option CTerm
  | .simple term => do
    let term ← FuncCompiler.compileTerm x term
    pure (.simple term)
  | .invoke function arguments result returnLabel => do
    let function ← function
    let function ← compileOperand x function
    let arguments ← arguments.mapM (compileOperand x)
    let dest ← compileLocal result
    let target ← compileTarget returnLabel
    pure (.invoke ⟨function, arguments, dest, target⟩)
  | .resume => pure .resume
  | .unsupported => failure

/-- The phi nodes are set apart from the other instructions. -/
def compileInstrs : List Instruction → StateT FuncCompiler Option (List CPhi × List CInstr)
  | [] => pure ([], [])
  | .compute (.phi phi) :: instrs => do
    let phi ← compilePhi x phi
    let (phis, instrs) ← compileInstrs instrs
    pure (phi :: phis, instrs)
  | instr :: instrs => do
    let instr ← compileInstr x instr
    let (phis, instrs) ← compileInstrs instrs
    pure (phis, instr :: instrs)

def compileBlock (id : CBlockId) (block : BasicBlock) : StateT FuncCompiler Option CBlock := do
  let (phis, instrs) ← compileInstrs x block.instrs
  let term ← compileTerm x block.term
  pure ⟨id, phis, instrs, term⟩

/-- The blocks are numbered by position before any of them is compiled. -/
def blockIdsOf (blocks : List BasicBlock) : List (Name × CBlockId) :=
  (blocks.zipIdx.map fun (block, i) => (block.name, i)).reverse

def compileFunc (func : Function) : Option CFunc := do
  let s := { FuncCompiler.new with blockIds := blockIdsOf func.basicBlocks }
  let (blocks, s) ← (func.basicBlocks.zipIdx.mapM fun (block, i) => compileBlock x i block) s
  let (args, s) ← (func.parameters.mapM compileLocal) s
  some ⟨args, blocks, s.localNames⟩

end Ir
end AtomicSim
