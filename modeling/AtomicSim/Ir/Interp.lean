import AtomicSim.Ir.Function
import AtomicSim.Lib.Program
import AtomicSim.Native.MemCopy

namespace AtomicSim

structure InterpFrame where
  origin : Option CBlockId
  temps : CLocal → Option Thunk

namespace InterpFrame

def assign (frame : InterpFrame) (dest : CLocal) (thunk : Thunk) : InterpFrame :=
  { frame with temps := Function.update frame.temps dest (some thunk) }

def assignAll (frame : InterpFrame) (thunks : List (CLocal × Thunk)) : InterpFrame :=
  thunks.foldl (fun frame e => frame.assign e.1 e.2) frame

end InterpFrame

inductive DecodeResult where
  | jump (target : CBlockId)
  | ret (result : Thunk)

namespace Ir

/-- Why a call does not return: a native function has raised a `Panic`, or the turns that it was
given are over. -/
inductive Stop where
  | panic
  | fuel
  deriving DecidableEq, Repr

/-- The interpreter hands out thunks and awaits them, and evaluates expressions while it decodes. -/
abbrev Decoding := Deferred ThunkArgs Thunk CExpr Value Stop

/-- What a native function asks of its `FlowCtx`. -/
inductive FlowOp where
  | alloc (layout : Layout)
  | free (ptr : ℕ)
  | load (address : ℕ) (layout : Layout)
  | store (address : ℕ) (value : Value)
  | cmpxchg (address expected replacement : ℕ) (success failure : Ordering)

def FlowOp.decode : FlowOp → Decoding Value
  | alloc layout => do
    let d ← Deferred.issue (FlowCtx.allocArgs layout)
    Deferred.await d
  | free ptr => do
    let d ← Deferred.issue (FlowCtx.freeArgs ptr)
    Deferred.await d
  | load address layout => do
    let address ← Deferred.issue (DataFlow.constant (Process.addr address))
    let d ← Deferred.issue (DataFlow.load address layout .none)
    Deferred.await d
  | store address value => do
    let address ← Deferred.issue (DataFlow.constant (Process.addr address))
    let v ← Deferred.issue (DataFlow.constant value)
    let d ← Deferred.issue
      (DataFlow.store address (.fromBytes value.imp.length 1) v .none)
    Deferred.await d
  | cmpxchg address expected replacement success failure => do
    let address ← Deferred.issue (DataFlow.constant (Process.addr address))
    let expected ← Deferred.issue (DataFlow.constant (.new 64 expected))
    let replacement ← Deferred.issue (DataFlow.constant (.new 64 replacement))
    let d ← Deferred.issue
      (FlowCtx.cmpxchg i64 address expected replacement success failure)
    Deferred.await d

abbrev Flow := Program FlowOp (fun _ => Value) Stop

namespace Flow

def alloc (layout : Layout) : Flow ℕ := do
  let v ← Program.op (FlowOp.alloc layout)
  pure v.asU64

def free (ptr : ℕ) : Flow Unit := do
  let _ ← Program.op (FlowOp.free ptr)

def load (address : ℕ) (layout : Layout) : Flow Value := Program.op (FlowOp.load address layout)

def store (address : ℕ) (value : Value) : Flow Unit := do
  let _ ← Program.op (FlowOp.store address value)

def cmpxchgU64 (address expected replacement : ℕ) (success failure : Ordering) :
    Flow (ℕ × Bool) := do
  let output ← Program.op (FlowOp.cmpxchg address expected replacement success failure)
  FlowCtx.cmpxchgOutputU64 output

def memcpy (dst src len : ℕ) : Flow Unit := do
  if 0 < len then
    let layout ← Layout.fromBytesU64 len 1
    let value ← load src layout
    store dst value

def realloc (old : ℕ) (oldLayout newLayout : Layout) : Flow ℕ := do
  let new ← alloc newLayout
  memcpy new old (min newLayout.bytes oldLayout.bytes)
  free old
  pure new

end Flow

/-- What is found under the address of a function: `native_comp!` makes one thunk of the
operands, `native_fn!` reads as many operands as it has parameters, and `native_bomb` is `todo!`. -/
inductive Func where
  | compiled (func : CFunc)
  | comp (f : Memory → List Value → Option (Value × Memory))
  | native (arity : ℕ) (f : List Value → Flow Value)
  | bomb

/-- `from_thunks_impl`, for a tuple of values. -/
def fromThunksImpl (arity : ℕ) (args : List Thunk) : Decoding (List Value) := do
  let values ← (args.take arity).mapM Deferred.await
  if args.length = arity then pure values else .fail

def nativeFn (arity : ℕ) (f : List Value → Flow Value) (args : List Thunk) : Decoding Thunk := do
  let values ← fromThunksImpl arity args
  let value ← (f values).translate FlowOp.decode
  Deferred.issue (DataFlow.constant value)

def nativeComp (f : Memory → List Value → Option (Value × Memory)) (args : List Thunk) :
    Decoding Thunk :=
  Deferred.issue ⟨none, .none, args, f⟩

section Frame

variable (tm : TypeMap) (call : ℕ → List Thunk → Decoding Thunk)

def decodeOperand (frame : InterpFrame) : COperand → Decoding Thunk
  | .constant _ thunk => pure thunk
  | .local _ var => liftM (frame.temps var)
  | .expr e => do
    let value ← Deferred.instant e
    Deferred.issue (DataFlow.constant value)

def decodeOperands (frame : InterpFrame) (operands : List COperand) : Decoding (List Thunk) :=
  operands.mapM (decodeOperand frame)

/-- The operands of all phi nodes are read before any of them is assigned. -/
def decodePhis (frame : InterpFrame) (phis : List CPhi) : Decoding InterpFrame := do
  let phis ← phis.mapM fun phi => do
    let origin ← frame.origin
    let operand ← phi.mapping.lookup origin
    let thunk ← decodeOperand frame operand
    pure (phi.dest, thunk)
  pure (frame.assignAll phis)

/-- `Inline` operands, `freeze` and unknown instructions are `todo!`. -/
def decodeInstr (frame : InterpFrame) : CInstr → Decoding InterpFrame
  | .compute compute => do
    let deps ← decodeOperands frame compute.operands
    let result ← Deferred.issue (DataFlow.thunk deps (compute.operation.callOperation tm))
    pure (frame.assign compute.dest result)
  | .call ccall => do
    let func ← ccall.func
    let f ← decodeOperand frame func
    let args ← decodeOperands frame ccall.arguments
    let f ← Deferred.await f
    let result ← call f.asU64 args
    pure (ccall.dest.elim frame fun dest => frame.assign dest result)
  | .alloca alloca => do
    let count ← decodeOperand frame alloca.count
    let result ← Deferred.issue (FlowCtx.allocaArgs alloca.layout count)
    pure (frame.assign alloca.dest result)
  | .load load => do
    let address ← decodeOperand frame load.address
    let target ← load.address.cls.target tm
    let result ← Deferred.issue (DataFlow.load address target.layout load.atomicity)
    pure (frame.assign load.dest result)
  | .store store => do
    let address ← decodeOperand frame store.address
    let value ← decodeOperand frame store.value
    let _ ← Deferred.issue
      (DataFlow.store address store.value.cls.layout value store.atomicity)
    pure frame
  | .cmpXchg cmpxchg => do
    let address ← decodeOperand frame cmpxchg.address
    let expected ← decodeOperand frame cmpxchg.expected
    let replacement ← decodeOperand frame cmpxchg.replacement
    let success ← Ordering.ofMemoryOrdering cmpxchg.success
    let failure ← Ordering.ofMemoryOrdering cmpxchg.failure
    let result ← Deferred.issue (FlowCtx.cmpxchg cmpxchg.expected.cls.layout address expected
      replacement success failure)
    pure (frame.assign cmpxchg.dest result)
  | .atomicRMW atomicrmw => do
    let address ← decodeOperand frame atomicrmw.address
    let value ← decodeOperand frame atomicrmw.value
    let result ← Deferred.issue (FlowCtx.atomicrmw atomicrmw.value.cls.layout address value
      atomicrmw.atomicity fun current operand =>
        atomicrmw.operation.callOperation tm [current, operand])
    pure (frame.assign atomicrmw.dest result)
  | .fence => pure frame
  | .freeze | .unknown => .fail

def decodeSimple (frame : InterpFrame) : AtomicSim.CTerm → Decoding DecodeResult
  | .ret operand => do
    let result ← decodeOperand frame operand
    pure (.ret result)
  | .br target => pure (.jump target)
  | .condBr condition trueTarget falseTarget => do
    let condition ← decodeOperand frame condition
    let value ← Deferred.await condition
    let b ← value.unwrapBool
    pure (.jump (if b then trueTarget else falseTarget))
  | .switch condition targets defaultTarget => do
    let condition ← decodeOperand frame condition
    let value ← Deferred.await condition
    pure (.jump ((targets.lookup value).getD defaultTarget))
  | .unreachable => .fail

/-- `Resume` is `todo!`. -/
def decodeTerm (frame : InterpFrame) : CTerm → Decoding (InterpFrame × DecodeResult)
  | .simple term => do
    let result ← decodeSimple frame term
    pure (frame, result)
  | .invoke invoke => do
    let f ← decodeOperand frame invoke.function
    let args ← decodeOperands frame invoke.arguments
    let f ← Deferred.await f
    let result ← call f.asU64 args
    pure (frame.assign invoke.dest result, .jump invoke.target)
  | .resume => .fail

def decodeBlock (frame : InterpFrame) (block : CBlock) :
    Decoding (InterpFrame × DecodeResult) := do
  let frame ← decodePhis frame block.phis
  let frame ← block.instrs.foldlM (decodeInstr tm call) frame
  decodeTerm call frame block.term

end Frame

section Call

variable (tm : TypeMap) (definitions : ℕ → Option Func)

/-- A function on arguments: the blocks that are visited, and the thunk that is returned, if one is
within the turns that there are. -/
abbrev Decoder := CFunc → InterpFrame → CBlockId → Decoding (List CBlockId × Option Thunk)

/-- `zip_eq` panics when there are more or fewer parameters than arguments. -/
def callImpl (decode : Decoder) (func : CFunc) (params : List Thunk) :
    Decoding (List CBlockId × Option Thunk) :=
  if func.args.length = params.length then
    decode func (InterpFrame.assignAll ⟨none, fun _ => none⟩ (func.args.zip params)) 0
  else .fail

/-- `call_imp` of what `reverse_lookup_fun` finds, which panics where there is nothing. -/
def callImp (decode : Decoder) (address : ℕ) (args : List Thunk) : Decoding Thunk := do
  match ← definitions address with
  | .compiled func => do
    let (_, result) ← callImpl decode func args
    result.elim (.raise .fuel) pure
  | .comp f => nativeComp f args
  | .native arity f => nativeFn arity f args
  | .bomb => .fail

/-- The loop of `decode`. A turn of the loop takes one of the given turns, and leaves the others
to the calls that it makes and to the turns after it. -/
def decode : ℕ → Decoder
  | 0, _, _, _ => pure ([], none)
  | n + 1, func, frame, b => do
    let block ← func.blocks[b]?
    let (frame, result) ← decodeBlock tm (callImp definitions (decode n)) frame block
    match result with
    | .jump target => do
      let (blocks, result) ← decode n func { frame with origin := some block.id } target
      pure (block.id :: blocks, result)
    | .ret result => pure ([block.id], some result)

/-- A call of the function at the given address. -/
def call (n : ℕ) (address : ℕ) (args : List Thunk) : Decoding Thunk :=
  callImp definitions (decode tm definitions n) address args

/-- `Thread::new`: what the task of a thread does before it sends its join signal. The function
is looked up before anything is decoded. -/
def control (n : ℕ) (main : ℕ) (params : List Value) : Decoding Value := do
  let _ ← definitions main
  let deps ← params.mapM fun value => Deferred.issue (DataFlow.constant value)
  let result ← call tm definitions n main deps
  Deferred.await result

end Call

end Ir
end AtomicSim
