import AtomicSim.Ir.Refinement
import AtomicSim.Synchronization

namespace AtomicSim

namespace Ir

open FuncCompiler (OperandCompiled)
open Deferred (Only only_pure only_lift only_issue only_await only_instant only_mapM only_foldlM
  only_translate)

/-- `atomicrmw` does not act on a vector. -/
def Instruction.Static (x : ExprCompiler) : Instruction → Prop
  | .atomicRMW _ _ value _ _ => ∀ cls ∈ Ssa.classOf x value, ∀ element len,
      cls.kind ≠ .vector element len
  | _ => True

/-- The thunk of a native function leaves the memory alone, or does nothing but allocate. -/
def Callee.Static : Callee → Prop
  | function x func => ∀ block ∈ func.basicBlocks, ∀ instr ∈ block.body, instr.Static x
  | comp f => (∃ g : List Value → Option Value, ∀ m args, f m args = (g args).map fun v => (v, m)) ∨
      ∃ layout : List Value → Option Layout, ∀ m args, f m args = (layout args).bind fun layout =>
        (m.alloc layout).map fun (ptr, m) => (Process.addr ptr, m)
  | native _ _ | bomb => True

def IsOp (a : ThunkArgs) : Prop := ∃ op : Op, op.args = a

theorem isOp_thunk (deps : List Thunk) (f : List Value → Option Value) :
    IsOp (DataFlow.thunk deps f) := ⟨.instr (.thunk deps f), rfl⟩

theorem isOp_alloca (layout : Layout) (count : Thunk) :
    IsOp (FlowCtx.allocaArgs layout count) := by
  refine ⟨.alloc [count] fun args =>
    args[0]?.bind fun count => layout.repeated .none count.asU64, ?_⟩
  rw [FlowCtx.allocaArgs, Op.args]
  congr 1
  funext memory args
  simp only [Option.map_eq_bind, Option.bind_assoc]
  rfl

theorem isOp_constant (v : Value) : IsOp (DataFlow.constant v) := isOp_thunk _ _

theorem callScalarBinop_eq {rmw : RMWBinOp} {name : CBinopName} (h : compileRMW rmw = some name) :
    ∃ n : COperationName, COperation.callScalarBinop name = n.callScalarBinop := by
  cases rmw with
  | nand | max | min | uMax | uMin => cases h
  | xchg => exact Option.some.inj h ▸ ⟨.xchg, rfl⟩
  | add => exact Option.some.inj h ▸ ⟨.add, rfl⟩
  | sub => exact Option.some.inj h ▸ ⟨.sub, rfl⟩
  | and => exact Option.some.inj h ▸ ⟨.and, rfl⟩
  | or => exact Option.some.inj h ▸ ⟨.or, rfl⟩
  | xor => exact Option.some.inj h ▸ ⟨.xor, rfl⟩
  | fAdd => exact Option.some.inj h ▸ ⟨.fAdd, rfl⟩
  | fSub => exact Option.some.inj h ▸ ⟨.fSub, rfl⟩

/-- The operation of an `atomicrmw` acts on its two operands as scalars. -/
theorem callOperation_eq {tm : TypeMap} {rmw : RMWBinOp} {name : CBinopName} {cls : Class}
    {op : COperation} (hname : compileRMW rmw = some name)
    (hop : OperCompiler.compileOperation tm (.binop name) [cls, cls] = some op)
    (hcls : ∀ element len, cls.kind ≠ .vector element len) : ∃ n : COperationName,
      (fun current operand => op.callOperation tm [current, operand]) = n.callScalarBinop := by
  obtain ⟨output, ho, hop⟩ := Option.bind_eq_some_iff.mp hop
  cases hop
  have houtput : output = cls := by
    rw [OperCompiler.output, OperCompiler.allEqual] at ho
    split_ifs at ho
    exact (Option.some.inj ho).symm
  subst houtput
  obtain ⟨n, hn⟩ := callScalarBinop_eq hname
  have hcall : ∀ current operand : Value, COperation.callScalar (.binop name) [current, operand] =
      n.callScalarBinop current operand := fun current operand => congrFun (congrFun hn _) _
  cases hkind : output.kind with
  | vector element len => exact absurd hkind (hcls element len)
  | integer _ | pointer _ | fp _ =>
    refine ⟨n, funext fun current => funext fun operand => ?_⟩
    rw [← hcall, COperation.callOperation, COperation.callSimple, hkind]
  | void | func _ _ _ | array _ _ | struc _ _ =>
    refine ⟨.fAdd, funext fun current => funext fun operand => ?_⟩
    rw [COperation.callOperation, COperation.callSimple, hkind]
    rfl

section Frame

variable {L : Name → Option CLocal} {B : Name → Option CBlockId} {x : ExprCompiler}
variable {call : ℕ → List Thunk → Decoding Thunk} {P : ThunkArgs → Prop}

section Pure

variable (hP : ∀ deps f, P (DataFlow.thunk deps f))

include hP

theorem only_decodeOperand (frame : InterpFrame) (c : COperand) :
    Only P (decodeOperand frame c) := by
  cases c with
  | constant cls d => exact only_pure d
  | «local» cls l => exact only_lift _
  | expr e => exact (only_instant e).bind fun v => only_issue (hP _ _)

theorem only_decodeOperands (frame : InterpFrame) (cs : List COperand) :
    Only P (decodeOperands frame cs) :=
  only_mapM fun c _ => only_decodeOperand hP frame c

theorem only_compute {tm : TypeMap} (frame : InterpFrame) (c : CCompute) :
    Only P (decodeInstr tm call frame (.compute c)) := by
  refine (only_decodeOperands hP frame _).bind fun deps => ?_
  exact (only_issue (hP deps _)).bind fun d => only_pure _

theorem only_decodePhis (frame : InterpFrame) (phis : List CPhi) :
    Only P (decodePhis frame phis) := by
  refine Only.bind (only_mapM fun phi _ => ?_) fun ds => only_pure _
  refine (only_lift _).bind fun origin => (only_lift _).bind fun operand => ?_
  exact (only_decodeOperand hP frame operand).bind fun d => only_pure _

theorem only_decodeSimple (frame : InterpFrame) (term : AtomicSim.CTerm) :
    Only P (decodeSimple frame term) := by
  cases term with
  | ret operand => exact (only_decodeOperand hP frame operand).bind fun d => only_pure _
  | br target => exact only_pure _
  | condBr condition trueTarget falseTarget =>
    refine (only_decodeOperand hP frame condition).bind fun d => (only_await d).bind fun v => ?_
    exact (only_lift _).bind fun b => only_pure _
  | switch condition targets defaultTarget =>
    refine (only_decodeOperand hP frame condition).bind fun d => (only_await d).bind fun v => ?_
    exact only_pure _
  | unreachable => trivial

theorem only_decodeBlock {block : BasicBlock} {c : CBlock} (h : BlockCompiled x L B block c)
    (hinstr : ∀ instr ∈ block.body, ∀ c, InstrCompiled x L instr c → ∀ frame,
      Only P (decodeInstr x.tm call frame c))
    (hterm : ∀ c, TermCompiled x L B block.term c → ∀ frame, Only P (decodeTerm call frame c))
    (frame : InterpFrame) : Only P (decodeBlock x.tm call frame c) := by
  refine (only_decodePhis hP frame c.phis).bind fun frame => ?_
  refine (only_foldlM (fun frame c' hc' => ?_) frame).bind (hterm _ h.term)
  obtain ⟨instr, hmem, hcompiled⟩ := exists_of_forall₂ h.instrs.flip hc'
  exact hinstr instr hmem c' hcompiled frame

end Pure

section Calls

variable (hcall : ∀ address ds, Only IsOp (call address ds))

include hcall

theorem only_call_bind {α : Type} (frame : InterpFrame) (f : COperand) (cs : List COperand)
    {k : Thunk → Decoding α}
    (hk : ∀ d, Only IsOp (k d)) :
    Only IsOp (do
      let f ← decodeOperand frame f
      let args ← decodeOperands frame cs
      let f ← Deferred.await f
      let result ← call f.asU64 args
      k result) := by
  refine (only_decodeOperand isOp_thunk frame f).bind fun d => ?_
  refine (only_decodeOperands isOp_thunk frame cs).bind fun ds => ?_
  refine (only_await d).bind fun v => ?_
  exact (hcall v.asU64 ds).bind hk

theorem only_decodeInstr {instr : Instruction} {c : CInstr} (h : InstrCompiled x L instr c)
    (hs : instr.Static x) (frame : InterpFrame) : Only IsOp (decodeInstr x.tm call frame c) := by
  have hoperand := only_decodeOperand isOp_thunk frame
  have hassign : ∀ {a : ThunkArgs} {l : CLocal}, IsOp a → Only IsOp (do
      let result ← (Deferred.issue a : Decoding Thunk)
      pure (frame.assign l result)) :=
    fun ha => (only_issue ha).bind fun d => only_pure _
  cases h with
  | compute h => exact only_compute isOp_thunk frame _
  | @alloca allocatedType numElements dest alignment c cls alignBits hdest hcount hcls hbits
      hlayout =>
    exact (hoperand _).bind fun count => hassign (isOp_alloca c.layout count)
  | @load address dest atomicity c hdest haddress hatomicity =>
    refine (hoperand _).bind fun d => (only_lift _).bind fun target => ?_
    exact hassign ⟨.instr (.load d target.layout c.atomicity), rfl⟩
  | @store address value atomicity c haddress hvalue hatomicity =>
    refine (hoperand _).bind fun d => (hoperand _).bind fun v => ?_
    refine (only_issue ⟨.instr (.store d _ v c.atomicity), rfl⟩).bind fun _ => ?_
    exact only_pure frame
  | @cmpXchg address expected replacement dest atomicity failureMemoryOrdering c hdest haddress
      hexpected hreplacement hsuccess hfailure =>
    refine (hoperand _).bind fun d => (hoperand _).bind fun e => (hoperand _).bind fun r => ?_
    refine (only_lift _).bind fun success => (only_lift _).bind fun failure => ?_
    exact hassign ⟨.instr (.cmpxchg _ d e r success failure), rfl⟩
  | @atomicRMW rmw address value dest atomicity c name hdest haddress hvalue hname hoperation
      hatomicity =>
    obtain ⟨n, hn⟩ := callOperation_eq hname hoperation (hs _ (classOf_eq hvalue))
    rw [decodeInstr, hn]
    refine (hoperand _).bind fun d => (hoperand _).bind fun v => ?_
    exact hassign ⟨.instr (.atomicrmw _ d v c.atomicity n), rfl⟩
  | @call function arguments dest c hdest hfunc harguments =>
    refine (only_lift _).bind fun f => ?_
    exact only_call_bind hcall frame f _ fun d => only_pure _
  | fence => exact only_pure frame
  | freeze | unknown => trivial

theorem only_decodeTerm (frame : InterpFrame) (term : CTerm) :
    Only IsOp (decodeTerm call frame term) := by
  cases term with
  | simple term =>
    exact (only_decodeSimple isOp_thunk frame term).bind fun result => only_pure _
  | invoke invoke => exact only_call_bind hcall frame _ _ fun d => only_pure _
  | resume => trivial

end Calls
end Frame

section Call

variable {tm : TypeMap} {functions : ℕ → Option Callee} {definitions : ℕ → Option Func}

theorem only_flowOp (o : FlowOp) : Only IsOp o.decode := by
  cases o with
  | alloc layout =>
    exact (only_issue ⟨.alloc [] fun _ => some layout, rfl⟩).bind fun d => only_await d
  | free ptr =>
    exact (only_issue ⟨.instr (.thunk [] fun _ => some .ofUnit), rfl⟩).bind fun d => only_await d
  | load address layout =>
    refine (only_issue (isOp_constant _)).bind fun d => ?_
    exact (only_issue ⟨.instr (.load d layout .none), rfl⟩).bind fun d => only_await d
  | store address value =>
    refine (only_issue (isOp_constant _)).bind fun d => ?_
    refine (only_issue (isOp_constant value)).bind fun v => ?_
    exact (only_issue ⟨.instr (.store d _ v .none), rfl⟩).bind fun d => only_await d
  | cmpxchg address expected replacement success failure =>
    refine (only_issue (isOp_constant _)).bind fun a => ?_
    refine (only_issue (isOp_constant _)).bind fun e => ?_
    refine (only_issue (isOp_constant _)).bind fun r => ?_
    refine Only.bind (only_issue ?_) fun d => only_await d
    exact ⟨.instr (.cmpxchg i64 a e r success failure), rfl⟩

theorem only_nativeFn (arity : ℕ) (f : List Value → Flow Value) (args : List Thunk) :
    Only IsOp (nativeFn arity f args) := by
  have hargs : Only IsOp (fromThunksImpl arity args) := by
    refine Only.bind (only_mapM fun d _ => only_await d) fun values => ?_
    split_ifs
    · exact only_pure values
    · trivial
  refine hargs.bind fun values => (only_translate only_flowOp (f values)).bind fun v => ?_
  exact only_issue (isOp_constant v)

theorem only_comp {f : Memory → List Value → Option (Value × Memory)} (h : (Callee.comp f).Static)
    (args : List Thunk) : Only IsOp (nativeComp f args) := by
  apply only_issue
  rcases h with ⟨g, hg⟩ | ⟨layout, hlayout⟩
  · exact ⟨.instr (.thunk args g), congrArg (ThunkArgs.mk none .none args)
      (funext fun m => funext fun vs => (hg m vs).symm)⟩
  · exact ⟨.alloc args layout, congrArg (ThunkArgs.mk none .none args)
      (funext fun m => funext fun vs => (hlayout m vs).symm)⟩

theorem only_decode_succ {P : ThunkArgs → Prop} {n : ℕ} {c : CFunc}
    (hblock : ∀ block ∈ c.blocks, ∀ frame,
      Only P (decodeBlock tm (callImp definitions (decode tm definitions n)) frame block))
    (hrest : ∀ frame b, Only P (decode tm definitions n c frame b)) (frame : InterpFrame)
    (b : CBlockId) : Only P (decode tm definitions (n + 1) c frame b) := by
  rw [decode]
  cases hb : c.blocks[b]? with
  | none => trivial
  | some block =>
    rw [Program.liftM_some_bind]
    apply (hblock block (List.mem_of_getElem? hb) frame).bind
    rintro ⟨frame', result⟩
    cases result with
    | jump target => exact (hrest _ _).bind fun r => only_pure _
    | ret d => exact only_pure _

theorem only_callImpl {P : ThunkArgs → Prop} {decode : Decoder} {c : CFunc}
    (h : ∀ frame b, Only P (decode c frame b)) (args : List Thunk) :
    Only P (callImpl decode c args) := by
  rw [callImpl]
  split_ifs
  · exact h _ _
  · trivial

variable (hl : ∀ address, Option.Rel (Linked tm) (functions address) (definitions address))
  (hs : ∀ address, ∀ callee ∈ functions address, callee.Static)

include hl hs

theorem only_callImp {decode : Decoder}
    (h : ∀ {x func c L}, x.tm = tm → (Callee.function x func).Static →
      FuncCompiled x L (blockNumber func) func c → ∀ frame b, Only IsOp (decode c frame b))
    (address : ℕ) (args : List Thunk) : Only IsOp (callImp definitions decode address args) := by
  have hlinked := hl address
  have hstatic := hs address
  rw [callImp]
  generalize functions address = callee, definitions address = func at hlinked hstatic
  cases hlinked with
  | none => trivial
  | some hlinked =>
    have hcallee := hstatic _ rfl
    cases hlinked with
    | native arity f => exact only_nativeFn arity f args
    | comp f => exact only_comp hcallee args
    | bomb => trivial
    | @function x func c htm hw hc =>
      obtain ⟨L, hcompiled⟩ := funcCompiled_of_compileFunc hc
      apply (only_callImpl (h htm hcallee hcompiled) args).bind
      rintro ⟨blocks, result⟩
      cases result with
      | none => trivial
      | some d => exact only_pure d

theorem only_decode (n : ℕ) {x : ExprCompiler} {func : Function} {c : CFunc}
    {L : Name → Option CLocal} (htm : x.tm = tm) (hfunc : (Callee.function x func).Static)
    (hc : FuncCompiled x L (blockNumber func) func c) (frame : InterpFrame) (b : CBlockId) :
    Only IsOp (decode tm definitions n c frame b) := by
  induction n generalizing x func c L frame b with
  | zero => trivial
  | succ n ih =>
    subst htm
    have hcall := only_callImp hl hs ih
    refine only_decode_succ (fun c' hc' frame => ?_) (ih rfl hfunc hc) frame b
    obtain ⟨block, hmem, hblock⟩ := hc.exists_block hc'
    refine only_decodeBlock isOp_thunk hblock (fun instr hi c hc => ?_) (fun c hc => ?_) frame
    · exact only_decodeInstr hcall hc (hfunc block hmem instr hi)
    · exact fun frame => only_decodeTerm hcall frame c

/-- What a thread decodes are computations, accesses and allocations. -/
theorem only_control (n main : ℕ) (params : List Value) :
    Only IsOp (control tm definitions n main params) := by
  refine (only_lift _).bind fun _ => ?_
  refine (only_mapM fun v _ => only_issue (isOp_constant v)).bind fun deps => ?_
  refine Only.bind (only_callImp hl hs ?_ main deps) fun d => only_await d
  exact fun htm hfunc hc frame b => only_decode hl hs n htm hfunc hc frame b

end Call

theorem Counter.static (address : ℕ) : ∀ callee ∈ Counter.functions address, callee.Static := by
  intro callee hc
  rw [Counter.functions] at hc
  split_ifs at hc
  · cases hc
    intro block hblock instr hinstr
    cases List.mem_singleton.mp hblock
    cases List.mem_singleton.mp hinstr
    intro cls hcls element len hkind
    cases hcls
    cases hkind
  · cases hc
    intro block hblock instr hinstr
    simp only [worker, List.mem_cons, List.not_mem_nil, or_false] at hblock
    rcases hblock with rfl | rfl | rfl
    · rcases List.mem_pair.mp hinstr with rfl | rfl
      · trivial
      · trivial
    · change instr ∈ [_, _, _, _] at hinstr
      simp only [List.mem_cons, List.not_mem_nil, or_false] at hinstr
      rcases hinstr with rfl | rfl | rfl | rfl <;> trivial
    · cases hinstr
  · cases hc

end Ir
end AtomicSim
