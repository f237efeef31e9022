import AtomicSim.Compile.Numbering
import AtomicSim.Ir.Ssa
import AtomicSim.Lib.Numbering

namespace AtomicSim

namespace Ir

open FuncCompiler (OperandCompiled PhiCompiled Yields Numbered Grows)

section Compiled

variable (x : ExprCompiler) (L : Name → Option CLocal) (B : Name → Option CBlockId)

inductive InstrCompiled : Instruction → CInstr → Prop
  | compute {instr : AtomicSim.Instruction} {c : CCompute}
    (h : FuncCompiler.InstrCompiled x L instr c) : InstrCompiled (.compute instr) (.compute c)
  | alloca {allocatedType : TypeRef} {numElements : Operand} {dest : Name} {alignment : UInt32}
    {c : CAlloca} {cls : Class} {alignBits : ℕ} (hdest : L dest = some c.dest)
    (hcount : OperandCompiled x L numElements c.count) (hcls : x.tm.get allocatedType = some cls)
    (hbits : alignmentBits alignment = some alignBits)
    (hlayout : cls.layout.alignToBits alignBits = some c.layout) :
    InstrCompiled (.alloca allocatedType numElements dest alignment) (.alloca c)
  | load {address : Operand} {dest : Name} {atomicity : Option Atomicity} {c : CLoad}
    (hdest : L dest = some c.dest) (haddress : OperandCompiled x L address c.address)
    (hatomicity : Ordering.ofAccess atomicity = some c.atomicity) :
    InstrCompiled (.load address dest atomicity) (.load c)
  | store {address value : Operand} {atomicity : Option Atomicity} {c : CStore}
    (haddress : OperandCompiled x L address c.address) (hvalue : OperandCompiled x L value c.value)
    (hatomicity : Ordering.ofAccess atomicity = some c.atomicity) :
    InstrCompiled (.store address value atomicity) (.store c)
  | cmpXchg {address expected replacement : Operand} {dest : Name} {atomicity : Atomicity}
    {failureMemoryOrdering : MemoryOrdering} {c : CCmpXchg} (hdest : L dest = some c.dest)
    (haddress : OperandCompiled x L address c.address)
    (hexpected : OperandCompiled x L expected c.expected)
    (hreplacement : OperandCompiled x L replacement c.replacement)
    (hsuccess : c.success = atomicity.memOrdering) (hfailure : c.failure = failureMemoryOrdering) :
    InstrCompiled (.cmpXchg address expected replacement dest atomicity failureMemoryOrdering)
      (.cmpXchg c)
  | atomicRMW {rmw : RMWBinOp} {address value : Operand} {dest : Name} {atomicity : Atomicity}
    {c : CAtomicRMW} {name : CBinopName} (hdest : L dest = some c.dest)
    (haddress : OperandCompiled x L address c.address) (hvalue : OperandCompiled x L value c.value)
    (hname : compileRMW rmw = some name)
    (hoperation : OperCompiler.compileOperation x.tm (.binop name) [c.value.cls, c.value.cls] =
      some c.operation)
    (hatomicity : Ordering.ofAtomicity atomicity = some c.atomicity) :
    InstrCompiled (.atomicRMW rmw address value dest atomicity) (.atomicRMW c)
  | call {function : Option Operand} {arguments : List Operand} {dest : Option Name} {c : CCall}
    (hdest : Option.Rel (fun name l => L name = some l) dest c.dest)
    (hfunc : Option.Rel (OperandCompiled x L) function c.func)
    (harguments : List.Forall₂ (OperandCompiled x L) arguments c.arguments) :
    InstrCompiled (.call function arguments dest) (.call c)
  | fence : InstrCompiled .fence .fence
  | freeze : InstrCompiled .freeze .freeze
  | unknown : InstrCompiled .unknown .unknown

inductive TermCompiled : Terminator → CTerm → Prop
  | simple {term : AtomicSim.Terminator} {c : AtomicSim.CTerm}
    (h : FuncCompiler.TermCompiled x L B term c) : TermCompiled (.simple term) (.simple c)
  | invoke {function : Operand} {arguments : List Operand} {result returnLabel : Name}
    {c : CInvoke} (hfunction : OperandCompiled x L function c.function)
    (harguments : List.Forall₂ (OperandCompiled x L) arguments c.arguments)
    (hdest : L result = some c.dest) (htarget : B returnLabel = some c.target) :
    TermCompiled (.invoke (some function) arguments result returnLabel) (.invoke c)
  | resume : TermCompiled .resume .resume

structure BlockCompiled (block : BasicBlock) (c : CBlock) : Prop where
  phis : List.Forall₂ (PhiCompiled x L B) block.phis c.phis
  instrs : List.Forall₂ (InstrCompiled x L) block.body c.instrs
  term : TermCompiled x L B block.term c.term

/-- The compiled function, under the numbers of its names and blocks. -/
structure FuncCompiled (func : Function) (c : CFunc) : Prop where
  inj : PartialMap.Injective L
  args : List.Forall₂ (fun name l => L name = some l) func.parameters c.args
  blocks : List.Forall₂ (fun e block => block.id = e.2 ∧ BlockCompiled x L B e.1 block)
    func.basicBlocks.zipIdx c.blocks

end Compiled

theorem FuncCompiled.exists_block {x : ExprCompiler} {L : Name → Option CLocal}
    {B : Name → Option CBlockId} {func : Function} {c : CFunc} (h : FuncCompiled x L B func c)
    {c' : CBlock} (hc' : c' ∈ c.blocks) :
    ∃ block ∈ func.basicBlocks, BlockCompiled x L B block c' := by
  obtain ⟨e, he, -, hblock⟩ := exists_of_forall₂ h.blocks.flip hc'
  exact ⟨e.1, List.mem_of_getElem? (List.mem_zipIdx_iff_getElem?.mp he), hblock⟩

section Yields

variable {x : ExprCompiler} {B : Name → Option CBlockId}

theorem yields_operands (operands : List Operand) :
    Yields B (operands.mapM (FuncCompiler.compileOperand x)) fun L cs =>
      List.Forall₂ (OperandCompiled x L) operands cs :=
  Yields.mapM fun operand _ => FuncCompiler.yields_compileOperand operand

theorem yields_optionMapM {α β : Type} {f : α → StateT FuncCompiler Option β}
    {Q : α → (Name → Option CLocal) → β → Prop} (h : ∀ a, Yields B (f a) (Q a)) (o : Option α) :
    Yields B (o.mapM f) fun L o' => Option.Rel (fun a b => Q a L b) o o' := by
  cases o with
  | none => exact .pure fun _ => .none
  | some a =>
    rw [Option.mapM_some, map_eq_pure_bind]
    apply (h a).bind
    intro b
    exact .pure fun L hb => .some hb

theorem yields_compileFuncOperand (function : Option Operand) :
    Yields B (compileFuncOperand x function) fun L c =>
      Option.Rel (OperandCompiled x L) function c := by
  cases function with
  | none => exact .pure fun _ => .none
  | some operand =>
    apply (FuncCompiler.yields_compileOperand operand).bind
    intro c
    exact .pure fun L h => .some h

theorem yields_compileInstr (instr : Instruction) :
    Yields B (compileInstr x instr) fun L c => InstrCompiled x L instr c := by
  cases instr with
  | compute instr =>
    apply (FuncCompiler.yields_compileInstr instr).bind
    intro c
    exact .pure fun L h => .compute h
  | alloca allocatedType numElements dest alignment =>
    apply (FuncCompiler.yields_compileLocal B dest).bind
    intro l
    apply (FuncCompiler.yields_compileOperand numElements).bind
    intro count
    apply (Yields.lift (x.tm.get allocatedType)).bind
    intro cls
    apply (Yields.lift (alignmentBits alignment)).bind
    intro alignBits
    apply (Yields.lift (cls.layout.alignToBits alignBits)).bind
    intro layout
    exact .pure fun L hlayout hbits hcls hcount hdest => .alloca hdest hcount hcls hbits hlayout
  | load address dest atomicity =>
    apply (FuncCompiler.yields_compileLocal B dest).bind
    intro l
    apply (FuncCompiler.yields_compileOperand address).bind
    intro a
    apply (Yields.lift (Ordering.ofAccess atomicity)).bind
    intro ordering
    exact .pure fun L hordering haddress hdest => .load hdest haddress hordering
  | store address value atomicity =>
    apply (FuncCompiler.yields_compileOperand address).bind
    intro a
    apply (FuncCompiler.yields_compileOperand value).bind
    intro v
    apply (Yields.lift (Ordering.ofAccess atomicity)).bind
    intro ordering
    exact .pure fun L hordering hvalue haddress => .store haddress hvalue hordering
  | cmpXchg address expected replacement dest atomicity failureMemoryOrdering =>
    apply (FuncCompiler.yields_compileOperand address).bind
    intro a
    apply (FuncCompiler.yields_compileOperand expected).bind
    intro e
    apply (FuncCompiler.yields_compileOperand replacement).bind
    intro r
    apply (FuncCompiler.yields_compileLocal B dest).bind
    intro l
    exact .pure fun L hdest hreplacement hexpected haddress =>
      .cmpXchg hdest haddress hexpected hreplacement rfl rfl
  | atomicRMW rmw address value dest atomicity =>
    apply (FuncCompiler.yields_compileOperand address).bind
    intro a
    apply (FuncCompiler.yields_compileOperand value).bind
    intro v
    apply (Yields.lift (compileRMW rmw)).bind
    intro name
    apply (Yields.lift (OperCompiler.compileOperation x.tm (.binop name) [v.cls, v.cls])).bind
    intro operation
    apply (FuncCompiler.yields_compileLocal B dest).bind
    intro l
    apply (Yields.lift (Ordering.ofAtomicity atomicity)).bind
    intro ordering
    exact .pure fun L hordering hdest hoperation hname hvalue haddress =>
      .atomicRMW hdest haddress hvalue hname hoperation hordering
  | call function arguments dest =>
    apply (yields_optionMapM (FuncCompiler.yields_compileLocal B) dest).bind
    intro l
    apply (yields_compileFuncOperand function).bind
    intro f
    apply (yields_operands arguments).bind
    intro cs
    exact .pure fun L harguments hfunc hdest => .call hdest hfunc harguments
  | fence => exact .pure fun L => .fence
  | freeze => exact .pure fun L => .freeze
  | unknown => exact .pure fun L => .unknown

theorem yields_compileTerm (term : Terminator) :
    Yields B (compileTerm x term) fun L c => TermCompiled x L B term c := by
  cases term with
  | simple term =>
    apply (FuncCompiler.yields_compileTerm term).bind
    intro c
    exact .pure fun L h => .simple h
  | invoke function arguments result returnLabel =>
    apply (Yields.lift function).bind
    intro operand
    apply (FuncCompiler.yields_compileOperand operand).bind
    intro f
    apply (yields_operands arguments).bind
    intro cs
    apply (FuncCompiler.yields_compileLocal B result).bind
    intro l
    apply (FuncCompiler.yields_compileTarget B returnLabel).bind
    intro b
    exact .pure fun L htarget hdest harguments hfunction hsome =>
      hsome ▸ .invoke hfunction harguments hdest htarget
  | resume => exact .pure fun L => .resume
  | unsupported => exact .failure

theorem yields_compileInstrs (instrs : List Instruction) :
    Yields B (compileInstrs x instrs) fun L c =>
      List.Forall₂ (PhiCompiled x L B) (instrs.filterMap Instruction.asPhi) c.1 ∧
      List.Forall₂ (InstrCompiled x L) (instrs.filter fun i => i.asPhi.isNone) c.2 := by
  induction instrs with
  | nil => exact .pure fun L => ⟨.nil, .nil⟩
  | cons instr instrs ih =>
    have hother (hphi : instr.asPhi = none) : Yields B (do
        let instr ← compileInstr x instr
        let rest ← compileInstrs x instrs
        pure (rest.1, instr :: rest.2)) fun L c =>
          List.Forall₂ (PhiCompiled x L B) ((instr :: instrs).filterMap Instruction.asPhi) c.1 ∧
          List.Forall₂ (InstrCompiled x L)
            ((instr :: instrs).filter fun i => i.asPhi.isNone) c.2 := by
      apply (yields_compileInstr instr).bind
      intro c
      apply ih.bind
      rintro ⟨phis, cs⟩
      refine .pure fun L hrest hc => ⟨?_, ?_⟩
      · rw [List.filterMap_cons_none hphi]
        exact hrest.1
      · rw [List.filter_cons_of_pos (by rw [hphi]; rfl)]
        exact .cons hc hrest.2
    cases instr with
    | compute instr =>
      cases instr with
      | phi p =>
        apply (FuncCompiler.yields_compilePhi p).bind
        intro c
        apply ih.bind
        rintro ⟨phis, cs⟩
        exact .pure fun L hrest hc => ⟨.cons hc hrest.1, hrest.2⟩
      | _ => exact hother rfl
    | _ => exact hother rfl

theorem yields_compileBlock (id : CBlockId) (block : BasicBlock) :
    Yields B (compileBlock x id block) fun L c => c.id = id ∧ BlockCompiled x L B block c := by
  apply (yields_compileInstrs block.instrs).bind
  rintro ⟨phis, instrs⟩
  apply (yields_compileTerm block.term).bind
  intro term
  exact .pure fun L hterm hinstrs => ⟨rfl, hinstrs.1, hinstrs.2, hterm⟩

def blockNumber (func : Function) (name : Name) : Option CBlockId :=
  (blockIdsOf func.basicBlocks).lookup name

theorem funcCompiled_of_compileFunc {func : Function} {c : CFunc}
    (h : compileFunc x func = some c) : ∃ L, FuncCompiled x L (blockNumber func) func c := by
  obtain ⟨⟨blocks, s₁⟩, hblocks, h⟩ := Option.bind_eq_some_iff.mp h
  obtain ⟨⟨args, s₂⟩, hargs, h⟩ := Option.bind_eq_some_iff.mp h
  cases h
  obtain ⟨hgrows₁, hblocks⟩ := Yields.mapM (B := blockNumber func)
    (fun e _ => yields_compileBlock (x := x) e.2 e.1) _ _ _ rfl hblocks
  have hB : s₁.blockOf = blockNumber func := by
    funext name
    rw [FuncCompiler.blockOf, hgrows₁.blockIds]
    rfl
  obtain ⟨hgrows₂, hargs⟩ :=
    Yields.mapM (fun name _ => FuncCompiler.yields_compileLocal (blockNumber func) name)
      _ _ _ hB hargs
  have hnumbered := hgrows₂.numbered (hgrows₁.numbered (FuncCompiler.numbered_new _))
  refine ⟨s₂.localOf, hnumbered.inj, hargs _ (.refl _), hblocks _ hgrows₂.locals⟩

end Yields

end Ir
end AtomicSim
