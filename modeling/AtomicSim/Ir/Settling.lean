import AtomicSim.Ir.Operations

namespace AtomicSim

namespace Ir

open Deferral (Backlog)
open Deferred

section

variable {tm : TypeMap} {threadLocalInit : ThreadLocalKey → Option (Layout × Value)}
variable {t : ThreadId} {vals : List Value} {x : ExprCompiler} {func : Function} {c : CFunc}
variable {definitions : ℕ → Option Func}

theorem pure_thunk (deps : List Thunk) (f : List Value → Option Value) :
    (deferral tm threadLocalInit t).Pure (DataFlow.thunk deps f) := by
  intro vals
  refine ⟨(deps.mapM (Thunk.valueIn t vals)).bind f, fun s => ?_⟩
  show (deps.mapM (Thunk.valueIn t vals)).bind (fun args => s.onMemory _) = _
  cases deps.mapM (Thunk.valueIn t vals) with
  | none => rfl
  | some args => exact onMemory_pure (f args) s

theorem get_eq_valueIn (vals : List Value) :
    Thunk.get (fun i => vals[i]?) = Thunk.valueIn 0 vals := by
  funext d
  cases d <;> rfl

/-- What the thunks of the first thread come to is what its sequential execution finds. -/
theorem values_eq_sequential (l : List (List Thunk × (List Value → Option Value))) (s : Locals) :
    ((deferral tm threadLocalInit 0).values ⟨[], l.map fun e => DataFlow.thunk e.1 e.2, s⟩).map
        (fun vals => (vals, s.memory)) =
      sequential (l.map fun e => .thunk e.1 e.2) s.memory := by
  rw [sequential]
  generalize ([] : List Value) = vals
  induction l generalizing vals with
  | nil => rfl
  | cons e l ih =>
    obtain ⟨deps, f⟩ := e
    have hcall : ((deferral tm threadLocalInit 0).call vals (DataFlow.thunk deps f) s).map
          (fun r => (vals ++ [r.1], s.memory)) = execute (vals, s.memory) (.thunk deps f) := by
      rw [execute, Instr.call, get_eq_valueIn]
      show Option.map _ ((deps.mapM (Thunk.valueIn 0 vals)).bind fun args => s.onMemory _) =
        Option.map _ ((deps.mapM (Thunk.valueIn 0 vals)).bind fun args => _)
      cases deps.mapM (Thunk.valueIn 0 vals) with
      | none => rfl
      | some args =>
        show Option.map _ (Option.map _ ((f args).map _)) = Option.map _ ((f args).map _)
        cases f args <;> rfl
    rw [List.map_cons, List.map_cons, List.foldlM_cons, ← hcall]
    show Option.map _ (Option.bind (Option.map _ _) _) = _
    cases (deferral tm threadLocalInit 0).call vals (DataFlow.thunk deps f) s with
    | none => rfl
    | some r => exact ih _

theorem Function.Pure.only_decode (hpure : func.Pure) {L : Name → Option CLocal}
    (hc : FuncCompiled x L (blockNumber func) func c) {P : ThunkArgs → Prop}
    (hP : ∀ deps f, P (DataFlow.thunk deps f)) (n : ℕ) (frame : InterpFrame) (b : CBlockId) :
    Only P (decode x.tm definitions n c frame b) := by
  induction n generalizing frame b with
  | zero => trivial
  | succ n ih =>
    refine only_decode_succ (fun c' hc' frame => ?_) ih frame b
    obtain ⟨block, hmem, hblock⟩ := hc.exists_block hc'
    refine only_decodeBlock hP hblock (fun instr hi c hc frame => ?_) (fun c hc frame => ?_) frame
    · have hinstr := (hpure block hmem).instrs instr (List.mem_of_mem_filter hi)
      cases hc with
      | compute h => exact only_compute hP frame _
      | _ => exact hinstr.elim
    · have hterm := (hpure block hmem).term
      generalize block.term = term at hc hterm
      cases hc with
      | simple h => exact (only_decodeSimple hP frame _).bind fun result => only_pure _
      | _ => exact hterm.elim

/-- The names of the blocks that were visited, and the value of the thunk that was returned. -/
def visited (func : Function) (t : ThreadId) (vals : List Value)
    (r : List CBlockId × Option Thunk) : Option (List Name × Option Value) := do
  let names ← r.1.mapM fun b => func.basicBlocks[b]?.map BasicBlock.name
  let result ← r.2.mapM (Thunk.valueIn t vals)
  some (names, result)

theorem SameRun.visited {r : List CBlockId × Option Thunk} {r' : List Name × Option Value}
    (h : SameRun func t vals r r') : visited func t vals r = some r' := by
  obtain ⟨blocks, d⟩ := r
  obtain ⟨names, v⟩ := r'
  obtain ⟨hblocks, hresult⟩ := h
  have hnames : (blocks.mapM fun b => func.basicBlocks[b]?.map BasicBlock.name) = some names := by
    refine mapM_eq_some_iff_forall₂.mpr (hblocks.imp fun b name hb => ?_)
    obtain ⟨block, hblock, rfl⟩ := Numbering.exists_of_number hb
    rw [hblock, Option.map_some]
  have hvalue : d.mapM (Thunk.valueIn t vals) = some v := by
    cases hresult with
    | none => rfl
    | some hd => simp only [Option.mapM_some, hd, Option.map_eq_map, Option.map_some]
  simp only [Ir.visited, hnames, hvalue, Option.bind_eq_bind, Option.bind_some]

end

/-- What a call comes to once all thunks are computed: the blocks that it has visited, the value
that it has returned, and the memory and thread-local storage. -/
def settle (tm : TypeMap) (threadLocalInit : ThreadLocalKey → Option (Layout × Value))
    (t : ThreadId) (func : Function) (m : Decoding (List CBlockId × Option Thunk))
    (b : Backlog ThunkArgs Value Locals) :
    Option (Except Stop (List Name × Option Value) × Locals) := do
  let (ended, vals, s) ← (deferral tm threadLocalInit t).settle m b
  match ended with
  | .ok r => do
    let r ← visited func t vals r
    some (.ok r, s)
  | .error e => some (.error e, s)

/-- A compiled function is decoded to what the function means: the same blocks are visited in
each number of steps, the same value is returned, and one panics where the other does. -/
theorem settle_callImpl (x : ExprCompiler)
    (threadLocalInit : ThreadLocalKey → Option (Layout × Value)) (t : ThreadId)
    (functions : ℕ → Option Callee) (definitions : ℕ → Option Func) {func : Function} {c : CFunc}
    (hpure : func.Pure) (hw : Ssa.WellFormed x func) (hc : compileFunc x func = some c)
    (b : Backlog ThunkArgs Value Locals)
    (hb : ∀ a ∈ b.issued, (deferral x.tm threadLocalInit t).Pure a)
    {vals args : List Value} {params : List Thunk}
    (hv : (deferral x.tm threadLocalInit t).values b = some vals)
    (hargs : params.mapM (Thunk.valueIn t vals) = some args) (n : ℕ) :
    settle x.tm threadLocalInit t func (callImpl (decode x.tm definitions n) c params) b =
      (Ssa.enter (Ssa.run threadLocalInit t functions n) x func args).interpret (fun f => f)
        b.state := by
  obtain ⟨L, hcompiled⟩ := funcCompiled_of_compileFunc hc
  have honly : Only (deferral x.tm threadLocalInit t).Pure
      (callImpl (decode x.tm definitions n) c params) :=
    only_callImpl (hpure.only_decode hcompiled pure_thunk n) params
  have hruns : RunsAs x.tm threadLocalInit t _ (decode x.tm definitions n)
    (Ssa.run threadLocalInit t functions n) := runsAs n
  have hend := (realizes_callImpl hruns rfl (.inl hpure) hw hc
    (mapM_eq_some_iff_forall₂.mp hargs)).settle honly hb hv
  rw [settle]
  generalize Program.interpret _ _ b.state = o at hend ⊢
  generalize (deferral x.tm threadLocalInit t).settle _ b = o' at hend ⊢
  cases hend with
  | none => rfl
  | @some e e' h =>
    obtain ⟨result, vals', s⟩ := e
    obtain ⟨result', s'⟩ := e'
    obtain ⟨hsame, rfl⟩ := h
    cases hsame with
    | ok h => simp only [Option.bind_eq_bind, Option.bind_some, h.visited]
    | error e => rfl

/-- The phi nodes of the block `loop` read each other. -/
def swapLoop : Function where
  parameters := [.name "a", .name "b"]
  basicBlocks := [
    ⟨.name "entry", [], .simple (.br (.name "loop"))⟩,
    ⟨.name "loop", [
      .compute (.phi ⟨[(var "a", .name "entry"), (var "y", .name "loop")], .name "x"⟩),
      .compute (.phi ⟨[(var "b", .name "entry"), (var "x", .name "loop")], .name "y"⟩),
      .compute (.phi ⟨[(lit 0, .name "entry"), (var "j", .name "loop")], .name "i"⟩),
      .compute (.binop .add (var "i") (lit 1) (.name "j")),
      .compute (.iCmp .eq (var "j") (lit 2) (.name "c"))],
      .simple (.condBr (.localOperand (.name "c") (.integerType 1)) (.name "exit")
        (.name "loop"))⟩,
    ⟨.name "exit", [], .simple (.switch (var "j") [(.int 8 2, .name "done")] (.name "loop"))⟩,
    ⟨.name "done", [], .simple (.ret (some (var "x")))⟩]
where
  var (name : String) : Operand := .localOperand (.name name) (.integerType 8)
  lit (n : UInt64) : Operand := .constantOperand (.int 8 n)

theorem pure_swapLoop : swapLoop.Pure := by
  intro block hblock
  simp only [swapLoop, List.mem_cons, List.not_mem_nil, or_false] at hblock
  rcases hblock with rfl | rfl | rfl | rfl
  · exact ⟨fun instr hinstr => absurd hinstr List.not_mem_nil, trivial⟩
  · refine ⟨fun instr hinstr => ?_, trivial⟩
    simp only [List.mem_cons, List.not_mem_nil, or_false] at hinstr
    rcases hinstr with rfl | rfl | rfl | rfl | rfl <;> trivial
  · exact ⟨fun instr hinstr => absurd hinstr List.not_mem_nil, trivial⟩
  · exact ⟨fun instr hinstr => absurd hinstr List.not_mem_nil, trivial⟩

theorem wellFormed_swapLoop (x : ExprCompiler) : Ssa.WellFormed x swapLoop where
  nonempty := List.cons_ne_nil _ _
  names := by decide
  incoming := by
    have hnodup : ∀ b ∈ swapLoop.basicBlocks, ∀ phi ∈ b.phis,
        (phi.incomingValues.map Prod.snd).Nodup := by decide
    intro b hb phi hphi e he e' he' heq
    rw [List.inj_on_of_nodup_map (hnodup b hb phi hphi) he he' heq]
  cases := by
    intro b hb condition dests defaultDest hterm e he e' he'
    simp only [swapLoop, List.mem_cons, List.not_mem_nil, or_false] at hb
    rcases hb with rfl | rfl | rfl | rfl <;> cases hterm
    rw [List.mem_singleton.mp he, List.mem_singleton.mp he']
    exact fun _ _ _ _ _ => rfl

theorem settle_callImpl_swapLoop :
    let x : ExprCompiler := ⟨⟨[]⟩, ⟨[]⟩, 0⟩
    let b : Backlog ThunkArgs Value Locals :=
      ⟨[.new 8 5], [DataFlow.constant (.new 8 7)], .new .new, fun _ => []⟩
    ∃ c, compileFunc x swapLoop = some c ∧
      ∃ e ∈ settle x.tm (fun _ => none) 0 swapLoop (callImpl
          (decode x.tm (fun _ => none) 9) c [.cell 0 0, .cell 0 1]) b,
        e.1.toOption = some ([.name "entry", .name "loop", .name "loop", .name "exit",
          .name "done"], some (.new 8 7)) := by
  intro x b
  have hsome : (compileFunc x swapLoop).isSome := by decide +kernel
  obtain ⟨c, hc⟩ := Option.isSome_iff_exists.mp hsome
  refine ⟨c, hc, ?_⟩
  have hv : (deferral x.tm (fun _ => none) 0).values b = some [.new 8 5, .new 8 7] := rfl
  have hargs : ([.cell 0 0, .cell 0 1] : List Thunk).mapM (Thunk.valueIn 0 [.new 8 5, .new 8 7]) =
      some [.new 8 5, .new 8 7] := rfl
  have hcall := settle_callImpl x (fun _ => none) 0 (fun _ => none) (fun _ => none) pure_swapLoop
    (wellFormed_swapLoop x) hc b (List.forall_mem_singleton.mpr (pure_thunk [] _)) hv hargs 9
  have hrun : ∃ e ∈ (Ssa.enter (Ssa.run (fun _ => none) 0 (fun _ => none) 9) x swapLoop
      [.new 8 5, .new 8 7]).interpret (fun f => f) b.state,
      e.1.toOption = some ([.name "entry", .name "loop", .name "loop", .name "exit",
        .name "done"], some (.new 8 7)) := by decide +kernel
  rwa [← hcall] at hrun

end Ir
end AtomicSim
