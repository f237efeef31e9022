import AtomicSim.Ir.Agreement

namespace AtomicSim

namespace Ir

open FuncCompiler (OperandCompiled PhiCompiled)
open Deferral (Realizes)

/-- The thunks of a thread, each computed once the values of those before it are there. -/
def deferral (tm : TypeMap) (threadLocalInit : ThreadLocalKey → Option (Layout × Value))
    (t : ThreadId) : Deferral ThunkArgs Thunk CExpr Value Locals where
  handle := .cell t
  read vals d := d.valueIn t vals
  Known vals a := ∀ d ∈ a.operands, ∃ v, Denotes t vals d v
  call vals a s := (a.deps.mapM (Thunk.valueIn t vals)).bind fun args =>
    s.onMemory fun m => a.compute m args
  instant e := e.evaluate tm threadLocalInit t
  read_mono hd hpre := Denotes.mono hd hpre
  read_handle vals v := by
    rw [Thunk.valueIn, if_pos rfl, List.getElem?_concat_length]

section

variable {L : Name → Option CLocal} {B : Name → Option CBlockId} {t : ThreadId}
  {vals : List Value} {tm : TypeMap} {x : ExprCompiler}
  {threadLocalInit : ThreadLocalKey → Option (Layout × Value)} {frame : InterpFrame} {env : Env}

theorem call_eq {a : ThunkArgs} {args : List Value}
    (hdeps : List.Forall₂ (Denotes t vals) a.deps args) (s : Locals) :
    (deferral tm threadLocalInit t).call vals a s = s.onMemory fun m => a.compute m args := by
  show (a.deps.mapM (Thunk.valueIn t vals)).bind _ = _
  rw [mapM_eq_some_iff_forall₂.mpr hdeps, Option.bind_some]

theorem known_of_deps {a : ThunkArgs} {args : List Value}
    (hdeps : List.Forall₂ (Denotes t vals) a.deps args) (ha : ∀ e ∈ a.address, e.1 ∈ a.deps) :
    (deferral tm threadLocalInit t).Known vals a := by
  have hmem : ∀ d ∈ a.deps, ∃ v, Denotes t vals d v := by
    intro d hd
    obtain ⟨v, -, hv⟩ := exists_of_forall₂ hdeps hd
    exact ⟨v, hv⟩
  intro d hd
  rcases List.mem_append.mp hd with hd | hd
  · exact hmem d hd
  · obtain ⟨e, he, rfl⟩ := List.mem_map.mp hd
    exact hmem _ (ha e (Option.mem_toList.mp he))

theorem address_none {deps : List Thunk} :
    ∀ e ∈ (none : Option (Thunk × Layout)), e.1 ∈ deps :=
  fun e he => absurd he (Option.not_mem_none e)

theorem address_mem {address : Thunk} {layout : Layout} {deps : List Thunk}
    (h : address ∈ deps) : ∀ e ∈ some (address, layout), e.1 ∈ deps := by
  rintro e ⟨⟩
  exact h

theorem realizes_op {a : ThunkArgs} {args : List Value} {f : Memory → Option (Value × Memory)}
    (hdeps : List.Forall₂ (Denotes t vals) a.deps args) (ha : ∀ e ∈ a.address, e.1 ∈ a.deps)
    (hf : ∀ m, a.compute m args = f m) :
    (deferral tm threadLocalInit t).Realizes (ε := Stop) (Denotes t) vals (Deferred.issue a)
      (Ssa.onMemory f) := by
  apply Realizes.issue_act (known_of_deps hdeps ha)
  intro s
  rw [call_eq hdeps, funext hf]

theorem onMemory_pure (o : Option Value) (s : Locals) :
    (s.onMemory fun m => o.map fun v => (v, m)) = o.map fun v => (v, s) := by
  cases o <;> rfl

theorem realizes_thunk {deps : List Thunk} {args : List Value} {f : List Value → Option Value}
    (hdeps : List.Forall₂ (Denotes t vals) deps args) :
    (deferral tm threadLocalInit t).Realizes (ε := Stop) (Denotes t) vals
      (Deferred.issue (DataFlow.thunk deps f)) (liftM (f args)) := by
  apply Realizes.issue_pure (known_of_deps hdeps address_none)
  intro s
  rw [call_eq hdeps]
  exact onMemory_pure (f args) s

theorem realizes_constant (v : Value) :
    (deferral tm threadLocalInit t).Realizes (ε := Stop) (Denotes t) vals
      (Deferred.issue (DataFlow.constant v)) (pure v) :=
  realizes_thunk .nil

theorem value_eq {k : Constant} {e : CExpr} (he : x.compileConst k = some e) (s : Locals) :
    (x.value threadLocalInit t k s).map (fun r => (r.1.2, r.2)) =
      e.evaluate x.tm threadLocalInit t s := by
  rw [ExprCompiler.value_of_compileConst k he, CExpr.typed, map_eq_pure_bind]
  show Option.map _ ((e.evaluate x.tm threadLocalInit t s).bind _) = _
  cases e.evaluate x.tm threadLocalInit t s <;> rfl

/-- What is fixed when it is compiled is not evaluated. -/
theorem constant_eq {k : Constant} {e : CExpr} (he : x.compileConst k = some e) :
    Ssa.constant x threadLocalInit t k =
      e.asConst.elim (Program.op (e.evaluate x.tm threadLocalInit t))
        fun const => pure const.2 := by
  rw [Ssa.constant, he, Program.liftM_some_bind, funext (value_eq he)]

theorem interpret_constant {k : Constant} {e : CExpr} (he : x.compileConst k = some e)
    (s : Locals) : (Ssa.constant x threadLocalInit t k).interpret (fun f => f) s =
      (x.value threadLocalInit t k s).map fun r => (.ok r.1.2, r.2) := by
  have hvalue : (e.evaluate x.tm threadLocalInit t s).map
        (fun r => (Except.ok (ε := Stop) r.1, r.2)) =
      (x.value threadLocalInit t k s).map fun r => (.ok r.1.2, r.2) := by
    rw [← value_eq he, Option.map_map]
    rfl
  rw [constant_eq he, ← hvalue]
  cases e with
  | const cls v => rfl
  | threadLocal cls key | apply oper args => exact Option.map_eq_bind.symm

theorem realizes_decodeOperand {operand : Operand} {c : COperand}
    (h : OperandCompiled x L operand c) (ha : Agree L t vals frame.temps env) :
    (deferral x.tm threadLocalInit t).Realizes (Denotes t) vals (decodeOperand frame c)
      (Ssa.operand x threadLocalInit t env operand) := by
  cases h with
  | @localOperand name ty cls l hcls hl => exact .lift (ha name l hl)
  | @constantOperand k e he =>
    rw [Ssa.operand, constant_eq he]
    cases e with
    | const cls v => exact .pure rfl
    | threadLocal cls key | apply oper args =>
      -- evaluated while the instruction is decoded, and then handed on as a thunk
      exact .instant (fun s => rfl) fun v => realizes_constant v
  | metadataOperand hcls => exact .pure rfl

theorem realizes_decodeOperands {operands : List Operand} {cs : List COperand}
    (h : List.Forall₂ (OperandCompiled x L) operands cs) (ha : Agree L t vals frame.temps env) :
    (deferral x.tm threadLocalInit t).Realizes
      (fun vals ds vs => List.Forall₂ (Denotes t vals) ds vs) vals
      (decodeOperands frame cs)
      (operands.mapM (Ssa.operand x threadLocalInit t env)) := by
  apply Realizes.mapM
  · exact fun hpre hd => hd.mono hpre
  · exact h.imp fun operand c hc vals' hpre => realizes_decodeOperand hc (ha.mono hpre)

section Accesses

variable {address : Thunk} {p : Value} (hp : Denotes t vals address p)

include hp

theorem realizes_load (layout : Layout) (atomicity : Ordering) :
    (deferral tm threadLocalInit t).Realizes (Denotes t) vals
      (Deferred.issue (DataFlow.load address layout atomicity)) (Ssa.load p.asU64 layout) := by
  apply realizes_op (.cons hp .nil) (address_mem List.mem_cons_self)
  intro m
  rw [compute_load]

theorem realizes_store (layout : Layout) (atomicity : Ordering) {value : Thunk} {v : Value}
    (hv : Denotes t vals value v) :
    (deferral tm threadLocalInit t).Realizes (Denotes t) vals
      (Deferred.issue (DataFlow.store address layout value atomicity))
      (Ssa.store p.asU64 v) := by
  apply realizes_op (.cons hp (.cons hv .nil)) (address_mem List.mem_cons_self)
  intro m
  rw [compute_store]

theorem realizes_cmpXchg (layout : Layout) (success failure : Ordering)
    {expected replacement : Thunk} {e r : Value} (he : Denotes t vals expected e)
    (hr : Denotes t vals replacement r) :
    (deferral tm threadLocalInit t).Realizes (Denotes t) vals
      (Deferred.issue (FlowCtx.cmpxchg layout address expected replacement success failure))
      (Ssa.cmpXchg layout p.asU64 e r) :=
  realizes_op (.cons hp (.cons he (.cons hr .nil))) (address_mem List.mem_cons_self) fun _ => rfl

theorem realizes_atomicRMW (layout : Layout) (atomicity : Ordering)
    {oper : Value → Value → Option Value} {value : Thunk} {v : Value}
    (hv : Denotes t vals value v) :
    (deferral tm threadLocalInit t).Realizes (Denotes t) vals
      (Deferred.issue (FlowCtx.atomicrmw layout address value atomicity oper))
      (Ssa.atomicRMW layout p.asU64 fun current => oper current v) :=
  realizes_op (.cons hp (.cons hv .nil)) (address_mem List.mem_cons_self) fun _ => rfl

end Accesses

theorem realizes_alloca (layout : Layout) {count : Thunk} {n : Value}
    (hn : Denotes t vals count n) :
    (deferral tm threadLocalInit t).Realizes (Denotes t) vals
      (Deferred.issue (FlowCtx.allocaArgs layout count))
      (liftM (layout.repeated .none n.asU64) >>= Ssa.alloc) := by
  apply Realizes.issue_lift_act (known_of_deps (.cons hn .nil) address_none)
  intro s
  rw [call_eq (.cons hn .nil)]
  show Option.map _ ((layout.repeated .none n.asU64).bind fun layout =>
    (s.memory.alloc layout).bind _) = _
  cases layout.repeated .none n.asU64 with
  | none => rfl
  | some layout =>
    show Option.map _ ((s.memory.alloc layout).bind _) =
      Option.map _ ((s.memory.alloc layout).map _)
    cases s.memory.alloc layout <;> rfl

theorem realizes_assign {dest : Name} {l : CLocal} (hinj : PartialMap.Injective L)
    (hl : L dest = some l) (ha : Agree L t vals frame.temps env) {m : Decoding Thunk}
    {r : Execution Value} (h : (deferral tm threadLocalInit t).Realizes (Denotes t) vals m r) :
    (deferral tm threadLocalInit t).Realizes
      (fun vals frame env => Agree L t vals frame.temps env) vals
      (do
        let d ← m
        pure (frame.assign l d))
      (do
        let v ← r
        pure (Function.update env dest (some v))) := by
  apply h.bind
  intro vals₁ d v hpre hd
  exact .pure ((ha.mono hpre).assign hinj hl hd)

variable {call : ℕ → List Thunk → Decoding Thunk} {call' : ℕ → List Value → Execution Value}

theorem classOf_eq {operand : Operand} {c : COperand} (h : OperandCompiled x L operand c) :
    Ssa.classOf x operand = some c.cls := by
  obtain ⟨k, hk, hcls, -⟩ := h.exists_known
  rw [Ssa.classOf, hk, ← hcls]
  rfl

/-- The functions that are called do what their references do. -/
def Callees (tm : TypeMap) (threadLocalInit : ThreadLocalKey → Option (Layout × Value))
    (t : ThreadId) (call : ℕ → List Thunk → Decoding Thunk)
    (call' : ℕ → List Value → Execution Value) : Prop :=
  ∀ vals address ds vs, List.Forall₂ (Denotes t vals) ds vs →
    (deferral tm threadLocalInit t).Realizes (Denotes t) vals (call address ds) (call' address vs)

theorem realizes_call_bind {α β : Type} {R : List Value → α → β → Prop}
    (hcall : Callees x.tm threadLocalInit t call call') {function : Operand} {f : COperand}
    {arguments : List Operand} {cs : List COperand} (hfunction : OperandCompiled x L function f)
    (harguments : List.Forall₂ (OperandCompiled x L) arguments cs)
    (ha : Agree L t vals frame.temps env) {k : Thunk → Decoding α} {k' : Value → Execution β}
    (hk : ∀ vals' d v, vals <+: vals' → Denotes t vals' d v →
      (deferral x.tm threadLocalInit t).Realizes R vals' (k d) (k' v)) :
    (deferral x.tm threadLocalInit t).Realizes R vals
      (do
        let f ← decodeOperand frame f
        let args ← decodeOperands frame cs
        let f ← Deferred.await f
        let result ← call f.asU64 args
        k result)
      (do
        let f ← Ssa.operand x threadLocalInit t env function
        let args ← arguments.mapM (Ssa.operand x threadLocalInit t env)
        let result ← call' f.asU64 args
        k' result) := by
  apply (realizes_decodeOperand hfunction ha).bind
  intro vals₁ d p hpre hp
  apply (realizes_decodeOperands harguments (ha.mono hpre)).bind
  intro vals₂ ds vs hpre₂ hds
  apply Realizes.await_bind (hp.mono hpre₂)
  apply (hcall vals₂ p.asU64 ds vs hds).bind
  exact fun vals₃ d' v hpre₃ hv => hk vals₃ d' v ((hpre.trans hpre₂).trans hpre₃) hv

theorem realizes_decodeInstr (hinj : PartialMap.Injective L) {instr : Instruction} {c : CInstr}
    (hcall : instr.Pure ∨ Callees x.tm threadLocalInit t call call') (h : InstrCompiled x L instr c)
    (ha : Agree L t vals frame.temps env) :
    (deferral x.tm threadLocalInit t).Realizes
      (fun vals frame env => Agree L t vals frame.temps env) vals
      (decodeInstr x.tm call frame c)
      (Ssa.instruction x threadLocalInit t call' env instr) := by
  cases h with
  | compute h =>
    rw [Ssa.instruction, h.operation]
    apply (realizes_decodeOperands h.operands ha).bind
    intro vals₁ deps args hpre hdeps
    exact realizes_assign hinj h.dest (ha.mono hpre) (realizes_thunk hdeps)
  | @alloca allocatedType numElements dest alignment c cls alignBits hdest hcount hcls hbits
      hlayout =>
    rw [Ssa.instruction, hcls, Program.liftM_some_bind, hbits, Program.liftM_some_bind, hlayout,
      Program.liftM_some_bind]
    apply (realizes_decodeOperand hcount ha).bind
    intro vals₁ d n hpre hn
    rw [← bind_assoc]
    exact realizes_assign hinj hdest (ha.mono hpre) (realizes_alloca c.layout hn)
  | @load address dest atomicity c hdest haddress hatomicity =>
    rw [Ssa.instruction, classOf_eq haddress, Program.liftM_some_bind]
    apply (realizes_decodeOperand haddress ha).bind
    intro vals₁ d p hpre hp
    cases c.address.cls.target x.tm with
    | none => exact .fail
    | some target =>
      exact realizes_assign hinj hdest (ha.mono hpre) (realizes_load hp target.layout c.atomicity)
  | @store address value atomicity c haddress hvalue hatomicity =>
    apply (realizes_decodeOperand haddress ha).bind
    intro vals₁ d p hpre hp
    apply (realizes_decodeOperand hvalue (ha.mono hpre)).bind
    intro vals₂ d' v hpre' hv
    have ha₂ := ha.mono (hpre.trans hpre')
    apply (realizes_store (hp.mono hpre') c.value.cls.layout c.atomicity hv).bind
    exact fun vals₃ _ _ hpre₃ _ => .pure (ha₂.mono hpre₃)
  | @cmpXchg address expected replacement dest atomicity failureMemoryOrdering c hdest haddress
      hexpected hreplacement hsuccess hfailure =>
    rw [Ssa.instruction, classOf_eq hexpected, Program.liftM_some_bind, ← hsuccess, ← hfailure]
    apply (realizes_decodeOperand haddress ha).bind
    intro vals₁ d p hpre hp
    apply (realizes_decodeOperand hexpected (ha.mono hpre)).bind
    intro vals₂ d' e hpre' he
    have ha₂ := ha.mono (hpre.trans hpre')
    apply (realizes_decodeOperand hreplacement ha₂).bind
    intro vals₃ d'' r hpre₃ hr
    cases Ordering.ofMemoryOrdering c.success with
    | none => exact .fail
    | some success =>
      cases Ordering.ofMemoryOrdering c.failure with
      | none => exact .fail
      | some failure =>
        exact realizes_assign hinj hdest (ha₂.mono hpre₃) (realizes_cmpXchg
          (hp.mono (hpre'.trans hpre₃)) c.expected.cls.layout success failure (he.mono hpre₃) hr)
  | @atomicRMW rmw address value dest atomicity c name hdest haddress hvalue hname hoperation
      hatomicity =>
    rw [Ssa.instruction, hname, Program.liftM_some_bind, classOf_eq hvalue,
      Program.liftM_some_bind, hoperation, Program.liftM_some_bind]
    apply (realizes_decodeOperand haddress ha).bind
    intro vals₁ d p hpre hp
    apply (realizes_decodeOperand hvalue (ha.mono hpre)).bind
    intro vals₂ d' v hpre' hv
    exact realizes_assign hinj hdest (ha.mono (hpre.trans hpre'))
      (realizes_atomicRMW (hp.mono hpre') c.value.cls.layout c.atomicity hv)
  | @call function arguments dest c hdest hfunc harguments =>
    obtain ⟨l, func, cs⟩ := c
    rw [Ssa.instruction, decodeInstr]
    dsimp only at hdest hfunc harguments ⊢
    cases hfunc with
    | none => exact .fail
    | some hfunc =>
      obtain hpure | hcall := hcall
      · exact hpure.elim
      apply realizes_call_bind hcall hfunc harguments ha
      intro vals₁ d v hpre hd
      cases hdest with
      | none => exact .pure (ha.mono hpre)
      | some hl => exact .pure ((ha.mono hpre).assign hinj hl hd)
  | fence => exact .pure ha
  | freeze | unknown => exact .fail

theorem realizes_decodePhis (hinj : PartialMap.Injective L) (hblockInj : PartialMap.Injective B)
    {phis : List Phi} {cs : List CPhi} (h : List.Forall₂ (PhiCompiled x L B) phis cs)
    (hsame : ∀ phi ∈ phis, ∀ e ∈ phi.incomingValues, ∀ e' ∈ phi.incomingValues,
      e.2 = e'.2 → e.1 = e'.1)
    {origin : Option Name} (ho : Option.Rel (fun b name => B name = some b) frame.origin origin)
    (ha : Agree L t vals frame.temps env) :
    (deferral x.tm threadLocalInit t).Realizes
      (fun vals frame env => Agree L t vals frame.temps env) vals
      (decodePhis frame cs) (Ssa.phis x threadLocalInit t env origin phis) := by
  have hphi : ∀ {vals phi c}, Agree L t vals frame.temps env →
      (∀ e ∈ phi.incomingValues, ∀ e' ∈ phi.incomingValues, e.2 = e'.2 → e.1 = e'.1) →
      PhiCompiled x L B phi c →
      (deferral x.tm threadLocalInit t).Realizes
        (fun vals (e : CLocal × Thunk) (e' : Name × Value) =>
          L e'.1 = some e.1 ∧ Denotes t vals e.2 e'.2) vals
        (do
          let origin ← frame.origin
          let operand ← c.mapping.lookup origin
          let thunk ← decodeOperand frame operand
          pure (c.dest, thunk))
        (do
          let origin ← origin
          let incoming ← (phi.incomingValues.map Prod.swap).lookup origin
          let value ← Ssa.operand x threadLocalInit t env incoming
          pure (phi.dest, value)) := by
    intro vals phi c ha hsame hc
    generalize frame.origin = fo at ho ⊢
    cases ho with
    | none => exact .fail
    | some hb =>
      have hlookup := rel_lookup_phi hblockInj hc hsame hb
      apply (Realizes.lift (Q := fun _ c operand => OperandCompiled x L operand c) hlookup).bind
      intro vals₁ c' operand hpre hc'
      apply (realizes_decodeOperand hc' (ha.mono hpre)).bind
      exact fun vals₂ d v hpre₂ hd => .pure ⟨hc.dest, hd⟩
  apply (Realizes.mapM (Q := fun vals (e : CLocal × Thunk) (e' : Name × Value) =>
    L e'.1 = some e.1 ∧ Denotes t vals e.2 e'.2) (fun hpre he => ⟨he.1, he.2.mono hpre⟩) _).bind
  · intro vals₁ ds vs hpre hds
    exact .pure (Agree.assignAll hinj hds (ha.mono hpre))
  · refine (List.forall₂_and_left _ _ |>.mpr ⟨hsame, h⟩).imp fun phi c hc vals' hpre => ?_
    exact hphi (ha.mono hpre) hc.1 hc.2

variable (t threadLocalInit) in
/-- The values of the cases of a switch are fixed. -/
theorem exists_cases {dests : List (Constant × Name)} {targets : List (Value × CBlockId)}
    (h : List.Forall₂ (fun e e' => (∃ cls, x.compileConst e.1 = some (.const cls e'.1)) ∧
      B e.2 = some e'.2) dests targets) :
    ∃ cases : List (Value × Name), (dests.mapM fun (pat, target) => do
        let pat ← Ssa.constant x threadLocalInit t pat
        pure (pat, target)) = pure cases ∧
      List.Forall₂ (fun e e' => e.1 = e'.1 ∧ B e.2 = some e'.2) cases targets ∧
      ∀ e ∈ cases, ∃ d ∈ dests, d.2 = e.2 ∧ ∃ cls, x.compileConst d.1 = some (.const cls e.1) := by
  induction h with
  | nil => exact ⟨[], rfl, .nil, fun e he => absurd he List.not_mem_nil⟩
  | @cons d e' dests targets hd hrest ih =>
    obtain ⟨cases, hcases, htargets, hmem⟩ := ih
    obtain ⟨⟨cls, hconst⟩, hb⟩ := hd
    obtain ⟨pat, target⟩ := d
    refine ⟨(e'.1, target) :: cases, ?_, .cons ⟨rfl, hb⟩ htargets, ?_⟩
    · rw [List.mapM_cons, hcases]
      dsimp only
      rw [constant_eq hconst]
      rfl
    · intro e he
      rcases List.mem_cons.mp he with rfl | he
      · exact ⟨(pat, target), List.mem_cons_self, rfl, cls, hconst⟩
      · obtain ⟨d', hd', hrest⟩ := hmem e he
        exact ⟨d', List.mem_cons_of_mem _ hd', hrest⟩

theorem realizes_decodeSimple {term : AtomicSim.Terminator} {c : AtomicSim.CTerm}
    (h : FuncCompiler.TermCompiled x L B term c)
    (hsame : ∀ condition dests defaultDest, term = .switch condition dests defaultDest →
      ∀ e ∈ dests, ∀ e' ∈ dests, ∀ cls cls' value, x.compileConst e.1 = some (.const cls value) →
      x.compileConst e'.1 = some (.const cls' value) → e.2 = e'.2)
    (ha : Agree L t vals frame.temps env) :
    (deferral x.tm threadLocalInit t).Realizes (SameResult B t) vals (decodeSimple frame c)
      (Ssa.simple x threadLocalInit t env term) := by
  cases h with
  | ret h =>
    apply (realizes_decodeOperand h ha).bind
    exact fun vals₁ d v hpre hd => .pure (.ret hd)
  | retVoid cls => exact .pure (.ret rfl)
  | br hb => exact .pure (.jump hb)
  | condBr h hb hb' =>
    apply (realizes_decodeOperand h ha).bind
    intro vals₁ d v hpre hd
    apply Realizes.await_bind hd
    cases v.unwrapBool with
    | none => exact .fail
    | some b =>
      cases b with
      | false => exact .pure (.jump hb')
      | true => exact .pure (.jump hb)
  | @switch condition c dests targets dest b h ht hb =>
    apply (realizes_decodeOperand h ha).bind
    intro vals₁ d v hpre hd
    apply Realizes.await_bind hd
    obtain ⟨cases, hcases, htargets, hmem⟩ := exists_cases t threadLocalInit ht
    rw [hcases, pure_bind]
    refine .pure (.jump (rel_getD (R := fun b name => B name = some b) ?_ hb))
    apply rel_lookup (P := fun v v' : Value => v = v')
    · rwa [List.reverse_reverse]
    · rintro v₀ _ rfl
      rfl
    · intro e he e' he' heq
      obtain ⟨d₁, hd₁, hname, cls, hconst⟩ := hmem e he
      obtain ⟨d₂, hd₂, hname', cls', hconst'⟩ := hmem e' he'
      rw [← hname, ← hname']
      exact hsame condition dests dest rfl d₁ hd₁ d₂ hd₂ cls cls' e.1 hconst (heq ▸ hconst')
  | unreachable => exact .fail

theorem realizes_decodeTerm (hinj : PartialMap.Injective L) {term : Terminator} {c : CTerm}
    (hcall : term.Pure ∨ Callees x.tm threadLocalInit t call call') (h : TermCompiled x L B term c)
    (hsame : ∀ condition dests defaultDest, term = .simple (.switch condition dests defaultDest) →
      ∀ e ∈ dests, ∀ e' ∈ dests, ∀ cls cls' value, x.compileConst e.1 = some (.const cls value) →
      x.compileConst e'.1 = some (.const cls' value) → e.2 = e'.2)
    (ha : Agree L t vals frame.temps env) :
    (deferral x.tm threadLocalInit t).Realizes
      (fun vals e e' => Agree L t vals e.1.temps e'.1 ∧ SameResult B t vals e.2 e'.2) vals
      (decodeTerm call frame c) (Ssa.terminator x threadLocalInit t call' env term) := by
  cases h with
  | simple h =>
    apply (realizes_decodeSimple h (fun _ _ _ hterm => hsame _ _ _ (congrArg _ hterm)) ha).bind
    exact fun vals₁ result result' hpre hresult => .pure ⟨ha.mono hpre, hresult⟩
  | invoke hfunction harguments hdest htarget =>
    obtain hpure | hcall := hcall
    · exact hpure.elim
    apply realizes_call_bind hcall hfunction harguments ha
    intro vals₁ d v hpre hd
    exact .pure ⟨(ha.mono hpre).assign hinj hdest hd, .jump htarget⟩
  | resume => exact .fail

theorem realizes_decodeBlock (hinj : PartialMap.Injective L) (hblockInj : PartialMap.Injective B)
    {func : Function} (hw : Ssa.WellFormed x func) {block : BasicBlock}
    (hmem : block ∈ func.basicBlocks)
    (hcall : block.Pure ∨ Callees x.tm threadLocalInit t call call') {c : CBlock}
    (h : BlockCompiled x L B block c) {origin : Option Name}
    (ho : Option.Rel (fun b name => B name = some b) frame.origin origin)
    (ha : Agree L t vals frame.temps env) :
    (deferral x.tm threadLocalInit t).Realizes
      (fun vals e e' => Agree L t vals e.1.temps e'.1 ∧ SameResult B t vals e.2 e'.2) vals
      (decodeBlock x.tm call frame c)
      (Ssa.block x threadLocalInit t call' env origin block) := by
  apply (realizes_decodePhis hinj hblockInj h.phis (hw.incoming block hmem) ho ha).bind
  intro vals₁ frame₁ env₁ hpre ha₁
  have hbody : (deferral x.tm threadLocalInit t).Realizes
      (fun vals frame env => Agree L t vals frame.temps env) vals₁
      (c.instrs.foldlM (decodeInstr x.tm call) frame₁)
      (block.body.foldlM (Ssa.instruction x threadLocalInit t call') env₁) := by
    have hinstrs : List.Forall₂ (fun instr c => (instr.Pure ∨ Callees x.tm threadLocalInit t call
        call') ∧ InstrCompiled x L instr c) block.body c.instrs := by
      refine (List.forall₂_and_left _ _).mpr ⟨fun instr hinstr => ?_, h.instrs⟩
      exact hcall.imp_left fun hpure => hpure.instrs instr (List.mem_of_mem_filter hinstr)
    refine Realizes.foldlM
      (Q := fun vals (frame : InterpFrame) env => Agree L t vals frame.temps env) ?_ hinstrs ha₁
    exact fun hc ha => realizes_decodeInstr hinj hc.1 hc.2 ha
  apply hbody.bind
  intro vals₂ frame₂ env₂ hpre₂ ha₂
  exact realizes_decodeTerm hinj (hcall.imp_left BasicBlock.Pure.term) h.term (hw.cases block hmem)
    ha₂

end

section Native

variable {t : ThreadId} {vals : List Value} {tm : TypeMap}
  {threadLocalInit : ThreadLocalKey → Option (Layout × Value)}

theorem realizes_await {m : Decoding Thunk} {r : Execution Value}
    (h : (deferral tm threadLocalInit t).Realizes (Denotes t) vals m r) :
    (deferral tm threadLocalInit t).Realizes (fun _ v v' => v = v') vals
      (m >>= Deferred.await) r := by
  rw [← bind_pure r]
  apply h.bind
  exact fun vals₁ d v hpre hd => .await hd (.ret rfl)

theorem realizes_flowOp (o : FlowOp) :
    (deferral tm threadLocalInit t).Realizes (fun _ v v' => v = v') vals o.decode
      (Ssa.flowOp o) := by
  cases o with
  | alloc layout => exact realizes_await (realizes_op .nil address_none fun _ => rfl)
  | free ptr => exact realizes_await (realizes_op .nil address_none fun _ => rfl)
  | load address layout =>
    apply (realizes_constant (Process.addr address)).bind (g := fun p => Ssa.load p.asU64 layout)
    exact fun vals₁ d p hpre hp => realizes_await (realizes_load hp layout .none)
  | store address value =>
    apply (realizes_constant (Process.addr address)).bind (g := fun p => Ssa.store p.asU64 value)
    intro vals₁ d p hpre hp
    apply (realizes_constant value).bind (g := fun v => Ssa.store p.asU64 v)
    exact fun vals₂ d' v hpre₂ hv =>
      realizes_await (realizes_store (hp.mono hpre₂) _ .none hv)
  | cmpxchg address expected replacement success failure =>
    apply (realizes_constant (Process.addr address)).bind
      (g := fun p => Ssa.cmpXchg i64 p.asU64 (.new 64 expected) (.new 64 replacement))
    intro vals₁ d p hpre hp
    apply (realizes_constant (.new 64 expected)).bind
      (g := fun e => Ssa.cmpXchg i64 p.asU64 e (.new 64 replacement))
    intro vals₂ d₂ e hpre₂ he
    apply (realizes_constant (.new 64 replacement)).bind (g := fun r => Ssa.cmpXchg i64 p.asU64 e r)
    exact fun vals₃ d₃ r hpre₃ hr => realizes_await
      (realizes_cmpXchg (hp.mono (hpre₂.trans hpre₃)) i64 success failure (he.mono hpre₃) hr)

theorem realizes_awaits {α β : Type} {R : List Value → α → β → Prop} {ds : List Thunk}
    {vs : List Value} (hds : List.Forall₂ (Denotes t vals) ds vs) {k : List Value → Decoding α}
    {r : Execution β} (h : (deferral tm threadLocalInit t).Realizes R vals (k vs) r) :
    (deferral tm threadLocalInit t).Realizes R vals (ds.mapM Deferred.await >>= k) r := by
  induction hds generalizing k with
  | nil => exact h
  | @cons d v ds vs hd hrest ih =>
    rw [List.mapM_cons, bind_assoc]
    apply Realizes.await_bind hd
    rw [bind_assoc]
    exact ih h

theorem realizes_nativeFn {arity : ℕ} {f : List Value → Flow Value} {ds : List Thunk}
    {vs : List Value} (hds : List.Forall₂ (Denotes t vals) ds vs) :
    (deferral tm threadLocalInit t).Realizes (Denotes t) vals (nativeFn arity f ds)
      (if vs.length = arity then (f vs).translate Ssa.flowOp else .fail) := by
  rw [nativeFn, fromThunksImpl, bind_assoc]
  apply realizes_awaits (List.forall₂_take arity hds)
  rw [hds.length_eq]
  split_ifs with hlen
  · rw [← hlen, List.take_length, pure_bind, ← bind_pure ((f vs).translate Ssa.flowOp)]
    apply (Realizes.translate (fun vals o => realizes_flowOp o) (f vs)).bind
    rintro vals₁ v _ hpre rfl
    exact realizes_constant v
  · exact .fail

end Native

section Calls

variable {L : Name → Option CLocal} {t : ThreadId} {vals : List Value} {x : ExprCompiler}
  {tm : TypeMap} {threadLocalInit : ThreadLocalKey → Option (Layout × Value)}

theorem exists_compiled {func : Function} {c : CFunc} (hw : Ssa.WellFormed x func)
    (hc : FuncCompiled x L (blockNumber func) func c) {name : Name} {b : CBlockId}
    (hb : blockNumber func name = some b) :
    ∃ block ∈ func.basicBlocks, ∃ c' : CBlock,
      (func.basicBlocks.find? fun b => b.name = name) = some block ∧ c.blocks[b]? = some c' ∧
      c'.id = b ∧ BlockCompiled x L (blockNumber func) block c' := by
  obtain ⟨block, hblock, rfl⟩ := Numbering.exists_of_number hb
  have hmem := List.mem_of_getElem? hblock
  have hrel : Option.Rel (fun e (c' : CBlock) => c'.id = e.2 ∧
      BlockCompiled x L (blockNumber func) e.1 c') func.basicBlocks.zipIdx[b]? c.blocks[b]? :=
    rel_getElem? hc.blocks b
  rw [List.getElem?_zipIdx, hblock] at hrel
  generalize hcb : c.blocks[b]? = o at hrel
  cases hrel with
  | @some _ c' hrel =>
    have hid : c'.id = b := hrel.1.trans (Nat.zero_add b)
    exact ⟨block, hmem, c', Numbering.find?_name hw.names hmem, rfl, hid, hrel.2⟩

/-- A function of the source program and what it is compiled to, or the same native function. -/
inductive Linked (tm : TypeMap) : Callee → Func → Prop
  | function {x : ExprCompiler} {func : Function} {c : CFunc} (htm : x.tm = tm)
    (hw : Ssa.WellFormed x func) (hc : compileFunc x func = some c) :
    Linked tm (.function x func) (.compiled c)
  | comp (f : Memory → List Value → Option (Value × Memory)) : Linked tm (.comp f) (.comp f)
  | native (arity : ℕ) (f : List Value → Flow Value) : Linked tm (.native arity f) (.native arity f)
  | bomb : Linked tm .bomb .bomb

/-- The blocks visited are the same, and so is what is returned. -/
def SameRun (func : Function) (t : ThreadId) (vals : List Value)
    (r : List CBlockId × Option Thunk) (r' : List Name × Option Value) : Prop :=
  List.Forall₂ (fun b name => blockNumber func name = some b) r.1 r'.1 ∧
    Option.Rel (Denotes t vals) r.2 r'.2

variable {functions : ℕ → Option Callee} {definitions : ℕ → Option Func}

/-- What is run from a block of some function on is what the function means there. -/
def RunsAs (tm : TypeMap) (threadLocalInit : ThreadLocalKey → Option (Layout × Value))
    (t : ThreadId) (P : Function → Prop) (decode : Decoder) (run : Ssa.Runner) : Prop :=
  ∀ {x func c L vals frame env origin name b}, x.tm = tm → P func → Ssa.WellFormed x func →
    FuncCompiled x L (blockNumber func) func c → blockNumber func name = some b →
    Option.Rel (fun b name => blockNumber func name = some b) frame.origin origin →
    Agree L t vals frame.temps env → (deferral tm threadLocalInit t).Realizes (SameRun func t) vals
      (decode c frame b) (run x func env origin name)

section

variable {P : Function → Prop} {decode : Decoder} {run : Ssa.Runner}
  (h : RunsAs tm threadLocalInit t P decode run)

include h

theorem realizes_callImpl {func : Function} {c : CFunc} (htm : x.tm = tm) (hP : P func)
    (hw : Ssa.WellFormed x func) (hc : compileFunc x func = some c) {ds : List Thunk}
    {vs : List Value} (hds : List.Forall₂ (Denotes t vals) ds vs) :
    (deferral tm threadLocalInit t).Realizes (SameRun func t) vals (callImpl decode c ds)
      (Ssa.enter run x func vs) := by
  obtain ⟨L, hcompiled⟩ := funcCompiled_of_compileFunc hc
  obtain ⟨entry, hentry⟩ : ∃ entry, func.basicBlocks.head? = some entry :=
    Option.ne_none_iff_exists'.mp fun hnone => hw.nonempty (List.head?_eq_none_iff.mp hnone)
  rw [callImpl, Ssa.enter, hentry, Program.liftM_some_bind, hcompiled.args.length_eq,
    hds.length_eq]
  split_ifs with hlen
  · have hnumber : blockNumber func entry.name = some 0 :=
      Numbering.number_of_getElem? hw.names (List.head?_eq_getElem? ▸ hentry)
    refine h htm hP hw hcompiled hnumber ?_ ?_
    · rw [InterpFrame.origin_assignAll]
      exact .none
    · exact Agree.assignAll hcompiled.inj (forall₂_zip hcompiled.args.flip hds) .empty
  · exact .fail

theorem callees_callImp (hP : ∀ func, P func)
    (hl : ∀ address, Option.Rel (Linked tm) (functions address) (definitions address)) :
    Callees tm threadLocalInit t (callImp definitions decode) (Ssa.callImp functions run) := by
  intro vals address ds vs hds
  have hlinked := hl address
  rw [callImp, Ssa.callImp]
  generalize functions address = callee, definitions address = func at hlinked
  cases hlinked with
  | none => exact .fail
  | some hlinked =>
    cases hlinked with
    | comp f => exact realizes_op (a := ⟨none, .none, ds, f⟩) hds address_none fun _ => rfl
    | native arity f => exact realizes_nativeFn hds
    | bomb => exact .fail
    | @function x func c htm hw hc =>
      apply (realizes_callImpl h htm (hP func) hw hc hds).bind
      rintro vals₁ ⟨blocks, d⟩ ⟨names, v⟩ hpre ⟨-, hresult⟩
      cases hresult with
      | none => exact .raise Stop.fuel
      | some hd => exact .pure hd

end

/-- In a function that calls another one, everything that is called has to be linked. -/
theorem runsAs (n : ℕ) : RunsAs tm threadLocalInit t
    (fun func => func.Pure ∨
      ∀ address, Option.Rel (Linked tm) (functions address) (definitions address))
    (decode tm definitions n) (Ssa.run threadLocalInit t functions n) := by
  induction n with
  | zero => exact fun _ _ _ _ _ _ _ => .pure ⟨.nil, .none⟩
  | succ n ih =>
    rintro x func c L vals frame env origin name b rfl hP hw hc hb ho ha
    obtain ⟨block, hmem, c', hfind, hget, rfl, hcompiled⟩ := exists_compiled hw hc hb
    have hcall : block.Pure ∨ Callees x.tm threadLocalInit t
        (callImp definitions (decode x.tm definitions n))
        (Ssa.callImp functions (Ssa.run threadLocalInit t functions n)) := by
      cases hP with
      | inl hpure => exact .inl (hpure block hmem)
      | inr hl =>
        refine .inr (callees_callImp (P := fun _ => True) ?_ (fun _ => trivial) hl)
        exact fun htm _ => ih htm (.inr hl)
    rw [decode, Ssa.run, hfind, hget, Program.liftM_some_bind, Program.liftM_some_bind]
    refine Realizes.bind (realizes_decodeBlock hc.inj
      (Numbering.number_injective func.basicBlocks) hw hmem hcall hcompiled ho ha) ?_
    rintro vals₁ ⟨frame₁, result⟩ ⟨env₁, result'⟩ hpre ⟨ha₁, hresult⟩
    cases hresult with
    | @jump name' b' hb' =>
      have hrest : (deferral x.tm threadLocalInit t).Realizes (SameRun func t) vals₁
          (decode x.tm definitions n c ⟨some c'.id, frame₁.temps⟩ b')
          (Ssa.run threadLocalInit t functions n x func env₁ (some name) name') :=
        ih rfl hP hw hc hb' (.some hb) ha₁
      apply hrest.bind
      rintro vals₂ ⟨blocks, d⟩ ⟨names, v⟩ hpre₂ ⟨hnames, hd⟩
      exact .pure ⟨.cons hb hnames, hd⟩
    | ret hd => exact .pure ⟨.cons hb .nil, .some hd⟩

variable (hl : ∀ address, Option.Rel (Linked tm) (functions address) (definitions address))

include hl

theorem callees_call (n : ℕ) : Callees tm threadLocalInit t (call tm definitions n)
    (Ssa.call threadLocalInit t functions n) :=
  callees_callImp (runsAs n) (fun _ => .inr hl) hl

omit hl in
theorem realizes_params (params : List Value) :
    (deferral tm threadLocalInit t).Realizes (ε := Stop)
      (fun vals ds vs => List.Forall₂ (Denotes t vals) ds vs) vals
      (params.mapM fun value => Deferred.issue (DataFlow.constant value)) (pure params) := by
  have hmapM : params.mapM (fun v => (pure v : Execution Value)) = pure params :=
    List.mapM_pure.trans (congrArg pure params.map_id')
  rw [← hmapM]
  apply Realizes.mapM
  · exact fun hpre hd => hd.mono hpre
  · exact List.forall₂_same.mpr fun v _ vals' _ => realizes_constant v

theorem realizes_control (n main : ℕ) (params : List Value) :
    (deferral tm threadLocalInit t).Realizes (fun _ v v' => v = v') vals
      (control tm definitions n main params)
      (Ssa.call threadLocalInit t functions n main params) := by
  have hlinked := hl main
  have hcall : (deferral tm threadLocalInit t).Realizes (fun _ v v' => v = v') vals
      (do
        let deps ← params.mapM fun value => Deferred.issue (DataFlow.constant value)
        let result ← call tm definitions n main deps
        Deferred.await result) (pure params >>= Ssa.call threadLocalInit t functions n main) := by
    apply (realizes_params params).bind
    exact fun vals₁ ds vs hpre hds => realizes_await (callees_call hl n vals₁ main ds vs hds)
  rw [control]
  cases hmain : definitions main with
  | some func => exact hcall
  | none =>
    rw [hmain] at hlinked
    generalize hcallee : functions main = callee at hlinked
    cases hlinked
    rw [Ssa.call, Ssa.callImp, hcallee]
    exact .fail

/-- Where each thunk is computed when it is decoded, a call comes to what it means: it returns the
same value, raises the same error or panics, and leaves the same memory and thread-local storage. -/
theorem interpret_call {params : List Thunk} {args : List Value}
    (hargs : params.mapM (Thunk.valueIn t vals) = some args) (n address : ℕ) (s : Locals) :
    ((do
      let result ← call tm definitions n address params
      Deferred.await result).interpret (deferral tm threadLocalInit t).inOrder (vals, s)).map
        (Prod.map id Prod.snd) =
      (Ssa.call threadLocalInit t functions n address args).interpret (fun f => f) s := by
  have hds : List.Forall₂ (Denotes t vals) params args := mapM_eq_some_iff_forall₂.mp hargs
  have hcall : Callees tm threadLocalInit t _ _ := callees_call hl n
  have hend := (realizes_await (hcall vals address params args hds)).interpret s
  generalize (Ssa.call threadLocalInit t functions n address args).interpret (fun f => f) s = o
    at hend ⊢
  generalize Program.interpret _ _ (vals, s) = o' at hend ⊢
  cases hend with
  | none => rfl
  | @some e e' h =>
    obtain ⟨result, vals', s'⟩ := e
    obtain ⟨result', s''⟩ := e'
    obtain ⟨hsame, rfl⟩ := h
    cases hsame with
    | ok h =>
      cases h
      rfl
    | error e => rfl

end Calls

namespace Counter

def compiler : ExprCompiler := ⟨⟨[]⟩, ⟨[]⟩, 0⟩

def var (name : String) : Operand := .localOperand (.name name) (.integerType 32)

def ptr (name : String) : Operand := .localOperand (.name name) (.pointerType (.integerType 32) 0)

def lit (n : UInt64) : Operand := .constantOperand (.int 32 n)

/-- The counter grows by `k`. -/
def add : Function where
  parameters := [.name "p", .name "k"]
  basicBlocks := [
    ⟨.name "entry",
      [.atomicRMW .add (ptr "p") (var "k") (.name "old") ⟨.system, .acquireRelease⟩],
      .simple (.ret (some (var "old")))⟩]

/-- Calls `add` twice with a number that it keeps on the stack. -/
def worker : Function where
  parameters := [.name "p"]
  basicBlocks := [
    ⟨.name "entry", [
      .alloca (.integerType 32) (lit 1) (.name "q") 4,
      .store (ptr "q") (lit 5) (some ⟨.system, .sequentiallyConsistent⟩)],
      .simple (.br (.name "loop"))⟩,
    ⟨.name "loop", [
      .compute (.phi ⟨[(lit 0, .name "entry"), (var "j", .name "loop")], .name "i"⟩),
      .load (ptr "q") (.name "k") (some ⟨.system, .acquire⟩),
      .call (some (.constantOperand (.int 64 256))) [ptr "p", var "k"] (some (.name "r")),
      .compute (.binop .add (var "i") (lit 1) (.name "j")),
      .compute (.iCmp .eq (var "j") (lit 2) (.name "c"))],
      .simple (.condBr (.localOperand (.name "c") (.integerType 1)) (.name "exit")
        (.name "loop"))⟩,
    ⟨.name "exit", [], .simple (.ret (some (var "r")))⟩]

def functions (address : ℕ) : Option Callee :=
  if address = 256 then some (.function compiler add)
  else if address = 512 then some (.function compiler worker)
  else none

def definitions (address : ℕ) : Option Func := do
  match ← functions address with
  | .function x func => (compileFunc x func).map .compiled
  | .comp f => some (.comp f)
  | .native arity f => some (.native arity f)
  | .bomb => some .bomb

theorem wellFormed {func : Function} (h : func = add ∨ func = worker) :
    Ssa.WellFormed compiler func where
  nonempty := by rcases h with rfl | rfl <;> exact List.cons_ne_nil _ _
  names := by rcases h with rfl | rfl <;> decide
  incoming := by
    have hnodup : ∀ b ∈ func.basicBlocks, ∀ phi ∈ b.phis,
        (phi.incomingValues.map Prod.snd).Nodup := by rcases h with rfl | rfl <;> decide
    intro b hb phi hphi e he e' he' heq
    rw [List.inj_on_of_nodup_map (hnodup b hb phi hphi) he he' heq]
  cases := by
    intro b hb condition dests defaultDest hterm
    rcases h with rfl | rfl
    · rw [List.mem_singleton.mp hb] at hterm
      cases hterm
    · simp only [worker, List.mem_cons, List.not_mem_nil, or_false] at hb
      rcases hb with rfl | rfl | rfl <;> cases hterm

theorem linked (address : ℕ) :
    Option.Rel (Linked compiler.tm) (functions address) (definitions address) := by
  have hlink : ∀ {func : Function}, func = add ∨ func = worker →
      (compileFunc compiler func).isSome →
      Option.Rel (Linked compiler.tm) (some (.function compiler func))
        ((compileFunc compiler func).map .compiled) := by
    intro func hfunc hsome
    obtain ⟨c, hc⟩ := Option.isSome_iff_exists.mp hsome
    rw [hc]
    exact .some (.function rfl (wellFormed hfunc) hc)
  rw [definitions, functions]
  split_ifs
  · exact hlink (.inl rfl) (by decide +kernel)
  · exact hlink (.inr rfl) (by decide +kernel)
  · exact .none

end Counter

/-- One worker counts to ten. -/
theorem interpret_call_counter : ∃ e ∈ (do
      let result ← call Counter.compiler.tm Counter.definitions 9 512 [.constant (.new 64 64)]
      Deferred.await result).interpret (deferral Counter.compiler.tm (fun _ => none) 0).inOrder
        ([], ⟨.new .new, fun _ => []⟩),
    e.1.toOption = some (.new 32 5) ∧
      e.2.2.memory.loadImpl 64 ⟨32, 32⟩ = some (.new 32 10) := by
  have hrun : ∃ e ∈ (Ssa.call (fun _ => none) 0 Counter.functions 9 512
      [.new 64 64]).interpret (fun f => f) ⟨.new .new, fun _ => []⟩,
      e.1.toOption = some (Value.new 32 5) ∧
        e.2.memory.loadImpl 64 ⟨32, 32⟩ = some (.new 32 10) := by decide +kernel
  obtain ⟨e, he, hvalue, hload⟩ := hrun
  have hargs : ([.constant (.new 64 64)] : List Thunk).mapM (Thunk.valueIn 0 []) =
      some [.new 64 64] := rfl
  obtain ⟨e', he', rfl⟩ := Option.map_eq_some_iff.mp
    ((interpret_call Counter.linked hargs 9 512 ⟨.new .new, fun _ => []⟩).trans he)
  exact ⟨e', he', hvalue, hload⟩

end Ir
end AtomicSim
