import AtomicSim.Lib.PartialMap
import AtomicSim.Ssa
import AtomicSim.Compile.GetElementPtr

namespace AtomicSim

namespace FuncCompiler

def localOf (s : FuncCompiler) (name : Name) : Option CLocal := s.locals.lookup name

def blockOf (s : FuncCompiler) (name : Name) : Option CBlockId := s.blockIds.lookup name

/-- Different names have different numbers, and the next number is free. -/
structure Numbered (s : FuncCompiler) : Prop where
  lt : ∀ name l, s.localOf name = some l → l < s.localNames.length
  inj : PartialMap.Injective s.localOf

structure Grows (s s' : FuncCompiler) : Prop where
  locals : PartialMap.Extends s.localOf s'.localOf
  blockIds : s'.blockIds = s.blockIds
  numbered : s.Numbered → s'.Numbered

theorem Grows.refl (s : FuncCompiler) : Grows s s := ⟨.refl _, rfl, id⟩

theorem Grows.trans {s s' s'' : FuncCompiler} (h : Grows s s') (h' : Grows s' s'') :
    Grows s s'' where
  locals := h.locals.trans h'.locals
  blockIds := h'.blockIds.trans h.blockIds
  numbered := h'.numbered ∘ h.numbered

/-- What an action returns meets `Q` under the numbers that it has given out, and under all that
are given out later. -/
def Yields {α : Type} (B : Name → Option CBlockId) (m : StateT FuncCompiler Option α)
    (Q : (Name → Option CLocal) → α → Prop) : Prop :=
  ∀ s a s', s.blockOf = B → m s = some (a, s') →
    Grows s s' ∧ ∀ L, PartialMap.Extends s'.localOf L → Q L a

namespace Yields

variable {α β : Type} {B : Name → Option CBlockId} {m : StateT FuncCompiler Option α}
  {Q Q' : (Name → Option CLocal) → α → Prop} {R : (Name → Option CLocal) → β → Prop}

theorem pure {a : α} (h : ∀ L, Q L a) : Yields B (pure a) Q := by
  intro s a' s' hB hm
  cases hm
  exact ⟨.refl s, fun L _ => h L⟩

theorem failure : Yields B (failure : StateT FuncCompiler Option α) Q :=
  fun _ _ _ _ hm => nomatch hm

theorem lift (o : Option α) : Yields B (liftM o) fun _ a => o = some a := by
  intro s a s' hB hm
  obtain ⟨b, hb, hm⟩ := Option.bind_eq_some_iff.mp hm
  cases hm
  exact ⟨.refl s, fun L _ => hb⟩

theorem bind {f : α → StateT FuncCompiler Option β} (hm : Yields B m Q)
    (hf : ∀ a, Yields B (f a) fun L b => Q L a → R L b) : Yields B (m >>= f) R := by
  intro s b s'' hB h
  obtain ⟨⟨a, s'⟩, ha, hb⟩ := Option.bind_eq_some_iff.mp h
  obtain ⟨hgrows, hQ⟩ := hm s a s' hB ha
  have hB' : s'.blockOf = B := by
    funext name
    rw [← hB, blockOf, hgrows.blockIds, blockOf]
  obtain ⟨hgrows', hR⟩ := hf a s' b s'' hB' hb
  exact ⟨hgrows.trans hgrows', fun L hL => hR L hL (hQ L (hgrows'.locals.trans hL))⟩

theorem weaken (hm : Yields B m Q) (h : ∀ L a, Q L a → Q' L a) : Yields B m Q' :=
  fun s a s' hB ha => ⟨(hm s a s' hB ha).1, fun L hL => h L a ((hm s a s' hB ha).2 L hL)⟩

theorem mapM {γ : Type} {f : γ → StateT FuncCompiler Option α} {l : List γ}
    {Q : γ → (Name → Option CLocal) → α → Prop} (h : ∀ c ∈ l, Yields B (f c) (Q c)) :
    Yields B (l.mapM f) fun L as => List.Forall₂ (fun c a => Q c L a) l as := by
  induction l with
  | nil => exact pure fun _ => .nil
  | cons c l ih =>
    rw [List.mapM_cons]
    apply (h c List.mem_cons_self).bind
    intro a
    apply (ih fun c hc => h c (List.mem_cons_of_mem _ hc)).bind
    intro as
    apply pure
    intro L hrest ha
    exact .cons ha hrest

end Yields

theorem yields_compileLocal (B : Name → Option CBlockId) (name : Name) :
    Yields B (compileLocal name) fun L l => L name = some l := by
  intro s l s' hB h
  unfold compileLocal at h
  cases hl : s.locals.lookup name with
  | some l₀ =>
    rw [hl] at h
    cases h
    exact ⟨.refl s, fun L hL => hL name l hl⟩
  | none =>
    rw [hl] at h
    cases h
    let s' : FuncCompiler := { s with
      locals := (name, s.localNames.length) :: s.locals, localNames := s.localNames ++ [name] }
    have hself : s'.localOf name = some s.localNames.length := List.lookup_cons_self
    have hother : ∀ name', name' ≠ name → s'.localOf name' = s.localOf name' := by
      intro name' hne
      rw [localOf, List.lookup_cons, beq_false_of_ne hne]
      rfl
    refine ⟨⟨?_, rfl, fun hs => ⟨?_, ?_⟩⟩, fun L hL => hL name _ hself⟩
    · intro name' l hl'
      have hne : name' ≠ name := by
        rintro rfl
        rw [localOf, hl] at hl'
        cases hl'
      rw [hother name' hne, hl']
    · intro name' l hl'
      have hlen : s'.localNames.length = s.localNames.length + 1 := List.length_append
      by_cases hn : name' = name
      · rw [hn, hself] at hl'
        cases hl'
        exact Nat.lt_of_lt_of_eq (Nat.lt_succ_self _) hlen.symm
      · rw [hother name' hn] at hl'
        exact (hs.lt name' l hl').trans_le ((Nat.le_succ _).trans_eq hlen.symm)
    · intro n n' l hn hn'
      by_cases h1 : n = name <;> by_cases h2 : n' = name
      · rw [h1, h2]
      · rw [h1, hself] at hn
        rw [hother n' h2] at hn'
        cases hn
        exact absurd (hs.lt n' _ hn') (Nat.lt_irrefl _)
      · rw [h2, hself] at hn'
        rw [hother n h1] at hn
        cases hn'
        exact absurd (hs.lt n _ hn) (Nat.lt_irrefl _)
      · rw [hother n h1] at hn
        rw [hother n' h2] at hn'
        exact hs.inj n n' l hn hn'

theorem yields_compileTarget (B : Name → Option CBlockId) (name : Name) :
    Yields B (compileTarget name) fun _ b => B name = some b := by
  intro s b s' hB h
  obtain ⟨b', hb', h⟩ := Option.map_eq_some_iff.mp h
  cases h
  refine ⟨.refl s, fun L _ => ?_⟩
  rw [← hB]
  exact hb'

section Compiled

variable (x : ExprCompiler) (L : Name → Option CLocal) (B : Name → Option CBlockId)

def constantOperand : CExpr → COperand
  | .const cls value => .constant cls (.constant value)
  | e => .expr e

inductive OperandCompiled : Operand → COperand → Prop
  | localOperand {name : Name} {ty : TypeRef} {cls : Class} {l : CLocal}
    (hcls : x.tm.get ty = some cls) (hl : L name = some l) :
    OperandCompiled (.localOperand name ty) (.local cls l)
  | constantOperand {c : Constant} {e : CExpr} (he : x.compileConst c = some e) :
    OperandCompiled (.constantOperand c) (constantOperand e)
  | metadataOperand {cls : Class} (hcls : x.tm.void = some cls) :
    OperandCompiled .metadataOperand (.constant cls (.constant .ofUnit))

structure InstrCompiled (instr : Instruction) (c : CCompute) : Prop where
  operands : List.Forall₂ (OperandCompiled x L) instr.operands c.operands
  operation : Ssa.operation x instr = some c.operation
  dest : L instr.dest = some c.dest

structure PhiCompiled (phi : Phi) (c : CPhi) : Prop where
  dest : L phi.dest = some c.dest
  mapping : List.Forall₂ (fun e e' => B e.2 = some e'.1 ∧ OperandCompiled x L e.1 e'.2)
    phi.incomingValues c.mapping.reverse

inductive TermCompiled : Terminator → CTerm → Prop
  | ret {operand : Operand} {c : COperand} (h : OperandCompiled x L operand c) :
    TermCompiled (.ret (some operand)) (.ret c)
  | retVoid (cls : Class) : TermCompiled (.ret none) (.ret (.constant cls (.constant .ofUnit)))
  | br {dest : Name} {b : CBlockId} (hb : B dest = some b) : TermCompiled (.br dest) (.br b)
  | condBr {condition : Operand} {c : COperand} {dest dest' : Name} {b b' : CBlockId}
    (h : OperandCompiled x L condition c) (hb : B dest = some b) (hb' : B dest' = some b') :
    TermCompiled (.condBr condition dest dest') (.condBr c b b')
  | switch {condition : Operand} {c : COperand} {dests : List (Constant × Name)}
    {targets : List (Value × CBlockId)} {dest : Name} {b : CBlockId}
    (h : OperandCompiled x L condition c)
    (ht : List.Forall₂ (fun e e' => (∃ cls, x.compileConst e.1 = some (.const cls e'.1)) ∧
      B e.2 = some e'.2) dests targets)
    (hb : B dest = some b) :
    TermCompiled (.switch condition dests dest) (.switch c targets.reverse b)
  | unreachable : TermCompiled .unreachable .unreachable

end Compiled

section Yields

variable {x : ExprCompiler} {B : Name → Option CBlockId}

theorem yields_compileOperand (operand : Operand) :
    Yields B (compileOperand x operand) fun L c => OperandCompiled x L operand c := by
  cases operand with
  | localOperand name ty =>
    apply (Yields.lift (x.tm.get ty)).bind
    intro cls
    apply (yields_compileLocal B name).bind
    intro var
    exact .pure fun L hvar hcls => .localOperand hcls hvar
  | constantOperand c =>
    apply (Yields.lift (x.compileConst c)).bind
    intro e
    cases e <;> exact .pure fun L he => .constantOperand he
  | metadataOperand =>
    apply (Yields.lift x.tm.void).bind
    intro cls
    exact .pure fun L hcls => .metadataOperand hcls

theorem yields_compilePhi (phi : Phi) :
    Yields B (compilePhi x phi) fun L c => PhiCompiled x L B phi c := by
  apply (yields_compileLocal B phi.dest).bind
  intro dest
  have hentry : ∀ e ∈ phi.incomingValues, Yields B (do
      let b ← compileTarget e.2
      let oper ← compileOperand x e.1
      pure (b, oper)) fun L e' => B e.2 = some e'.1 ∧ OperandCompiled x L e.1 e'.2 := by
    intro e _
    apply (yields_compileTarget B e.2).bind
    intro b
    apply (yields_compileOperand e.1).bind
    intro oper
    exact .pure fun L hoper hb => ⟨hb, hoper⟩
  apply (Yields.mapM hentry).bind
  intro mapping
  exact .pure fun L hmapping hdest => ⟨hdest, by rwa [List.reverse_reverse]⟩

theorem yields_compileCompute (dest : Name) (operands : List Operand) (name : COperation.Name) :
    Yields B (compileCompute x dest operands name) fun L c =>
      List.Forall₂ (OperandCompiled x L) operands c.operands ∧
      OperCompiler.compileOperation x.tm name (c.operands.map COperand.cls) = some c.operation ∧
      L dest = some c.dest := by
  apply (Yields.mapM fun operand _ => yields_compileOperand (x := x) operand).bind
  intro operands
  apply (Yields.lift (OperCompiler.compileOperation x.tm name (operands.map COperand.cls))).bind
  intro operation
  apply (yields_compileLocal B dest).bind
  intro dest
  exact .pure fun L hdest hoperation hoperands => ⟨hoperands, hoperation, hdest⟩

variable {L : Name → Option CLocal}

theorem OperandCompiled.exists_known {operand : Operand} {c : COperand}
    (h : OperandCompiled x L operand c) :
    ∃ k, Ssa.known x operand = some k ∧ k.1 = c.cls ∧
      ∀ a b, compileIndex x a c = some b → gepClassStep x.tm a k = some b := by
  cases h with
  | @localOperand name ty cls l hcls hl =>
    exact ⟨(cls, none), by rw [Ssa.known, hcls]; rfl, rfl, fun a b hab => hab⟩
  | @constantOperand c e he =>
    refine ⟨(e.cls, e.asConst.map Prod.snd), by rw [Ssa.known, he]; rfl, ?_, ?_⟩
    · cases e <;> rfl
    · intro a b hab
      cases e with
      | const cls v => exact hab
      | threadLocal cls key | apply oper args => cases hab
  | @metadataOperand cls hcls =>
    exact ⟨(cls, some .ofUnit), by rw [Ssa.known, hcls]; rfl, rfl, fun a b hab => hab⟩

theorem exists_known {operands : List Operand} {cs : List COperand}
    (h : List.Forall₂ (OperandCompiled x L) operands cs) :
    ∃ ks, operands.mapM (Ssa.known x) = some ks ∧ ks.map Prod.fst = cs.map COperand.cls ∧
      ∀ a b, cs.foldlM (compileIndex x) a = some b → ks.foldlM (gepClassStep x.tm) a = some b := by
  induction h with
  | nil => exact ⟨[], rfl, rfl, fun a b hab => hab⟩
  | @cons operand c operands cs h hrest ih =>
    obtain ⟨k, hk, hcls, hindex⟩ := h.exists_known
    obtain ⟨ks, hks, hclasses, hindices⟩ := ih
    refine ⟨k :: ks, ?_, ?_, fun a b hab => ?_⟩
    · rw [List.mapM_cons, hk, hks]
      rfl
    · rw [List.map_cons, List.map_cons, hcls, hclasses]
    · obtain ⟨a', ha', hrest'⟩ := Option.bind_eq_some_iff.mp hab
      exact Option.bind_eq_some_iff.mpr ⟨a', hindex a a' ha', hindices a' b hrest'⟩

theorem yields_compileInstr (instr : Instruction) :
    Yields B (compileInstr x instr) fun L c => InstrCompiled x L instr c := by
  cases instr with
  | phi p => exact .failure
  | binop name operand₀ operand₁ dest =>
    apply (yields_compileOperand operand₀).bind
    intro c₀
    apply (yields_compileOperand operand₁).bind
    intro c₁
    by_cases hcls : c₀.cls.typ = c₁.cls.typ
    · rw [if_pos hcls]
      apply (yields_compileLocal B dest).bind
      intro dest
      refine .pure fun L hdest h₁ h₀ => ⟨.cons h₀ (.cons h₁ .nil), ?_, hdest⟩
      obtain ⟨ks, hks, hclasses, -⟩ := exists_known (.cons h₀ (.cons h₁ .nil))
      have hall : OperCompiler.allEqual ([c₀, c₁].map COperand.cls) = some c₀.cls := by
        simp [OperCompiler.allEqual, hcls]
      simp only [Ssa.operation, Instruction.operands, hks, hclasses, hall, Option.bind_eq_bind,
        Option.bind_some]
    · rw [if_neg hcls]
      exact .failure
  | getElementPtr address indices dest =>
    apply (yields_compileOperand address).bind
    intro address
    apply (Yields.mapM fun operand _ => yields_compileOperand (x := x) operand).bind
    intro indices
    apply (Yields.lift (indices.foldlM (compileIndex x) address.cls)).bind
    intro output
    apply (yields_compileLocal B dest).bind
    intro dest
    apply (Yields.lift (x.tm.ptr output)).bind
    intro out
    refine .pure fun L hout hdest houtput hindices haddress => ⟨.cons haddress hindices, ?_, hdest⟩
    -- the class of the address starts the walk, those of the indices go on with it
    obtain ⟨k, hk, hcls, -⟩ := haddress.exists_known
    obtain ⟨ks, hks, hclasses, hfold⟩ := exists_known hindices
    have hoperation : OperCompiler.compileGetElementPtr x.tm k.1 ks =
        some ⟨.getElementPtr, k.1 :: ks.map Prod.fst, out⟩ := by
      rw [compileGetElementPtr_eq, hcls, hfold _ _ houtput, Option.bind_some, hout]
      rfl
    have hargs : (address :: indices).map COperand.cls = k.1 :: ks.map Prod.fst := by
      rw [List.map_cons, hcls, hclasses]
    simp only [Ssa.operation, Instruction.operands, List.mapM_cons, hk, hks, Option.bind_eq_bind,
      Option.bind_some, Option.pure_def, List.getElem?_cons_zero, List.drop_succ_cons,
      List.drop_zero, hoperation, hargs]
  | cast name operand toType dest =>
    apply (Yields.lift (x.tm.get toType)).bind
    intro target
    refine (yields_compileCompute dest [operand] _).weaken fun L c hc htarget => ?_
    obtain ⟨hoperands, hoperation, hdest⟩ := hc
    obtain ⟨ks, hks, hclasses, -⟩ := exists_known hoperands
    refine ⟨hoperands, ?_, hdest⟩
    simp only [Ssa.operation, Instruction.operands, hks, hclasses, htarget, hoperation,
      Option.bind_eq_bind, Option.bind_some]
  | shuffleVector operand₀ operand₁ mask dest =>
    apply (Yields.lift (maskIndices x mask)).bind
    intro indices
    refine (yields_compileCompute dest [operand₀, operand₁] _).weaken fun L c hc hmask => ?_
    obtain ⟨hoperands, hoperation, hdest⟩ := hc
    obtain ⟨ks, hks, hclasses, -⟩ := exists_known hoperands
    refine ⟨hoperands, ?_, hdest⟩
    simp only [Ssa.operation, Instruction.operands, hks, hclasses, hmask, hoperation,
      Option.bind_eq_bind, Option.bind_some]
  -- all that is left is computed from the classes of the operands
  | _ =>
    refine (yields_compileCompute _ _ _).weaken fun L c hc => ?_
    obtain ⟨hoperands, hoperation, hdest⟩ := hc
    obtain ⟨ks, hks, hclasses, -⟩ := exists_known hoperands
    refine ⟨hoperands, ?_, hdest⟩
    simp only [Ssa.operation, Instruction.operands, hks, hclasses, hoperation,
      Option.bind_eq_bind, Option.bind_some]

theorem yields_compileTerm (term : Terminator) :
    Yields B (compileTerm x term) fun L c => TermCompiled x L B term c := by
  cases term with
  | ret returnOperand =>
    cases returnOperand with
    | none =>
      apply (Yields.lift x.tm.void).bind
      intro cls
      exact .pure fun L _ => .retVoid cls
    | some operand =>
      apply (yields_compileOperand operand).bind
      intro c
      exact .pure fun L h => .ret h
  | br dest =>
    apply (yields_compileTarget B dest).bind
    intro b
    exact .pure fun L hb => .br hb
  | condBr condition trueDest falseDest =>
    apply (yields_compileOperand condition).bind
    intro c
    apply (yields_compileTarget B trueDest).bind
    intro b
    apply (yields_compileTarget B falseDest).bind
    intro b'
    exact .pure fun L hb' hb h => .condBr h hb hb'
  | switch condition dests defaultDest =>
    apply (yields_compileOperand condition).bind
    intro c
    have hentry : ∀ e ∈ dests, Yields B (do
        let const ← (← x.compileConst e.1).asConst
        let b ← compileTarget e.2
        pure (const.2, b)) fun _ e' =>
          (∃ cls, x.compileConst e.1 = some (.const cls e'.1)) ∧ B e.2 = some e'.2 := by
      intro e _
      apply (Yields.lift (x.compileConst e.1)).bind
      intro k
      apply (Yields.lift k.asConst).bind
      rintro ⟨cls, value⟩
      apply (yields_compileTarget B e.2).bind
      intro b
      refine .pure fun L hb hconst hk => ⟨⟨cls, ?_⟩, hb⟩
      rw [hk]
      cases k <;> cases hconst
      rfl
    apply (Yields.mapM hentry).bind
    intro targets
    apply (yields_compileTarget B defaultDest).bind
    intro b
    exact .pure fun L hb ht h => .switch h ht hb
  | unreachable => exact .pure fun L => .unreachable

theorem numbered_new (blockIds : List (Name × CBlockId)) :
    Numbered { new with blockIds := blockIds } := ⟨nofun, nofun⟩

end Yields

end FuncCompiler
end AtomicSim
