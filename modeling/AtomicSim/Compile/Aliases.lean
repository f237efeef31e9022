import Mathlib.Data.List.Forall2
import AtomicSim.Compile.Expr
import AtomicSim.Compile.GetElementPtr
import AtomicSim.Lib.Related

namespace AtomicSim

open LittleEndian (bit bit_ofBits)

/-- `llvm_ir::module::Linkage`, with the linkages that are `todo!` under one constructor. -/
inductive Linkage where
  | privateLinkage
  | internal
  | external
  | unsupported
  deriving DecidableEq, Repr

namespace Linkage

/-- `Symbol::new`. -/
def symbol (linkage : Linkage) (module : ModuleId) (name : String) : Option Symbol :=
  match linkage with
  | privateLinkage | internal => some (.internal module name)
  | external => some (.external name)
  | unsupported => none

end Linkage

/-- `str_of_name`, which panics on a number. -/
def strOfName : Name → Option String
  | .name name => some name
  | .number _ => none

structure GlobalAlias where
  name : Name
  aliasee : Constant
  linkage : Linkage

/-- A symbol that is there already panics unless it stands for the same address. -/
def SymbolTable.addAlias (symbols : SymbolTable) (name : Symbol) (address : ℕ) :
    Option SymbolTable :=
  match symbols.forward.lookup name with
  | some d => if d = .global address then some symbols else none
  | none => some ⟨(name, .global address) :: symbols.forward⟩

def GlobalAlias.symbol (g : ModuleId × GlobalAlias) : Option Symbol := do
  let name ← strOfName g.2.name
  g.2.linkage.symbol g.1 name

variable (tm : TypeMap)

/-- The body of the loop over `global_aliases`. -/
def compileAlias (symbols : SymbolTable) (g : ModuleId × GlobalAlias) : Option SymbolTable := do
  let symbol ← GlobalAlias.symbol g
  let target ← (ExprCompiler.mk tm symbols g.1).compileConst g.2.aliasee
  let (_, value) ← target.asConst
  symbols.addAlias symbol value.asU64

/-- The aliases of all modules in the order in which `compile_modules` comes to them. -/
def aliasesOf (modules : List (List GlobalAlias)) : List (ModuleId × GlobalAlias) :=
  modules.zipIdx.flatMap fun e => e.1.map fun g => (e.2, g)

/-- The second loop of `compile_modules`, on the symbols that the first one has added. -/
def compileAliases (symbols : SymbolTable) (modules : List (List GlobalAlias)) :
    Option SymbolTable :=
  (aliasesOf modules).foldlM (compileAlias tm) symbols

/-- The name behind the bitcasts of an aliasee. -/
def Constant.base : Constant → Option Name
  | .globalReference name _ => some name
  | .cast .bitCast operand (.pointerType _ _) => operand.base
  | _ => none

/-- The types of an aliasee have classes. -/
def Constant.Typed : Constant → Prop
  | .globalReference _ ty => (tm.get ty).isSome
  | .cast _ operand _ => operand.Typed
  | _ => False

namespace SymbolTable

variable (symbols : SymbolTable) (aliases : List (ModuleId × GlobalAlias))

def Has (s : Symbol) : Prop :=
  (symbols.forward.lookup s).isSome ∨ ∃ g ∈ aliases, GlobalAlias.symbol g = some s

/-- What a name means in a module: the module's own symbol, or else the external one. -/
inductive Denotes (m : ModuleId) (name : String) : Symbol → Prop
  | internal : symbols.Has aliases (.internal m name) → Denotes m name (.internal m name)
  | external : ¬ symbols.Has aliases (.internal m name) → Denotes m name (.external name)

/-- The chain of aliases from a symbol ends in a definition at the address. -/
inductive EndsAt : Symbol → ℕ → Prop
  | defined {s : Symbol} {address : ℕ} : symbols.forward.lookup s = some (.global address) →
      EndsAt s address
  | link {g : ModuleId × GlobalAlias} {s s' : Symbol} {name : String} {address : ℕ} :
      g ∈ aliases → GlobalAlias.symbol g = some s → g.2.aliasee.base = some (.name name) →
      symbols.Denotes aliases g.1 name s' → EndsAt s' address → EndsAt s address

/-- What `lookup` finds for a name when the given aliases are in the table: where the symbol
that the name denotes is missing, another one stands in for it. -/
inductive Found (m : ModuleId) (name : String) : Symbol → Prop
  | internal : symbols.Has aliases (.internal m name) → Found m name (.internal m name)
  | external : ¬ symbols.Has aliases (.internal m name) →
      symbols.Has aliases (.external name) → Found m name (.external name)
  | explode : ¬ symbols.Has aliases (.internal m name) →
      ¬ symbols.Has aliases (.external name) → symbols.Has aliases (.external "explode") →
      Found m name (.external "explode")

/-- What is assumed of the modules: the chains end, no symbol stands for two addresses, and an
alias does not have the symbol of a thread-local variable. -/
structure Chained : Prop where
  address : ∀ s a, symbols.forward.lookup s = some (.global a) → a < 2 ^ 64
  unique : ∀ s a b, symbols.EndsAt aliases s a → symbols.EndsAt aliases s b → a = b
  global : ∀ g ∈ aliases, ∀ s key, GlobalAlias.symbol g = some s →
    symbols.forward.lookup s ≠ some (.threadLocal key)
  ends : ∀ g ∈ aliases, ∃ name s a, g.2.aliasee.base = some (.name name) ∧
    symbols.Denotes aliases g.1 name s ∧ symbols.EndsAt aliases s a

/-- Every alias has the address at which its chain ends. -/
def Registers (symbols' : SymbolTable) : Prop :=
  ∀ g ∈ aliases, ∃ s a, GlobalAlias.symbol g = some s ∧ symbols.EndsAt aliases s a ∧
    symbols'.forward.lookup s = some (.global a)

/-- The alias can be compiled, and what is found for its aliasee once the aliases `before` are
in the table is at the address where the chain ends. -/
def Resolves (before : List (ModuleId × GlobalAlias)) (g : ModuleId × GlobalAlias) : Prop :=
  (GlobalAlias.symbol g).isSome ∧ g.2.aliasee.Typed tm ∧
    ∃ name s s' a, g.2.aliasee.base = some (.name name) ∧
      symbols.Denotes aliases g.1 name s ∧ symbols.EndsAt aliases s a ∧
      symbols.Found before g.1 name s' ∧ symbols.EndsAt aliases s' a

/-- Each alias resolves when the loop comes to it. -/
def InOrder : Prop :=
  ∀ before g after, aliases = before ++ g :: after → symbols.Resolves tm aliases before g

end SymbolTable

theorem ucast_address (a : ℕ) : (Value.new 64 a).ucast ⟨64, 64⟩ = .new 64 a := by
  simp only [Value.ucast, Value.new]
  congr 1
  funext i
  simp only [Value.ofBits, bit_ofBits]
  by_cases hi : i < 64
  · simp [hi]
  · simp [hi]

namespace ExprCompiler

variable {tm} {symbols : SymbolTable} {m : ModuleId} {c : Constant} {name : Name}

theorem compileConst_reference (ty : TypeRef) :
    (mk tm symbols m).compileConst (.globalReference name ty) =
      ((mk tm symbols m).lookup name).bind fun d => (tm.get ty).map fun pointee =>
        let cls := .mk (.pointerType pointee.typ 0) (.pointer pointee.typ) ⟨64, 64⟩
        match d with
        | .global g => .const cls (.new 64 g)
        | .threadLocal key => .threadLocal cls key := by
  rw [compileConst, compileConstImpl]
  cases (mk tm symbols m).lookup name with
  | none => rfl
  | some d =>
    cases hty : tm.get ty with
    | none => rfl
    | some pointee => cases d <;> rfl

theorem compileConst_bitCast (operand : Constant) (p : TypeRef) (n : ℕ) :
    (mk tm symbols m).compileConst (.cast .bitCast operand (.pointerType p n)) =
      ((mk tm symbols m).compileConst operand).bind fun inner =>
        let cls := .mk (.pointerType p n) (.pointer p) ⟨64, 64⟩
        match inner.asConst with
        | some (_, v) => some (.const cls (v.ucast ⟨64, 64⟩))
        | none => some (.apply ⟨.bitCast cls, [inner.cls], cls⟩ [inner]) := by
  have hget : tm.get (.pointerType p n) =
      some (.mk (.pointerType p n) (.pointer p) ⟨64, 64⟩) := rfl
  rw [compileConst, compileConstImpl, compileConst]
  cases (mk tm symbols m).compileConstImpl operand with
  | none => rfl
  | some e =>
    simp only [hget, Option.bind_eq_bind, Option.bind_some]
    cases e.reduceRoot tm with
    | none => rfl
    | some inner => cases inner <;> rfl

theorem compileConst_global (hb : c.base = some name) (ht : c.Typed tm) {g : ℕ}
    (hg : (mk tm symbols m).lookup name = some (.global g)) :
    ∃ cls, (mk tm symbols m).compileConst c = some (.const cls (.new 64 g)) := by
  fun_induction Constant.base c with
  | case1 n ty =>
    obtain rfl := Option.some.inj hb
    obtain ⟨pointee, hp⟩ := Option.isSome_iff_exists.mp ht
    exact ⟨_, by rw [compileConst_reference, hg, hp]; rfl⟩
  | case2 operand p n ih =>
    obtain ⟨cls, hc⟩ := ih hb ht
    rw [compileConst_bitCast, hc, Option.bind_some]
    simp only [CExpr.asConst, ucast_address]
    exact ⟨_, rfl⟩
  | case3 => cases hb

theorem global_of_compileConst (hb : c.base = some name) {e : CExpr} {cls : Class} {v : Value}
    (hc : (mk tm symbols m).compileConst c = some e) (he : e.asConst = some (cls, v)) :
    c.Typed tm ∧ ∃ g, (mk tm symbols m).lookup name = some (.global g) ∧ v = .new 64 g := by
  fun_induction Constant.base c generalizing e cls v with
  | case1 n ty =>
    obtain rfl := Option.some.inj hb
    rw [compileConst_reference] at hc
    obtain ⟨d, hd, hc⟩ := Option.bind_eq_some_iff.mp hc
    obtain ⟨pointee, hp, rfl⟩ := Option.map_eq_some_iff.mp hc
    refine ⟨by rw [Constant.Typed, hp]; rfl, ?_⟩
    cases d with
    | global g =>
      cases he
      exact ⟨g, hd, rfl⟩
    | threadLocal key => cases he
  | case2 operand p n ih =>
    rw [compileConst_bitCast] at hc
    obtain ⟨inner, hi, hc⟩ := Option.bind_eq_some_iff.mp hc
    cases hin : inner.asConst with
    | none =>
      simp only [hin] at hc
      cases hc
      cases he
    | some r =>
      obtain ⟨ht, g, hg, hv⟩ := ih hb hi hin
      simp only [hin] at hc
      cases hc
      cases he
      exact ⟨ht, g, hg, by rw [hv, ucast_address]⟩
  | case3 => cases hb

end ExprCompiler

namespace SymbolTable

variable {tm} {symbols t t' : SymbolTable} {aliases before : List (ModuleId × GlobalAlias)}
  {g : ModuleId × GlobalAlias} {s : Symbol} {a : ℕ}

theorem addAlias_cases (h : t.addAlias s a = some t') :
    t.forward.lookup s = some (.global a) ∧ t' = t ∨
      t.forward.lookup s = none ∧ t' = ⟨(s, .global a) :: t.forward⟩ := by
  unfold addAlias at h
  cases hl : t.forward.lookup s with
  | none =>
    simp only [hl] at h
    exact .inr ⟨rfl, (Option.some.inj h).symm⟩
  | some d =>
    simp only [hl] at h
    split_ifs at h with hd
    exact .inl ⟨congrArg some hd, (Option.some.inj h).symm⟩

theorem lookup_addAlias (h : t.addAlias s a = some t') (s' : Symbol) :
    t'.forward.lookup s' = if s' = s then some (.global a) else t.forward.lookup s' := by
  rcases addAlias_cases h with ⟨hl, rfl⟩ | ⟨-, rfl⟩
  · split_ifs with hs
    · rw [hs, hl]
    · rfl
  · rw [List.lookup_cons]
    by_cases hs : s' = s
    · simp [hs]
    · simp [hs, beq_false_of_ne hs]

theorem lookup_of_addAlias (h : t.addAlias s a = some t') {s' : Symbol} {d : SymbolDef}
    (hd : t.forward.lookup s' = some d) : t'.forward.lookup s' = some d := by
  rw [lookup_addAlias h]
  split_ifs with hs
  · subst hs
    rcases addAlias_cases h with ⟨hl, -⟩ | ⟨hl, -⟩
    · exact hl.symm.trans hd
    · cases hl.symm.trans hd
  · exact hd

theorem has_append {s : Symbol} :
    symbols.Has (before ++ [g]) s ↔ symbols.Has before s ∨ GlobalAlias.symbol g = some s := by
  simp only [Has, List.mem_append, List.mem_singleton, or_and_right, exists_or, exists_eq_left,
    or_assoc]

theorem EndsAt.lt (hc : symbols.Chained aliases) (h : symbols.EndsAt aliases s a) : a < 2 ^ 64 := by
  induction h with
  | defined hs => exact hc.address _ _ hs
  | link _ _ _ _ _ ih => exact ih

theorem Denotes.unique {m : ModuleId} {name : String} {s s' : Symbol}
    (h : symbols.Denotes aliases m name s) (h' : symbols.Denotes aliases m name s') : s = s' := by
  cases h <;> cases h' <;> first | rfl | contradiction

variable (symbols aliases) in
/-- The table once the aliases `before` have been added, each with the end of its chain. -/
structure Added (before : List (ModuleId × GlobalAlias)) (t : SymbolTable) : Prop where
  old : ∀ s d, symbols.forward.lookup s = some d → t.forward.lookup s = some d
  has : ∀ s, (t.forward.lookup s).isSome ↔ symbols.Has before s
  named : ∀ g ∈ before, (GlobalAlias.symbol g).isSome
  ends : ∀ s a, t.forward.lookup s = some (.global a) → symbols.EndsAt aliases s a
  threadLocal : ∀ s key, t.forward.lookup s = some (.threadLocal key) →
    symbols.forward.lookup s = some (.threadLocal key)

theorem added_nil : symbols.Added aliases [] symbols where
  old := fun _ _ h => h
  has := by simp [Has]
  named := by simp
  ends := fun _ _ h => .defined h
  threadLocal := fun _ _ h => h

theorem Added.addAlias (h : symbols.Added aliases before t) (hs : GlobalAlias.symbol g = some s)
    (he : symbols.EndsAt aliases s a) (hadd : t.addAlias s a = some t') :
    symbols.Added aliases (before ++ [g]) t' := by
  constructor
  · exact fun s' d hd => lookup_of_addAlias hadd (h.old s' d hd)
  · intro s'
    rw [lookup_addAlias hadd, has_append, hs, Option.some.injEq, eq_comm (a := s), ← h.has]
    split_ifs with hs' <;> simp [hs']
  · intro g' hg'
    rcases List.mem_append.mp hg' with hg' | hg'
    · exact h.named g' hg'
    · rw [List.mem_singleton.mp hg', hs]
      rfl
  · intro s' b hb
    rw [lookup_addAlias hadd] at hb
    split_ifs at hb with hs'
    · cases hb
      exact hs' ▸ he
    · exact h.ends s' b hb
  · intro s' key hk
    rw [lookup_addAlias hadd] at hk
    split_ifs at hk with hs'
    · cases hk
    · exact h.threadLocal s' key hk

theorem Added.lookup (h : symbols.Added aliases before t) {m : ModuleId} {name : String}
    {d : SymbolDef} : t.lookup (some m) name = some d ↔
      ∃ s, symbols.Found before m name s ∧ t.forward.lookup s = some d := by
  have hnot : ∀ {s}, t.forward.lookup s = none → ¬ symbols.Has before s := fun hs hhas => by
    rw [← h.has, hs] at hhas
    cases hhas
  have hhas : ∀ {s d}, t.forward.lookup s = some d → symbols.Has before s := fun hs => by
    rw [← h.has, hs]
    rfl
  rw [SymbolTable.lookup, Option.bind_some]
  constructor
  -- the internal symbol comes first, then the external one, then `explode`
  · intro hd
    cases hi : t.forward.lookup (.internal m name) with
    | some d' =>
      rw [hi, Option.some_or] at hd
      exact ⟨_, .internal (hhas hi), hi.trans hd⟩
    | none =>
      rw [hi, Option.none_or] at hd
      cases he : t.forward.lookup (.external name) with
      | some d' =>
        rw [he, Option.some_or] at hd
        exact ⟨_, .external (hnot hi) (hhas he), he.trans hd⟩
      | none =>
        rw [he, Option.none_or] at hd
        exact ⟨_, .explode (hnot hi) (hnot he) (hhas hd), hd⟩
  · have hnone : ∀ {s}, ¬ symbols.Has before s → t.forward.lookup s = none := fun hs => by
      rwa [← h.has, Option.not_isSome_iff_eq_none] at hs
    rintro ⟨s, hf, hd⟩
    cases hf with
    | internal _ => rw [hd, Option.some_or]
    | external hi _ => rw [hnone hi, Option.none_or, hd, Option.some_or]
    | explode hi he _ => rw [hnone hi, Option.none_or, hnone he, Option.none_or, hd]

theorem compileAlias_eq_some {name : String} (hb : g.2.aliasee.base = some (.name name)) :
    compileAlias tm t g = some t' ↔ ∃ s a, GlobalAlias.symbol g = some s ∧
      g.2.aliasee.Typed tm ∧ t.lookup (some g.1) name = some (.global a) ∧
      t.addAlias s (Value.new 64 a).asU64 = some t' := by
  constructor
  · intro h
    obtain ⟨s, hs, e, he, ⟨cls, v⟩, hv, h⟩ := by
      simpa only [compileAlias, Option.bind_eq_bind, Option.bind_eq_some_iff] using h
    obtain ⟨ht, a, ha, rfl⟩ := ExprCompiler.global_of_compileConst hb he hv
    exact ⟨s, a, hs, ht, ha, h⟩
  · rintro ⟨s, a, hs, ht, ha, h⟩
    obtain ⟨cls, hc⟩ :=
      @ExprCompiler.compileConst_global tm t g.1 g.2.aliasee (.name name) hb ht a ha
    simp only [compileAlias, hs, hc, Option.bind_eq_bind, Option.bind_some, CExpr.asConst, h]

theorem EndsAt.ne_threadLocal (hc : symbols.Chained aliases) (h : symbols.EndsAt aliases s a)
    (key : ThreadLocalKey) : symbols.forward.lookup s ≠ some (.threadLocal key) := by
  cases h with
  | defined hs =>
    rw [hs]
    simp
  | link hg hs _ _ _ => exact hc.global _ hg _ key hs

theorem Found.has {m : ModuleId} {name : String} (h : symbols.Found before m name s) :
    symbols.Has before s := by
  cases h <;> assumption

theorem Added.lookup_of_endsAt (hc : symbols.Chained aliases)
    (h : symbols.Added aliases before t) (hs : symbols.Has before s)
    (he : symbols.EndsAt aliases s a) : t.forward.lookup s = some (.global a) := by
  obtain ⟨d, hd⟩ := Option.isSome_iff_exists.mp ((h.has s).mpr hs)
  cases d with
  | global b => rw [hd, hc.unique s a b he (h.ends s b hd)]
  | threadLocal key => exact absurd (h.threadLocal s key hd) (he.ne_threadLocal hc key)

theorem Added.compile (hc : symbols.Chained aliases) (h : symbols.Added aliases before t)
    (hg : g ∈ aliases) (hr : symbols.Resolves tm aliases before g) :
    ∃ t', compileAlias tm t g = some t' ∧ symbols.Added aliases (before ++ [g]) t' := by
  obtain ⟨hsome, htyped, name, s₁, s₂, a, hb, hden, hend, hfound, hend'⟩ := hr
  obtain ⟨s, hs⟩ := Option.isSome_iff_exists.mp hsome
  have hchain : symbols.EndsAt aliases s a := .link hg hs hb hden hend
  have hlookup : t.lookup (some g.1) name = some (.global a) :=
    h.lookup.mpr ⟨s₂, hfound, h.lookup_of_endsAt hc hfound.has hend'⟩
  obtain ⟨t', ht'⟩ : ∃ t', t.addAlias s a = some t' := by
    -- a name that is there already has the address of the same chain
    unfold SymbolTable.addAlias
    cases hl : t.forward.lookup s with
    | none => exact ⟨_, rfl⟩
    | some d =>
      have hhas : symbols.Has before s := (h.has s).mp (by rw [hl]; rfl)
      have hd : some d = some (.global a) := hl.symm.trans (h.lookup_of_endsAt hc hhas hchain)
      exact ⟨t, if_pos (Option.some.inj hd)⟩
  refine ⟨t', (compileAlias_eq_some hb).mpr ⟨s, a, hs, htyped, hlookup, ?_⟩,
    h.addAlias hs hchain ht'⟩
  rwa [asU64_new (hchain.lt hc)]

theorem foldlM_lookup {after : List (ModuleId × GlobalAlias)}
    (hb : ∀ g ∈ after, ∃ name, g.2.aliasee.base = some (.name name))
    (h : after.foldlM (compileAlias tm) t = some t') {d : SymbolDef}
    (hd : t.forward.lookup s = some d) : t'.forward.lookup s = some d := by
  induction after generalizing t with
  | nil =>
    cases h
    exact hd
  | cons g after ih =>
    rw [List.forall_mem_cons] at hb
    rw [List.foldlM_cons] at h
    obtain ⟨t₁, ht₁, h⟩ := Option.bind_eq_some_iff.mp h
    obtain ⟨name, hname⟩ := hb.1
    obtain ⟨s', a, -, -, -, hadd⟩ := (compileAlias_eq_some hname).mp ht₁
    exact ih hb.2 h (lookup_of_addAlias hadd hd)

/-- An alias that the loop gives the end of its chain has resolved. -/
theorem Added.resolves (hc : symbols.Chained aliases) (h : symbols.Added aliases before t)
    (hg : g ∈ aliases) (hcomp : compileAlias tm t g = some t')
    (hreg : ∀ s d, GlobalAlias.symbol g = some s → t'.forward.lookup s = some d →
      ∃ a, symbols.EndsAt aliases s a ∧ d = .global a) :
    symbols.Resolves tm aliases before g ∧ symbols.Added aliases (before ++ [g]) t' := by
  obtain ⟨name, s₁, a, hb, hden, hend⟩ := hc.ends g hg
  obtain ⟨s, b, hs, htyped, hlookup, hadd⟩ := (compileAlias_eq_some hb).mp hcomp
  obtain ⟨s₂, hfound, hs₂⟩ := h.lookup.mp hlookup
  have hlt : b < 2 ^ 64 := (h.ends s₂ b hs₂).lt hc
  rw [asU64_new hlt] at hadd
  have hget : t'.forward.lookup s = some (.global b) := by rw [lookup_addAlias hadd, if_pos rfl]
  obtain ⟨b', hb', heq⟩ := hreg s _ hs hget
  obtain rfl := SymbolDef.global.inj heq
  -- both are the end of the chain of the alias
  obtain rfl : a = b := hc.unique s a b (.link hg hs hb hden hend) hb'
  exact ⟨⟨by rw [hs]; rfl, htyped, name, s₁, s₂, a, hb, hden, hend, hfound, h.ends s₂ a hs₂⟩,
    h.addAlias hs hb' hadd⟩

theorem Added.registers (hc : symbols.Chained aliases)
    (h : symbols.Added aliases aliases t) : symbols.Registers aliases t := by
  intro g hg
  obtain ⟨s, hs⟩ := Option.isSome_iff_exists.mp (h.named g hg)
  obtain ⟨name, s₁, a, hb, hden, hend⟩ := hc.ends g hg
  have hchain : symbols.EndsAt aliases s a := .link hg hs hb hden hend
  exact ⟨s, a, hs, hchain, h.lookup_of_endsAt hc (.inr ⟨g, hg, hs⟩) hchain⟩

theorem Added.run (hc : symbols.Chained aliases) {after : List (ModuleId × GlobalAlias)}
    (h : symbols.Added aliases before t) (hsplit : aliases = before ++ after)
    (hr : ∀ b g l, after = b ++ g :: l → symbols.Resolves tm aliases (before ++ b) g) :
    ∃ t', after.foldlM (compileAlias tm) t = some t' ∧ symbols.Added aliases aliases t' := by
  induction after generalizing before t with
  | nil =>
    rw [List.append_nil] at hsplit
    exact ⟨t, rfl, hsplit ▸ h⟩
  | cons g after ih =>
    have hg : g ∈ aliases := by simp [hsplit]
    have hres : symbols.Resolves tm aliases before g := by simpa using hr [] g after rfl
    obtain ⟨t₁, ht₁, h₁⟩ := h.compile hc hg hres
    obtain ⟨t', ht', h'⟩ := ih h₁ (by simp [hsplit]) fun b g' l hb => by
      simpa using hr (g :: b) g' l (by rw [hb, List.cons_append])
    refine ⟨t', ?_, h'⟩
    rw [List.foldlM_cons, ht₁]
    exact ht'

theorem Added.run_resolves (hc : symbols.Chained aliases)
    {after : List (ModuleId × GlobalAlias)} (h : symbols.Added aliases before t)
    (hsplit : aliases = before ++ after) (hrun : after.foldlM (compileAlias tm) t = some t')
    (hreg : symbols.Registers aliases t') :
    (∀ b g l, after = b ++ g :: l → symbols.Resolves tm aliases (before ++ b) g) ∧
      symbols.Added aliases aliases t' := by
  induction after generalizing before t with
  | nil =>
    cases hrun
    rw [List.append_nil] at hsplit
    exact ⟨by simp, hsplit ▸ h⟩
  | cons g after ih =>
    have hg : g ∈ aliases := by simp [hsplit]
    rw [List.foldlM_cons] at hrun
    obtain ⟨t₁, ht₁, hrun⟩ := Option.bind_eq_some_iff.mp hrun
    have hnames : ∀ g' ∈ after, ∃ name, g'.2.aliasee.base = some (.name name) := by
      intro g' hg'
      obtain ⟨name, -, -, hb, -⟩ := hc.ends g' (by simp [hsplit, hg'])
      exact ⟨name, hb⟩
    -- what the loop adds now is still there at its end
    obtain ⟨hres, h₁⟩ := h.resolves hc hg ht₁ fun s d hs hd => by
      obtain ⟨s', a, hs', hend, hget⟩ := hreg g hg
      obtain rfl : s = s' := Option.some.inj (hs.symm.trans hs')
      exact ⟨a, hend, Option.some.inj ((foldlM_lookup hnames hrun hd).symm.trans hget)⟩
    obtain ⟨hrest, h'⟩ := ih h₁ (by simp [hsplit]) hrun
    refine ⟨fun b g' l hb => ?_, h'⟩
    cases b with
    | nil =>
      obtain rfl := (List.cons.inj hb).1
      simpa using hres
    | cons g₀ b =>
      rw [List.cons_append] at hb
      obtain ⟨rfl, hb'⟩ := List.cons.inj hb
      simpa using hrest b g' l hb'

/-- The loop gives every alias the end of its chain exactly if each resolves in its turn. -/
theorem registers_iff (hc : symbols.Chained aliases) :
    (∃ t, aliases.foldlM (compileAlias tm) symbols = some t ∧ symbols.Registers aliases t) ↔
      symbols.InOrder tm aliases := by
  constructor
  · rintro ⟨t, hrun, hreg⟩
    exact (added_nil.run_resolves hc rfl hrun hreg).1
  · intro hr
    obtain ⟨t, hrun, h⟩ := added_nil.run hc rfl hr
    exact ⟨t, hrun, h.registers hc⟩

theorem denotes_congr {aliases' : List (ModuleId × GlobalAlias)}
    (h : ∀ g, g ∈ aliases ↔ g ∈ aliases') : symbols.Denotes aliases = symbols.Denotes aliases' := by
  have hhas : symbols.Has aliases = symbols.Has aliases' := by
    funext s
    simp only [Has, h]
  funext m name s
  refine propext ⟨fun hd => ?_, fun hd => ?_⟩
  · cases hd with
    | internal hi => exact .internal (hhas ▸ hi)
    | external hi => exact .external (hhas ▸ hi)
  · cases hd with
    | internal hi => exact .internal (hhas ▸ hi)
    | external hi => exact .external (hhas ▸ hi)

theorem EndsAt.mono {aliases' : List (ModuleId × GlobalAlias)}
    (h : ∀ g, g ∈ aliases ↔ g ∈ aliases') (he : symbols.EndsAt aliases s a) :
    symbols.EndsAt aliases' s a := by
  induction he with
  | defined hs => exact .defined hs
  | link hg hs hb hd _ ih => exact .link ((h _).mp hg) hs hb (denotes_congr h ▸ hd) ih

theorem endsAt_congr {aliases' : List (ModuleId × GlobalAlias)}
    (h : ∀ g, g ∈ aliases ↔ g ∈ aliases') : symbols.EndsAt aliases = symbols.EndsAt aliases' := by
  funext s a
  exact propext ⟨fun he => he.mono h, fun he => he.mono fun g => (h g).symm⟩

theorem Chained.congr {aliases' : List (ModuleId × GlobalAlias)} (hc : symbols.Chained aliases)
    (h : ∀ g, g ∈ aliases ↔ g ∈ aliases') : symbols.Chained aliases' := by
  have hden : symbols.Denotes aliases = symbols.Denotes aliases' := denotes_congr h
  have hend : symbols.EndsAt aliases = symbols.EndsAt aliases' := endsAt_congr h
  constructor
  · exact hc.address
  · exact hend ▸ hc.unique
  · exact fun g hg => hc.global g ((h g).mpr hg)
  · intro g hg
    rw [← hden, ← hend]
    exact hc.ends g ((h g).mpr hg)

theorem Added.lookup_eq {aliases' : List (ModuleId × GlobalAlias)} (hc : symbols.Chained aliases)
    (hmem : ∀ g, g ∈ aliases ↔ g ∈ aliases') (h : symbols.Added aliases aliases t)
    (h' : symbols.Added aliases' aliases' t') (s : Symbol) :
    t'.forward.lookup s = t.forward.lookup s := by
  have hhas : symbols.Has aliases s ↔ symbols.Has aliases' s := by simp only [Has, hmem]
  cases hl : t.forward.lookup s with
  | none =>
    have hnot : ¬ symbols.Has aliases s := by
      rw [← h.has, hl]
      simp
    rw [hhas, ← h'.has, Option.not_isSome_iff_eq_none] at hnot
    exact hnot
  | some d =>
    cases d with
    | threadLocal key => exact h'.old s _ (h.threadLocal s key hl)
    -- an address is the end of a chain, which does not depend on the order
    | global a =>
      have hs : symbols.Has aliases s := (h.has s).mp (by rw [hl]; rfl)
      exact h'.lookup_of_endsAt (hc.congr hmem) (hhas.mp hs) ((h.ends s a hl).mono hmem)

theorem mem_aliasesOf {modules : List (List GlobalAlias)} {g : ModuleId × GlobalAlias} :
    g ∈ aliasesOf modules ↔ ∃ gs, modules[g.1]? = some gs ∧ g.2 ∈ gs := by
  simp only [aliasesOf, List.mem_flatMap, List.mem_map, Prod.exists, List.mem_zipIdx_iff_getElem?]
  constructor
  · rintro ⟨gs, m, hm, a, ha, rfl⟩
    exact ⟨gs, hm, ha⟩
  · rintro ⟨gs, hm, ha⟩
    exact ⟨gs, g.1, hm, g.2, ha, rfl⟩

theorem mem_aliasesOf_perm {modules modules' : List (List GlobalAlias)}
    (h : List.Forall₂ List.Perm modules modules') (g : ModuleId × GlobalAlias) :
    g ∈ aliasesOf modules ↔ g ∈ aliasesOf modules' := by
  rw [mem_aliasesOf, mem_aliasesOf]
  have hrel := rel_getElem? h g.1
  generalize modules[g.1]? = o at hrel ⊢
  generalize modules'[g.1]? = o' at hrel ⊢
  cases hrel with
  | none => simp
  | some hp => simp [hp.mem_iff]

variable (tm symbols) in
/-- Whatever the order in which each module lists its aliases, every alias gets the end of its
chain, and the table is the same. -/
def OrderIndependent (modules : List (List GlobalAlias)) : Prop :=
  ∃ t : SymbolTable, ∀ modules', List.Forall₂ List.Perm modules modules' →
    ∃ t', compileAliases tm symbols modules' = some t' ∧
      symbols.Registers (aliasesOf modules') t' ∧ ∀ s, t'.forward.lookup s = t.forward.lookup s

/-- An order gives every alias the end of its chain exactly if each alias resolves in its turn,
and all orders do, with one table, exactly if that holds for each of them. -/
theorem orderIndependent_iff {modules : List (List GlobalAlias)}
    (hc : symbols.Chained (aliasesOf modules)) :
    (∀ modules', List.Forall₂ List.Perm modules modules' →
      ((∃ t, compileAliases tm symbols modules' = some t ∧
        symbols.Registers (aliasesOf modules') t) ↔ symbols.InOrder tm (aliasesOf modules'))) ∧
    (symbols.OrderIndependent tm modules ↔
      ∀ modules', List.Forall₂ List.Perm modules modules' →
        symbols.InOrder tm (aliasesOf modules')) := by
  have hone : ∀ modules', List.Forall₂ List.Perm modules modules' →
      ((∃ t, compileAliases tm symbols modules' = some t ∧
        symbols.Registers (aliasesOf modules') t) ↔ symbols.InOrder tm (aliasesOf modules')) :=
    fun modules' hp => registers_iff (hc.congr (mem_aliasesOf_perm hp))
  refine ⟨hone, fun h modules' hp => ?_, fun h => ?_⟩
  · obtain ⟨t, hall⟩ := h
    obtain ⟨t', hrun, hreg, -⟩ := hall modules' hp
    exact (hone modules' hp).mp ⟨t', hrun, hreg⟩
  · have hrefl : List.Forall₂ List.Perm modules modules :=
      List.forall₂_same.mpr fun gs _ => List.Perm.refl gs
    obtain ⟨t, -, ht⟩ := added_nil.run hc rfl (h modules hrefl)
    refine ⟨t, fun modules' hp => ?_⟩
    have hmem := mem_aliasesOf_perm hp
    obtain ⟨t', hrun, ht'⟩ := added_nil.run (hc.congr hmem) rfl (h modules' hp)
    exact ⟨t', hrun, ht'.registers (hc.congr hmem), ht.lookup_eq hc hmem ht'⟩

theorem EndsAt.unique (hnew : ∀ g ∈ aliases, ∀ s, GlobalAlias.symbol g = some s →
      symbols.forward.lookup s = none)
    (hone : ∀ g ∈ aliases, ∀ g' ∈ aliases, ∀ s, GlobalAlias.symbol g = some s →
      GlobalAlias.symbol g' = some s → g = g')
    {b : ℕ} (h : symbols.EndsAt aliases s a) (h' : symbols.EndsAt aliases s b) : a = b := by
  induction h with
  | @defined s a hs =>
    cases h' with
    | defined hs' => exact SymbolDef.global.inj (Option.some.inj (hs.symm.trans hs'))
    | link hg hs' _ _ _ => cases hs.symm.trans (hnew _ hg s hs')
  | @link g s s₁ name a hg hs hb hden _ ih =>
    cases h' with
    | defined hs' => cases hs'.symm.trans (hnew g hg s hs)
    | @link g' _ s₂ name' _ hg' hs' hb' hden' hend' =>
      obtain rfl := hone g hg g' hg' s hs hs'
      obtain rfl := Name.name.inj (Option.some.inj (hb.symm.trans hb'))
      exact ih (hden.unique hden' ▸ hend')

theorem inOrder_of_listed (hc : symbols.Chained aliases)
    (hcomp : ∀ g ∈ aliases, (GlobalAlias.symbol g).isSome ∧ g.2.aliasee.Typed tm)
    (h : ∀ before g after, aliases = before ++ g :: after → ∀ name s,
      g.2.aliasee.base = some (.name name) → symbols.Denotes aliases g.1 name s →
      symbols.Has before s) : symbols.InOrder tm aliases := by
  intro before g after hsplit
  have hg : g ∈ aliases := by simp [hsplit]
  obtain ⟨name, s, a, hb, hden, hend⟩ := hc.ends g hg
  have hhas := h before g after hsplit name s hb hden
  refine ⟨(hcomp g hg).1, (hcomp g hg).2, name, s, s, a, hb, hden, hend, ?_, hend⟩
  cases hden with
  | internal _ => exact .internal hhas
  | external hno =>
    refine .external (fun hi => hno (hi.imp_right ?_)) hhas
    rintro ⟨g', hg', hs'⟩
    exact ⟨g', by simp [hsplit, hg'], hs'⟩

/-- An external alias of an external name. -/
def aliasTo (name target : String) : GlobalAlias :=
  ⟨.name name, .globalReference (.name target) (.integerType 32), .external⟩

/-- The function `f` alone. -/
def onlyF : SymbolTable := ⟨[(.external "f", .global 128)]⟩

theorem lookup_onlyF {s : Symbol} {d : SymbolDef} (h : onlyF.forward.lookup s = some d) :
    s = .external "f" ∧ d = .global 128 := by
  have hmem := lookup_mem h
  simpa [onlyF] using hmem

theorem symbol_aliasTo (m : ModuleId) (name target : String) :
    GlobalAlias.symbol (m, aliasTo name target) = some (.external name) := rfl

theorem not_has_internal (m m' n : ModuleId) (name : String) :
    ¬ onlyF.Has [(m, aliasTo "b" "f"), (m', aliasTo "a" "b")] (.internal n name) := by
  simp [Has, onlyF, symbol_aliasTo]

theorem chained_two (m m' : ModuleId) :
    onlyF.Chained [(m, aliasTo "b" "f"), (m', aliasTo "a" "b")] := by
  have hf : onlyF.EndsAt [(m, aliasTo "b" "f"), (m', aliasTo "a" "b")] (.external "f") 128 :=
    .defined rfl
  have hb : onlyF.EndsAt [(m, aliasTo "b" "f"), (m', aliasTo "a" "b")] (.external "b") 128 :=
    .link List.mem_cons_self rfl rfl (.external (not_has_internal m m' m "f")) hf
  constructor
  · intro s a ha
    obtain ⟨-, hd⟩ := lookup_onlyF ha
    cases hd
    decide
  · refine fun s a b => EndsAt.unique ?_ ?_
    · intro g hg s hs
      rcases List.mem_pair.mp hg with rfl | rfl
      · cases hs
        rfl
      · cases hs
        rfl
    · intro g hg g' hg' s hs hs'
      rcases List.mem_pair.mp hg with rfl | rfl <;> rcases List.mem_pair.mp hg' with rfl | rfl
      · rfl
      · cases hs
        simp [symbol_aliasTo] at hs'
      · cases hs
        simp [symbol_aliasTo] at hs'
      · rfl
  · intro g hg s key hs hl
    cases (lookup_onlyF hl).2
  · intro g hg
    rcases List.mem_pair.mp hg with rfl | rfl
    · exact ⟨"f", _, 128, rfl, .external (not_has_internal m m' m "f"), hf⟩
    · exact ⟨"b", _, 128, rfl, .external (not_has_internal m m' m' "b"), hb⟩

/-- The alias of an alias in an earlier module resolves. -/
theorem orderIndependent_two :
    onlyF.OrderIndependent ⟨[]⟩ [[aliasTo "b" "f"], [aliasTo "a" "b"]] := by
  refine (orderIndependent_iff (chained_two 0 1)).2.mpr fun modules' hp => ?_
  obtain rfl : modules' = [[aliasTo "b" "f"], [aliasTo "a" "b"]] := by
    cases hp with
    | cons hb hp =>
      cases hp with
      | cons ha hp =>
        cases hp
        rw [List.singleton_perm.mp hb, List.singleton_perm.mp ha]
  have hden : ∀ {m : ModuleId} {name : String} {s : Symbol},
      onlyF.Denotes [(0, aliasTo "b" "f"), (1, aliasTo "a" "b")] m name s →
        s = .external name := fun h => by
    cases h with
    | internal hi => exact absurd hi (not_has_internal 0 1 _ _)
    | external _ => rfl
  refine inOrder_of_listed (chained_two 0 1) (fun g hg => ?_) ?_
  · rcases List.mem_pair.mp hg with rfl | rfl
    · exact ⟨rfl, rfl⟩
    · exact ⟨rfl, rfl⟩
  · intro before g after hsplit name s hname hs
    have hlist : [(0, aliasTo "b" "f"), (1, aliasTo "a" "b")] = before ++ g :: after := hsplit
    rw [hden hs]
    rcases before with _ | ⟨g₀, _ | ⟨g₁, before⟩⟩
    · obtain ⟨rfl, -⟩ := List.cons.inj hlist
      cases hname
      exact .inl rfl
    · obtain ⟨rfl, hrest⟩ := List.cons.inj hlist
      obtain ⟨rfl, -⟩ := List.cons.inj hrest
      cases hname
      exact .inr ⟨_, List.mem_cons_self, rfl⟩
    · simp at hlist

/-- In one module, the alias that is listed before its aliasee has no symbol to find, or finds
`explode` instead; in the other order it resolves. -/
theorem orderIndependent_fails :
    onlyF.Chained (aliasesOf [[aliasTo "a" "b", aliasTo "b" "f"]]) ∧
    (compileAliases ⟨[]⟩ onlyF [[aliasTo "a" "b", aliasTo "b" "f"]]).isNone ∧
    (compileAliases ⟨[]⟩ onlyF [[aliasTo "b" "f", aliasTo "a" "b"]]).map
      (fun t => t.forward.lookup (.external "a")) = some (some (.global 128)) ∧
    (compileAliases ⟨[]⟩ ⟨(.external "explode", .global 512) :: onlyF.forward⟩
      [[aliasTo "a" "b", aliasTo "b" "f"]]).map
      (fun t => t.forward.lookup (.external "a")) = some (some (.global 512)) := by
  refine ⟨(chained_two 0 0).congr fun g => ?_, by decide +kernel, by decide +kernel,
    by decide +kernel⟩
  exact (List.Perm.swap _ _ []).mem_iff

end SymbolTable
end AtomicSim
