import Mathlib.Order.WellFoundedSet
import AtomicSim.Compile.Table
import AtomicSim.Lib.Related

namespace AtomicSim

namespace TypeRef

mutual

def names : TypeRef → List String
  | .pointerType pointee _ => names pointee
  | .funcType result params _ => names result ++ namesList params
  | .vectorType element _ | .arrayType element _ => names element
  | .structType elements _ => namesList elements
  | .namedStructType s => [s]
  | _ => []

def namesList : List TypeRef → List String
  | [] => []
  | t :: ts => names t ++ namesList ts

end

mutual

/-- The names of the structs that a value of the type contains. -/
def valueNames : TypeRef → List String
  | .vectorType element _ | .arrayType element _ => valueNames element
  | .structType elements _ => valueNamesList elements
  | .namedStructType s => [s]
  | _ => []

def valueNamesList : List TypeRef → List String
  | [] => []
  | t :: ts => valueNames t ++ valueNamesList ts

end

theorem mem_namesList {s : String} {ts : List TypeRef} :
    s ∈ namesList ts ↔ ∃ t ∈ ts, s ∈ t.names := by
  induction ts with
  | nil => simp [namesList]
  | cons t ts ih => simp [namesList, ih]

end TypeRef

namespace TypeMap

def Defined (tm : TypeMap) (t : TypeRef) : Prop :=
  ∀ s ∈ t.names, (tm.structs.lookup s).isSome

instance (tm : TypeMap) (t : TypeRef) : Decidable (tm.Defined t) :=
  inferInstanceAs (Decidable (∀ s ∈ t.names, _))

/-- The definitions only use names that have a definition. -/
def Closed (tm : TypeMap) : Prop := ∀ e ∈ tm.structs, tm.Defined e.2.typ

instance (tm : TypeMap) : Decidable tm.Closed :=
  inferInstanceAs (Decidable (∀ e ∈ tm.structs, _))

/-- A struct `s` holds a struct `s'` by value. -/
def Holds (tm : TypeMap) (s s' : String) : Prop :=
  ∃ d, tm.structs.lookup s = some d ∧ s' ∈ d.typ.valueNames

def Acyclic (tm : TypeMap) : Prop := ∀ s, ¬ Relation.TransGen tm.Holds s s

def components (tm : TypeMap) : TypeRef → List TypeRef
  | .vectorType element _ | .arrayType element _ => [tm.resolve element]
  | .structType elements _ => elements.map tm.resolve
  | _ => []

variable {tm : TypeMap}

theorem acyclic_of_rank (r : String → ℕ)
    (h : ∀ e ∈ tm.structs, ∀ s ∈ e.2.typ.valueNames, r s < r e.1) : tm.Acyclic := by
  have hstep : ∀ s s', tm.Holds s s' → r s' < r s := by
    rintro s s' ⟨d, hd, hs'⟩
    exact h (s, d) (lookup_mem hd) s' hs'
  intro s hs
  have hlt : ∀ s', Relation.TransGen tm.Holds s s' → r s' < r s := by
    intro s' hs'
    induction hs' with
    | single h => exact hstep _ _ h
    | tail _ h ih => exact (hstep _ _ h).trans ih
  exact lt_irrefl _ (hlt s hs)

theorem mem_names_of_holds {s s' : String} (h : tm.Holds s s') : s ∈ tm.names := by
  obtain ⟨d, hd, -⟩ := h
  rw [names, List.mem_toFinset]
  exact List.mem_map_of_mem (lookup_mem hd)

theorem acc_of_acyclic (h : tm.Acyclic) (s : String) : Acc (fun a b => tm.Holds b a) s := by
  let r : String → String → Prop := fun a b => Relation.TransGen tm.Holds b a
  have : IsStrictOrder String r := { irrefl := h, trans := fun _ _ _ hab hbc => hbc.trans hab }
  have hwf : (tm.names : Set String).WellFoundedOn r := tm.names.finite_toSet.wellFoundedOn
  have hout : ∀ s ∉ tm.names, Acc (fun a b => tm.Holds b a) s := by
    intro s hs
    exact ⟨s, fun a ha => absurd (mem_names_of_holds ha) hs⟩
  by_cases hs : s ∈ tm.names
  · apply hwf.induction hs
    intro b _ ih
    refine ⟨b, fun a ha => ?_⟩
    by_cases hmem : a ∈ tm.names
    · exact ih a hmem (.single ha)
    · exact hout a hmem
  · exact hout s hs

theorem resolve_namedStructType {s : String} {d : StructDef}
    (h : tm.structs.lookup s = some d) : tm.resolve (.namedStructType s) = d.typ := by
  rw [resolve, h]

/-- The class of the type is forced when the class of the other is. -/
abbrev Component (tm : TypeMap) (u t : TypeRef) : Prop := u ∈ tm.components t

section Acc

theorem acc_resolve_of_nil {t : TypeRef} (ht : ∀ s, t ≠ .namedStructType s)
    (h : tm.components t = []) : Acc tm.Component (tm.resolve t) := by
  rw [Table.resolve_of_ne ht]
  exact ⟨t, fun u hu => by rw [Component, h] at hu; cases hu⟩

theorem acc_of_components {t : TypeRef} (ht : ∀ s, t ≠ .namedStructType s)
    (h : ∀ u ∈ tm.components t, Acc tm.Component u) : Acc tm.Component (tm.resolve t) := by
  rw [Table.resolve_of_ne ht]
  exact ⟨t, h⟩

mutual

theorem acc_resolve (t : TypeRef)
    (h : ∀ s ∈ t.valueNames, Acc tm.Component (tm.resolve (.namedStructType s))) :
    Acc tm.Component (tm.resolve t) := by
  cases t with
  | namedStructType s => exact h s (List.mem_singleton_self s)
  | vectorType e n | arrayType e n =>
    apply acc_of_components (fun _ hs => by cases hs)
    intro u hu
    rw [List.mem_singleton.mp hu]
    exact acc_resolve e h
  | structType es p =>
    apply acc_of_components (fun _ hs => by cases hs)
    intro u hu
    obtain ⟨e, he, rfl⟩ := List.mem_map.mp hu
    exact acc_resolveList es h e he
  | _ => exact acc_resolve_of_nil (fun _ hs => by cases hs) rfl

theorem acc_resolveList (ts : List TypeRef)
    (h : ∀ s ∈ TypeRef.valueNamesList ts, Acc tm.Component (tm.resolve (.namedStructType s))) :
    ∀ t ∈ ts, Acc tm.Component (tm.resolve t) := by
  cases ts with
  | nil => nofun
  | cons t ts =>
    intro u hu
    rcases List.mem_cons.mp hu with hu | hu
    · rw [hu]
      exact acc_resolve t fun s hs => h s (List.mem_append_left _ hs)
    · exact acc_resolveList ts (fun s hs => h s (List.mem_append_right _ hs)) u hu

end

/-- Without a struct that contains itself, forcing goes down a well-founded relation. -/
theorem acc_component (h : tm.Acyclic) (t : TypeRef) : Acc tm.Component (tm.resolve t) := by
  have hname : ∀ s, Acc tm.Component (tm.resolve (.namedStructType s)) := by
    intro s
    induction acc_of_acyclic h s with
    | intro s _ ih =>
      cases hl : tm.structs.lookup s with
      | none =>
        rw [resolve, hl]
        exact ⟨_, fun u hu => by cases hu⟩
      | some d =>
        rw [resolve_namedStructType hl]
        exact acc_resolve d.typ fun s' hs' => ih s' ⟨d, hl, hs'⟩
  exact acc_resolve t fun s _ => hname s

end Acc

def strucFold (tm : TypeMap) (isPacked : Bool) (ts : List TypeRef) (acc : Layout × List Element) :
    Option (Layout × List Element) :=
  (tm.getList ts).bind fun classes => classes.foldlM (strucField isPacked) acc

theorem strucFold_cons (isPacked : Bool) (t : TypeRef) (ts : List TypeRef)
    (acc : Layout × List Element) : tm.strucFold isPacked (t :: ts) acc =
      (tm.get t).bind fun cls => (strucField isPacked acc cls).bind (tm.strucFold isPacked ts) := by
  unfold strucFold
  rw [getList_cons, Option.bind_assoc]
  congr
  funext cls
  rw [Option.bind_assoc, Option.bind_comm]
  rfl

theorem get_structType_eq (ts : List TypeRef) (isPacked : Bool) :
    tm.get (.structType ts isPacked) = (tm.strucFold isPacked ts (⟨0, 8⟩, [])).bind fun r =>
      r.1.padToAlign.map fun layout =>
        .mk (.structType ts isPacked) (.struc r.2 layout) layout := by
  have h0 : Layout.ofInt 0 = some ⟨0, 8⟩ := by decide
  rw [get_structType, strucFold, Option.bind_assoc]
  congr
  funext classes
  rw [strucClass, h0]
  simp only [Option.bind_eq_bind, Option.bind_some, Option.map_eq_bind]
  rfl

theorem Defined.known {t : TypeRef} (h : tm.Defined t) : Table.Known tm t := by
  rintro s rfl
  exact h s (List.mem_singleton_self s)

theorem Defined.mem {ts : List TypeRef} {isPacked : Bool}
    (h : tm.Defined (.structType ts isPacked)) : ∀ t ∈ ts, tm.Defined t :=
  fun _ ht s hs => h s (TypeRef.mem_namesList.mpr ⟨_, ht, hs⟩)

theorem Defined.func {r : TypeRef} {ps : List TypeRef} {v : Bool}
    (h : tm.Defined (.funcType r ps v)) : tm.Defined r ∧ ∀ t ∈ ps, tm.Defined t :=
  ⟨fun s hs => h s (List.mem_append_left _ hs),
    fun _ ht s hs => h s (List.mem_append_right _ (TypeRef.mem_namesList.mpr ⟨_, ht, hs⟩))⟩

theorem Defined.resolve (hc : tm.Closed) {t : TypeRef} (h : tm.Defined t) :
    tm.Defined (tm.resolve t) := by
  cases t with
  | namedStructType s =>
    obtain ⟨d, hd⟩ := Option.isSome_iff_exists.mp (h.known s rfl)
    rw [resolve_namedStructType hd]
    exact hc _ (lookup_mem hd)
  | _ => exact h

end TypeMap

namespace Table

/-- The kind in a cell is that of the class, where a reference stands for the type of its
cell. -/
inductive Reads (tm : TypeMap) (σ : Table) : KindRef → ClassKind → Prop
  | void : Reads tm σ .void .void
  | integer (bits : ℕ) : Reads tm σ (.integer bits) (.integer bits)
  | pointer {c : ClassRef} {t : TypeRef} : σ.typAt c = some (tm.resolve t) →
      Reads tm σ (.pointer c) (.pointer t)
  | fp (fptype : FPType) : Reads tm σ (.fp fptype) (.fp fptype)
  | func {c : ClassRef} {cs : List ClassRef} {t : TypeRef} {ts : List TypeRef} {v : Bool} :
      σ.typAt c = some (tm.resolve t) →
      List.Forall₂ (fun c t => σ.typAt c = some (tm.resolve t)) cs ts →
      Reads tm σ (.func c cs v) (.func t ts v)
  | vector {c : ClassRef} {cls : Class} (n : ℕ) : σ.typAt c = some cls.typ →
      Reads tm σ (.vector c n) (.vector cls n)
  | struc {fs : List (ClassRef × ℤ)} {es : List Element} (layout : Layout) :
      List.Forall₂ (fun f e => σ.typAt f.1 = some e.cls.typ ∧ f.2 = e.bitOffset) fs es →
      Reads tm σ (.struc fs layout) (.struc es layout)

structure Represents (tm : TypeMap) (σ : Table) (v : ClassInner) (cls : Class) : Prop where
  typ : v.typ = cls.typ
  layout : v.layout = cls.layout
  kind : Reads tm σ v.kind cls.kind

/-- The table between two calls, also while cells are being forced: it has no dangling names,
and a value in a cell is the class of the type of the cell. -/
structure WF (tm : TypeMap) (σ : Table) : Prop extends Indexed tm σ where
  closed : ∀ {c t}, σ.typAt c = some t → tm.Defined t
  value : ∀ {c v t}, σ.valueAt c = some v → σ.typAt c = some t →
    ∃ cls, tm.get t = some cls ∧ Represents tm σ v cls

section Extends

variable {tm : TypeMap} {σ σ' : Table}

theorem Reads.mono {k : KindRef} {k' : ClassKind} (h : Reads tm σ k k')
    (hty : ∀ c t, σ.typAt c = some t → σ'.typAt c = some t) : Reads tm σ' k k' := by
  cases h with
  | void => exact .void
  | integer bits => exact .integer bits
  | pointer hc => exact .pointer (hty _ _ hc)
  | fp fptype => exact .fp fptype
  | func hc hcs => exact .func (hty _ _ hc) (hcs.imp fun c t h => hty c _ h)
  | vector n hc => exact .vector n (hty _ _ hc)
  | struc layout hf => exact .struc layout (hf.imp fun f e h => ⟨hty _ _ h.1, h.2⟩)

theorem Represents.mono {v : ClassInner} {cls : Class} (h : Represents tm σ v cls)
    (hty : ∀ c t, σ.typAt c = some t → σ'.typAt c = some t) : Represents tm σ' v cls :=
  ⟨h.typ, h.layout, h.kind.mono hty⟩

theorem WF.got (h : σ.WF tm) {t : TypeRef} {c : ClassRef} (ht : tm.Defined t)
    (hg : Got tm σ t c σ') : σ'.WF tm where
  toIndexed := hg.indexed
  closed := by
    intro c' u hu
    rcases hg.typ_or hu with hu | rfl
    · exact h.closed hu
    · exact ht
  value := by
    intro c' v u hv hu
    rw [hg.value] at hv
    have htyp : σ.typAt c' = some u := by
      obtain ⟨cell, hcell, -⟩ := Option.bind_eq_some_iff.mp hv
      have hold : σ.typAt c' = some cell.typ := by rw [typAt, hcell]; rfl
      rw [hold, ← hu, hg.extends'.typ hold]
    obtain ⟨cls, hcls, hrep⟩ := h.value hv htyp
    exact ⟨cls, hcls, hrep.mono fun _ _ => hg.extends'.typ⟩

/-- What a call leaves behind. -/
structure After (tm : TypeMap) (σ σ' : Table) : Prop where
  wf : σ'.WF tm
  extends' : σ.Extends σ'

theorem After.trans {σ'' : Table} (h : After tm σ σ') (h' : After tm σ' σ'') : After tm σ σ'' :=
  ⟨h'.wf, h.extends'.trans h'.extends'⟩

theorem runs_get {N : ℕ} {t : TypeRef} {Q : TableError → Prop} (h : σ.WF tm) (ht : tm.Defined t) :
    Prog.Runs N (fun _ => Table.get t) σ
      (fun c σ' => After tm σ σ' ∧ σ'.typAt c = some (tm.resolve t)) Q := by
  obtain ⟨c, σ', hget, hgot⟩ := h.get ht.known
  exact .inl ⟨c, σ', fun _ _ => hget, ⟨h.got ht hgot, hgot.extends'⟩, hgot.typ⟩

theorem runs_getList {N : ℕ} {ts : List TypeRef} {Q : TableError → Prop} (h : σ.WF tm)
    (ht : ∀ t ∈ ts, tm.Defined t) : Prog.Runs N (fun _ => getList ts) σ
      (fun cs σ' => After tm σ σ' ∧
        List.Forall₂ (fun c t => σ'.typAt c = some (tm.resolve t)) cs ts) Q := by
  induction ts generalizing σ with
  | nil => exact .pure ⟨⟨h, .refl σ⟩, .nil⟩
  | cons t ts ih =>
    rw [List.forall_mem_cons] at ht
    apply (runs_get h ht.1).bind
    rintro c σ₁ ⟨h₁, hc⟩
    apply (ih h₁.wf ht.2).bind
    rintro cs σ₂ ⟨h₂, hcs⟩
    exact .pure ⟨h₁.trans h₂, .cons (h₂.extends'.typ hc) hcs⟩

end Extends

/-- No type that is forced along with `t` has a cell that is being forced. -/
def Clear (tm : TypeMap) (σ : Table) (t : TypeRef) : Prop :=
  ∀ c u, σ.Pending c → σ.typAt c = some u → ¬ Relation.ReflTransGen tm.Component u t

/-- With `N` units of fuel a cell of type `t` is forced, or the type has no class. -/
def Forces (tm : TypeMap) (N : ℕ) (t : TypeRef) : Prop :=
  ∀ {σ : Table} {c : ClassRef}, σ.WF tm → σ.typAt c = some t → Clear tm σ t →
    Prog.Runs N (fun n => force n c) σ (fun v σ' => After tm σ σ' ∧ σ'.valueAt c = some v)
      fun e => e = .panic ∧ tm.get t = none

section Inner

variable {tm : TypeMap} {σ : Table} {N : ℕ}

theorem exists_typAt_of_pending {c : ClassRef} (h : σ.Pending c) : ∃ t, σ.typAt c = some t := by
  obtain ⟨cell, hcell, -⟩ := h
  exact ⟨cell.typ, by rw [typAt, hcell]; rfl⟩

theorem Clear.after {σ' : Table} {t : TypeRef} (h : Clear tm σ t) (ha : After tm σ σ') :
    Clear tm σ' t := by
  intro c u hp hu
  have hp' := (ha.extends'.pending c).mp hp
  obtain ⟨w, hw⟩ := exists_typAt_of_pending hp'
  rw [ha.extends'.typ hw] at hu
  exact h c u hp' (Option.some.inj hu ▸ hw)

theorem After.value {σ' : Table} (h : After tm σ σ') {c : ClassRef} {t : TypeRef} {v : ClassInner}
    (ht : σ.typAt c = some t) (hv : σ'.valueAt c = some v) :
    ∃ cls, tm.get t = some cls ∧ Represents tm σ' v cls :=
  h.wf.value hv (h.extends'.typ ht)

/-- The class of an element type: `get`, and then `layout`. -/
theorem runs_element {t : TypeRef} {β γ : Type} {f : ℕ → ClassRef → ClassInner → TableM β}
    {R : β → Table → Prop} {o : Option γ} (h : σ.WF tm) (ht : tm.Defined t)
    (hf : Forces tm N (tm.resolve t)) (hc : Clear tm σ (tm.resolve t))
    (hnone : tm.get t = none → o = none)
    (hnext : ∀ {c v σ' cls}, After tm σ σ' → tm.get t = some cls → σ'.typAt c = some cls.typ →
      v.layout = cls.layout →
      Prog.Runs N (fun n => f n c v) σ' R fun e => e = .panic ∧ o = none) :
    Prog.Runs N (fun n => Table.get t >>= fun c => force n c >>= fun v => f n c v) σ R
      fun e => e = .panic ∧ o = none := by
  apply (runs_get h ht).bind
  rintro c σ₁ ⟨h₁, htyp⟩
  have hforce := hf h₁.wf htyp (hc.after h₁)
  rw [TypeMap.get_resolve] at hforce
  apply (hforce.weaken (fun _ _ => id) fun e he => ⟨he.1, hnone he.2⟩).bind
  rintro v σ₂ ⟨h₂, hv⟩
  obtain ⟨cls, hcls, hrep⟩ := h₂.value htyp hv
  rw [TypeMap.get_resolve] at hcls
  apply hnext (h₁.trans h₂) hcls _ hrep.layout
  rw [h₂.extends'.typ htyp, TypeMap.typ_get hcls]

theorem runs_vectorKind {t u : TypeRef} {packing : Packing} {len : ℕ} (h : σ.WF tm)
    (ht : tm.Defined t) (hf : Forces tm N (tm.resolve t)) (hc : Clear tm σ (tm.resolve t))
    (hu : tm.get u = (tm.get t).bind (TypeMap.vectorClass u packing len)) :
    Prog.Runs N (fun n => vectorKind (force n) packing t len) σ
      (fun r σ' => After tm σ σ' ∧
        ∃ cls, tm.get u = some cls ∧ r.2 = cls.layout ∧ Reads tm σ' r.1 cls.kind)
      fun e => e = .panic ∧ tm.get u = none := by
  apply runs_element h ht hf hc (fun hn => by rw [hu, hn]; rfl)
  intro c v σ' cls hafter hcls htyp hlayout
  rw [hlayout]
  have hclass : tm.get u = (cls.layout.repeated packing len).map fun layout =>
      .mk u (.vector cls len) layout := by
    rw [hu, hcls, Option.map_eq_bind]
    rfl
  apply Prog.Runs.bind (P := fun layout σ'' => σ' = σ'' ∧
    tm.get u = some (.mk u (.vector cls len) layout))
  · apply Prog.Runs.ofOption
    · intro layout hl
      exact ⟨rfl, by rw [hclass, hl]; rfl⟩
    · intro hn
      exact ⟨rfl, by rw [hclass, hn]; rfl⟩
  · rintro layout _ ⟨rfl, hget⟩
    exact .pure ⟨hafter, _, hget, rfl, .vector len htyp⟩

theorem runs_strucLoop (isPacked : Bool) {ts : List TypeRef}
    (acc : Layout × List (ClassRef × ℤ)) (acc' : Layout × List Element) (h : σ.WF tm)
    (ht : ∀ t ∈ ts, tm.Defined t)
    (hf : ∀ t ∈ ts, Forces tm N (tm.resolve t)) (hc : ∀ t ∈ ts, Clear tm σ (tm.resolve t))
    (hlayout : acc.1 = acc'.1)
    (hfields : List.Forall₂ (fun f e => σ.typAt f.1 = some e.cls.typ ∧ f.2 = e.bitOffset)
      acc.2 acc'.2) :
    Prog.Runs N (fun n => strucLoop (force n) isPacked ts acc) σ
      (fun r σ' => After tm σ σ' ∧
        ∃ r', tm.strucFold isPacked ts acc' = some r' ∧ r.1 = r'.1 ∧
          List.Forall₂ (fun f e => σ'.typAt f.1 = some e.cls.typ ∧ f.2 = e.bitOffset) r.2 r'.2)
      fun e => e = .panic ∧ tm.strucFold isPacked ts acc' = none := by
  induction ts generalizing σ acc acc' with
  | nil => exact .pure ⟨⟨h, .refl σ⟩, acc', rfl, hlayout, hfields⟩
  | cons t ts ih =>
    rw [List.forall_mem_cons] at ht hf hc
    rw [TypeMap.strucFold_cons]
    simp only [strucLoop]
    apply runs_element h ht.1 hf.1 hc.1 (fun hn => by rw [hn]; rfl)
    intro c v σ₁ cls h₁ hcls htyp hv
    rw [hcls, Option.bind_some, TypeMap.strucField, ← hlayout, hv]
    apply Prog.Runs.bind (P := fun r σ₂ => σ₁ = σ₂ ∧
      acc.1.extendU64 (Packing.ofBool isPacked) cls.layout = some r)
    · apply Prog.Runs.ofOption
      · exact fun r hr => ⟨rfl, hr⟩
      · exact fun hn => ⟨rfl, by rw [hn]; rfl⟩
    · rintro ⟨layout, offset⟩ _ ⟨rfl, hr⟩
      rw [hr]
      have hfields' := hfields.imp fun f e hfe =>
        (⟨h₁.extends'.typ hfe.1, hfe.2⟩ : σ₁.typAt f.1 = some e.cls.typ ∧ f.2 = e.bitOffset)
      have hlast : List.Forall₂ (fun f e => σ₁.typAt f.1 = some e.cls.typ ∧ f.2 = e.bitOffset)
          (acc.2 ++ [(c, offset)]) (acc'.2 ++ [.mk cls offset]) :=
        List.rel_append hfields' (.cons ⟨htyp, rfl⟩ .nil)
      have hrest := ih (layout, acc.2 ++ [(c, offset)]) (layout, acc'.2 ++ [.mk cls offset]) h₁.wf
        ht.2 hf.2 (fun u hu => (hc.2 u hu).after h₁) rfl hlast
      exact hrest.weaken (fun r σ₂ hr => ⟨h₁.trans hr.1, hr.2⟩) fun _ => id

theorem runs_leaf {σ' : Table} {t : TypeRef} {k : KindRef} {k' : ClassKind} {o : Option Layout}
    (h : After tm σ σ') (hk : Reads tm σ' k k')
    (hget : tm.get t = o.map fun layout => .mk t k' layout) :
    Prog.Runs N (fun _ => checked o >>= fun layout => pure (k, layout)) σ'
      (fun r σ' => After tm σ σ' ∧
        ∃ cls, tm.get t = some cls ∧ r.2 = cls.layout ∧ Reads tm σ' r.1 cls.kind)
      fun e => e = .panic ∧ tm.get t = none := by
  apply Prog.Runs.bind (P := fun layout σ'' => σ' = σ'' ∧ o = some layout)
  · apply Prog.Runs.ofOption
    · exact fun layout ho => ⟨rfl, ho⟩
    · exact fun hn => ⟨rfl, by rw [hget, hn]; rfl⟩
  · rintro layout _ ⟨rfl, ho⟩
    exact .pure ⟨h, .mk t k' layout, by rw [hget, ho]; rfl, rfl, hk⟩

theorem runs_kindLayout {t : TypeRef} (h : σ.WF tm) (ht : tm.Defined t)
    (hname : ∀ s, t ≠ .namedStructType s) (hf : ∀ u ∈ tm.components t, Forces tm N u)
    (hc : ∀ u ∈ tm.components t, Clear tm σ u) :
    Prog.Runs N (fun n => kindLayout (force n) t) σ
      (fun r σ' => After tm σ σ' ∧
        ∃ cls, tm.get t = some cls ∧ r.2 = cls.layout ∧ Reads tm σ' r.1 cls.kind)
      fun e => e = .panic ∧ tm.get t = none := by
  have hself : After tm σ σ := ⟨h, .refl σ⟩
  cases t with
  | voidType => exact .pure ⟨hself, _, rfl, rfl, .void⟩
  | metadataType => exact .pure ⟨hself, _, rfl, rfl, .void⟩
  | integerType bits => exact runs_leaf hself (.integer _) Option.map_eq_bind.symm
  | fpType fptype => exact runs_leaf hself (.fp _) Option.map_eq_bind.symm
  | pointerType pointee addrSpace =>
    have hpointee : tm.Defined pointee := ht
    apply (runs_get h hpointee).bind
    rintro c σ₁ ⟨h₁, htyp⟩
    exact runs_leaf h₁ (.pointer htyp) (by rw [Option.map_eq_bind]; rfl)
  | funcType result params isVarArg =>
    apply (runs_get h ht.func.1).bind
    rintro c σ₁ ⟨h₁, htyp⟩
    apply (runs_getList h₁.wf ht.func.2).bind
    rintro cs σ₂ ⟨h₂, htyps⟩
    exact .pure ⟨h₁.trans h₂, _, rfl, rfl, .func (h₂.extends'.typ htyp) htyps⟩
  | vectorType element len =>
    exact runs_vectorKind (t := element) h ht (hf _ (List.mem_singleton_self _))
      (hc _ (List.mem_singleton_self _)) (tm.get_vectorType element len)
  | arrayType element len =>
    exact runs_vectorKind (t := element) h ht (hf _ (List.mem_singleton_self _))
      (hc _ (List.mem_singleton_self _)) (tm.get_arrayType element len)
  | structType elements isPacked =>
    have hget : tm.get (.structType elements isPacked) = _ :=
      TypeMap.get_structType_eq elements isPacked
    have hloop := runs_strucLoop (N := N) isPacked (⟨0, 8⟩, []) (⟨0, 8⟩, []) h ht.mem
      (fun u hu => hf _ (List.mem_map_of_mem hu)) (fun u hu => hc _ (List.mem_map_of_mem hu)) rfl .nil
    have h0 : Layout.ofInt 0 = some ⟨0, 8⟩ := by decide
    simp only [kindLayout, h0]
    apply Prog.Runs.bind (P := fun start σ' => σ = σ' ∧ start = (⟨0, 8⟩ : Layout))
    · exact .inl ⟨_, σ, fun _ _ => rfl, rfl, rfl⟩
    rintro _ _ ⟨rfl, rfl⟩
    apply (hloop.weaken (fun _ _ => id) fun e he => ⟨he.1, by rw [hget, he.2]; rfl⟩).bind
    rintro ⟨layout, fields⟩ σ₁ ⟨h₁, ⟨layout', fields'⟩, hfold, rfl, hfields⟩
    rw [hfold, Option.bind_some] at hget
    apply Prog.Runs.bind (P := fun padded σ₂ => σ₁ = σ₂ ∧ layout.padToAlign = some padded)
    · apply Prog.Runs.ofOption
      · exact fun padded hp => ⟨rfl, hp⟩
      · exact fun hn => ⟨rfl, by rw [hget, hn]; rfl⟩
    rintro padded _ ⟨rfl, hp⟩
    rw [hp] at hget
    exact .pure ⟨h₁, _, hget, rfl, .struc padded hfields⟩
  | labelType => exact .fail ⟨rfl, rfl⟩
  | tokenType => exact .fail ⟨rfl, rfl⟩
  | x86MMXType => exact .fail ⟨rfl, rfl⟩
  | namedStructType s => exact absurd rfl (hname s)

theorem runs_getInner {t : TypeRef} (h : σ.WF tm) (ht : tm.Defined t)
    (hname : ∀ s, t ≠ .namedStructType s) (hf : ∀ u ∈ tm.components t, Forces tm N u)
    (hc : ∀ u ∈ tm.components t, Clear tm σ u) :
    Prog.Runs N (fun n => getInner (force n) t) σ
      (fun v σ' => After tm σ σ' ∧ ∃ cls, tm.get t = some cls ∧ Represents tm σ' v cls)
      fun e => e = .panic ∧ tm.get t = none := by
  apply (runs_kindLayout h ht hname hf hc).bind
  rintro ⟨kind, layout⟩ σ₁ ⟨h₁, cls, hcls, hlayout, hkind⟩
  let σ₂ : Table := { σ₁ with nextId := σ₁.nextId + 1 }
  have hext : σ₁.Extends σ₂ := ⟨id, id, id, fun _ => Iff.rfl⟩
  have hwf : σ₂.WF tm := by
    refine ⟨h₁.wf.toIndexed.congr rfl rfl, h₁.wf.closed, ?_⟩
    intro c v u hv hu
    obtain ⟨cls, hcls, hrep⟩ := h₁.wf.value hv hu
    exact ⟨cls, hcls, hrep.mono fun _ _ => id⟩
  have htyp : t = cls.typ := by rw [TypeMap.typ_get hcls, resolve_of_ne hname]
  refine .inl ⟨_, σ₂, fun _ _ => rfl, h₁.trans ⟨hwf, hext⟩, cls, hcls, htyp, hlayout, ?_⟩
  exact hkind.mono fun _ _ => id

theorem force_of_value {c : ClassRef} {v : ClassInner} (hv : σ.valueAt c = some v) (n : ℕ) :
    force (n + 1) c σ = .done v σ := by
  obtain ⟨cell, hcell, hvalue⟩ := Option.bind_eq_some_iff.mp hv
  simp only [force, hcell, hvalue]

theorem force_of_fresh {c : ClassRef} {t : TypeRef} (ht : σ.typAt c = some t)
    (hv : σ.valueAt c = none) (hp : ¬ σ.Pending c) (n : ℕ) : force (n + 1) c σ =
      (Prog.modify (fun σ => σ.take c) >>= fun _ => getInner (force n) t >>= set c) σ := by
  obtain ⟨cell, hcell, rfl⟩ := Option.map_eq_some_iff.mp ht
  have hnone : cell.value = none := by rw [valueAt, hcell] at hv; exact hv
  have hproducer : cell.producer = true := by
    by_contra hn
    exact hp ⟨cell, hcell, by simpa using hn, hnone⟩
  simp only [force, hcell, hnone, hproducer, if_true]

theorem WF.take (h : σ.WF tm) (c : ClassRef) : (σ.take c).WF tm := by
  refine ⟨h.toIndexed.congr (typAt_take σ c) (lookup_take σ c), ?_, ?_⟩
  · rw [typAt_take]
    exact h.closed
  · intro d v u hv hu
    rw [valueAt_take] at hv
    rw [typAt_take] at hu
    obtain ⟨cls, hcls, hrep⟩ := h.value hv hu
    exact ⟨cls, hcls, hrep.mono fun _ _ hd => by rw [typAt_take]; exact hd⟩

theorem WF.setValue (h : σ.WF tm) {c : ClassRef} {t : TypeRef} {v : ClassInner} {cls : Class}
    (ht : σ.typAt c = some t) (hcls : tm.get t = some cls) (hrep : Represents tm σ v cls) :
    (σ.setValue c v).WF tm := by
  have hmono : ∀ d u, σ.typAt d = some u → (σ.setValue c v).typAt d = some u := by
    intro d u hd
    rw [typAt_setValue]
    exact hd
  refine ⟨h.toIndexed.congr (typAt_setValue σ c v) (lookup_setValue σ c v), ?_, ?_⟩
  · rw [typAt_setValue]
    exact h.closed
  · intro d w u hw hu
    rw [valueAt_setValue σ ht] at hw
    rw [typAt_setValue] at hu
    split_ifs at hw with hd
    · rw [hd, ht] at hu
      cases hu
      cases hw
      exact ⟨cls, hcls, hrep.mono hmono⟩
    · obtain ⟨cls', hcls', hrep'⟩ := h.value hw hu
      exact ⟨cls', hcls', hrep'.mono hmono⟩

theorem not_component_self {t u : TypeRef} (h : Acc tm.Component t) (hu : tm.Component u t) :
    ¬ Relation.ReflTransGen tm.Component t u := by
  induction h generalizing u with
  | intro t _ ih =>
    intro hr
    -- the cycle through `t` goes through `u` as well
    rcases Relation.ReflTransGen.cases_tail hr with rfl | ⟨w, htw, hwu⟩
    · exact ih u hu hu .refl
    · exact ih u hu hwu (Relation.ReflTransGen.head hu htw)

theorem After.finish {σ' : Table} {c : ClassRef} {t : TypeRef} {v : ClassInner} {cls : Class}
    (ht : σ.typAt c = some t) (hv : σ.valueAt c = none) (hp : ¬ σ.Pending c)
    (ha : After tm (σ.take c) σ') (hcls : tm.get t = some cls) (hrep : Represents tm σ' v cls) :
    set c v σ' = .done v (σ'.setValue c v) ∧ After tm σ (σ'.setValue c v) ∧
      (σ'.setValue c v).valueAt c = some v := by
  have hpending := σ.pending_take ht hv
  have htyp : ∀ {d u}, σ.typAt d = some u → σ'.typAt d = some u := by
    intro d u hd
    apply ha.extends'.typ
    rw [typAt_take]
    exact hd
  have hpc : σ'.Pending c := (ha.extends'.pending c).mpr ((hpending c).mpr (.inr rfl))
  have hvalue := valueAt_setValue σ' (htyp ht) v
  refine ⟨?_, ⟨ha.wf.setValue (htyp ht) hcls hrep, ?_⟩, ?_⟩
  · simp only [set, valueAt_of_pending hpc]
  · constructor
    case typ =>
      intro d u hd
      rw [typAt_setValue]
      exact htyp hd
    case value =>
      intro d w hd
      have hdc : d ≠ c := by
        rintro rfl
        rw [hv] at hd
        cases hd
      rw [hvalue, if_neg hdc]
      apply ha.extends'.value
      rw [valueAt_take]
      exact hd
    case lookup => exact fun hl => ha.extends'.lookup hl
    case pending =>
      intro d
      rw [pending_setValue, ha.extends'.pending, hpending]
      constructor
      · exact fun h => h.1.resolve_right h.2
      · exact fun h => ⟨.inl h, fun hd => hp (hd ▸ h)⟩
  · rw [hvalue, if_pos rfl]

theorem Forces.succ {t : TypeRef} (hself : ∀ u ∈ tm.components t, ¬ Relation.ReflTransGen
    tm.Component t u) (h : ∀ u ∈ tm.components t, Forces tm N u) : Forces tm (N + 1) t := by
  intro σ c hwf ht hclear
  apply Prog.Runs.succ
  cases hv : σ.valueAt c with
  | some v => exact .inl ⟨v, σ, fun n _ => force_of_value hv n, ⟨hwf, .refl σ⟩, hv⟩
  | none =>
    have hp : ¬ σ.Pending c := fun hp => hclear c t hp ht .refl
    have hname : ∀ s, t ≠ .namedStructType s := fun s hs => hwf.unnamed (hs ▸ ht)
    -- what is being forced now is `c`, and what was being forced before
    have hclear' : ∀ u ∈ tm.components t, Clear tm (σ.take c) u := by
      intro u hu d w hd hw hr
      rw [typAt_take] at hw
      rcases (σ.pending_take ht hv d).mp hd with hd | rfl
      · exact hclear d w hd hw (hr.tail hu)
      · rw [ht] at hw
        exact hself u hu (Option.some.inj hw ▸ hr)
    apply Prog.Runs.congr _ fun n _ => force_of_fresh ht hv hp n
    apply Prog.Runs.bind (P := fun _ σ' => σ' = σ.take c) (.modify rfl)
    rintro _ _ rfl
    apply (runs_getInner (hwf.take c) (hwf.closed ht) hname h hclear').bind
    rintro v σ₁ ⟨hafter, cls, hcls, hrep⟩
    obtain ⟨hset, hdone⟩ := hafter.finish ht hv hp hcls hrep
    exact .inl ⟨v, _, fun _ _ => hset, hdone⟩

theorem exists_forces {t : TypeRef} (h : Acc tm.Component t) : ∃ N, Forces tm N t := by
  induction h with
  | intro t hacc ih =>
    obtain ⟨N, hN⟩ := Prog.Runs.exists_bound (R := fun u N => Forces tm N u) (tm.components t)
      (fun u N M hu hNM σ c hwf ht hclear => (hu hwf ht hclear).mono_fuel hNM) ih
    exact ⟨N + 1, Forces.succ (fun u hu => not_component_self ⟨t, hacc⟩ hu) hN⟩

end Inner

/-- The tables of the runs that first add modules, then look classes up and force them. -/
inductive Reachable (ms : List Module) : Table → Prop
  | added {σ : Table} : addModules ms new = .done () σ → Reachable ms σ
  | get {σ σ' : Table} {t : TypeRef} {c : ClassRef} : Reachable ms σ →
      (TypeMap.ofModules ms).Defined t → Table.get t σ = .done c σ' → Reachable ms σ'
  | force {σ σ' : Table} {c : ClassRef} {v : ClassInner} {N : ℕ} : Reachable ms σ →
      (∀ n ≥ N, Table.force n c σ = .done v σ') → Reachable ms σ'

/-- Between two calls nothing is being forced. -/
structure Settled (tm : TypeMap) (σ : Table) : Prop where
  wf : σ.WF tm
  pending : ∀ c, ¬ σ.Pending c

section Settled

variable {tm : TypeMap} {σ : Table}

theorem Loaded.settled (h : σ.Loaded tm) (hclosed : tm.Closed) : σ.Settled tm where
  wf := by
    refine ⟨h.indexed, ?_, ?_⟩
    · intro c t ht
      obtain ⟨e, he, rfl⟩ := h.made ht
      exact hclosed e he
    · intro c v t hv
      rw [h.value c] at hv
      cases hv
  pending := h.pending

theorem Settled.after {σ' : Table} (h : σ.Settled tm) (ha : After tm σ σ') : σ'.Settled tm :=
  ⟨ha.wf, fun c hp => h.pending c ((ha.extends'.pending c).mp hp)⟩

theorem Settled.get (h : σ.Settled tm) {t : TypeRef} (ht : tm.Defined t) :
    ∃ c σ', Table.get t σ = .done c σ' ∧ σ'.Settled tm ∧ σ'.typAt c = some (tm.resolve t) := by
  obtain ⟨c, σ', hget, hgot⟩ := h.wf.get ht.known
  exact ⟨c, σ', hget, h.after ⟨h.wf.got ht hgot, hgot.extends'⟩, hgot.typ⟩

theorem Settled.force (h : σ.Settled tm) (hacyclic : tm.Acyclic) {c : ClassRef} {t : TypeRef}
    (ht : σ.typAt c = some t) :
    ∃ N, Prog.Runs N (fun n => Table.force n c) σ
      (fun v σ' => After tm σ σ' ∧ σ'.valueAt c = some v) fun e => e = .panic ∧ tm.get t = none := by
  have hname : ∀ s, t ≠ .namedStructType s := fun s hs => h.wf.unnamed (hs ▸ ht)
  have hacc := TypeMap.acc_component hacyclic t
  rw [resolve_of_ne hname] at hacc
  obtain ⟨N, hN⟩ := exists_forces hacc
  exact ⟨N, hN h.wf ht fun d u hp => absurd hp (h.pending d)⟩

theorem Reachable.settled {ms : List Module} (h : Reachable ms σ)
    (hclosed : (TypeMap.ofModules ms).Closed) (hacyclic : (TypeMap.ofModules ms).Acyclic) :
    σ.Settled (.ofModules ms) := by
  induction h with
  | added ha => exact (loaded_of_addModules ha).settled hclosed
  | @get σ σ' t c _ ht hget ih =>
    obtain ⟨c', σ₁, hget', hset, -⟩ := ih.get ht
    rw [hget] at hget'
    cases hget'
    exact hset
  | @force σ σ' c v N _ hforce ih =>
    cases htyp : σ.typAt c with
    | none =>
      -- there is no such cell
      have hcell : σ.lazies[c]? = none := Option.map_eq_none_iff.mp htyp
      have hfail := hforce (N + 1) (Nat.le_succ N)
      simp only [Table.force, hcell] at hfail
      cases hfail
    | some t =>
      obtain ⟨M, hM⟩ := ih.force hacyclic htyp
      rcases hM with ⟨w, σ₁, hrun, ha, -⟩ | ⟨e, hrun, -⟩
      · have hsame := (hforce _ (Nat.le_max_left N M)).symm.trans (hrun _ (Nat.le_max_right N M))
        cases hsame
        exact ih.after ha
      · have hsame := (hforce _ (Nat.le_max_left N M)).symm.trans (hrun _ (Nat.le_max_right N M))
        cases hsame

theorem WF.upgrade (h : σ.WF tm) {c : ClassRef} {t : TypeRef} (ht : σ.typAt c = some t) :
    σ.upgrade c = some c := by
  apply if_pos
  exact ⟨(t, c), lookup_mem (h.keyed ht), rfl⟩

theorem WF.upgrade_pointee (h : σ.WF tm) {c p : ClassRef} {v : ClassInner}
    (hv : σ.valueAt c = some v) (hk : v.kind = .pointer p) : σ.upgrade p = some p := by
  obtain ⟨cell, hcell, -⟩ := Option.bind_eq_some_iff.mp hv
  have ht : σ.typAt c = some cell.typ := by rw [typAt, hcell]; rfl
  obtain ⟨cls, -, hrep⟩ := h.value hv ht
  have hkind := hrep.kind
  rw [hk] at hkind
  generalize cls.kind = k at hkind
  cases hkind with
  | pointer hp => exact h.upgrade hp

end Settled

/-- Whatever is looked up and forced, if all names are defined and no struct contains itself:
every type has a class, and forcing it comes to an end with what the definitions make of its
type, or panics because they make nothing of it; no cell is forced while it is being forced,
and every pointee is still there. -/
theorem force_terminates {ms : List Module} (hclosed : (TypeMap.ofModules ms).Closed)
    (hacyclic : (TypeMap.ofModules ms).Acyclic) {σ : Table} (h : Reachable ms σ) :
    (∀ t, (TypeMap.ofModules ms).Defined t → ∃ c σ', Table.get t σ = .done c σ' ∧
      σ'.typAt c = some ((TypeMap.ofModules ms).resolve t)) ∧
    (∀ c t, σ.typAt c = some t → ∃ N,
      (∃ v σ' cls, (∀ n ≥ N, Table.force n c σ = .done v σ') ∧
        (TypeMap.ofModules ms).get t = some cls ∧ Represents (.ofModules ms) σ' v cls ∧
        ∀ p, v.kind = .pointer p → σ'.upgrade p = some p) ∨
      ((∀ n ≥ N, Table.force n c σ = .fail .panic) ∧ (TypeMap.ofModules ms).get t = none)) ∧
    ∀ c v p, σ.valueAt c = some v → v.kind = .pointer p → σ.upgrade p = some p := by
  have hset := h.settled hclosed hacyclic
  refine ⟨fun t ht => ?_, fun c t ht => ?_, fun c v p => hset.wf.upgrade_pointee⟩
  · obtain ⟨c, σ', hget, -, htyp⟩ := hset.get ht
    exact ⟨c, σ', hget, htyp⟩
  · obtain ⟨N, hrun⟩ := hset.force hacyclic ht
    rcases hrun with ⟨v, σ', hforce, ha, hv⟩ | ⟨e, hforce, rfl, hnone⟩
    · obtain ⟨cls, hcls, hrep⟩ := ha.value ht hv
      exact ⟨N, .inl ⟨v, σ', cls, hforce, hcls, hrep, fun p => ha.wf.upgrade_pointee hv⟩⟩
    · exact ⟨N, .inr ⟨hforce, hnone⟩⟩

/-- A struct that points to itself, and a struct of two of them. -/
theorem force_terminates_list :
    let node : TypeRef := .namedStructType "Node"
    let ms : List Module := [⟨[("Pair", some ⟨[node, node], false⟩),
      ("Node", some ⟨[.integerType 32, .pointerType node 0, .funcType .voidType [node] false],
        false⟩)]⟩]
    ∃ σ, Reachable ms σ ∧ ∃ N v σ', (∀ n ≥ N, Table.force n 0 σ = .done v σ') ∧
      v.layout = ⟨4352, 64⟩ := by
  intro node ms
  have hacyclic : (TypeMap.ofModules ms).Acyclic := by
    apply TypeMap.acyclic_of_rank fun s => if s = "Pair" then 1 else 0
    decide
  have h : Reachable ms _ := .added rfl
  let pair : TypeRef := .structType [node, node] false
  obtain ⟨N, hforce⟩ := (force_terminates (by decide) hacyclic h).2.1 0 pair rfl
  have hlayout : ((TypeMap.ofModules ms).get pair).map Class.layout = some ⟨4352, 64⟩ := by
    decide +kernel
  rcases hforce with ⟨v, σ', cls, hforce, hcls, hrep, -⟩ | ⟨-, hnone⟩
  · rw [hcls] at hlayout
    exact ⟨_, h, N, v, σ', hforce, hrep.layout.trans (Option.some.inj hlayout)⟩
  · rw [hnone] at hlayout
    cases hlayout

end Table
end AtomicSim
