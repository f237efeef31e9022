import Mathlib.Logic.Relation
import AtomicSim.Lib.Fueled
import AtomicSim.Compile.Class

namespace AtomicSim

/-- A class as the code passes it around: which lazy cell it is. Classes are compared so. -/
abbrev ClassRef := ℕ

/-- `ClassKind`, with the classes in it by reference; the reference of a pointer is weak. -/
inductive KindRef where
  | void
  | integer (bits : ℕ)
  | pointer (pointee : ClassRef)
  | fp (fptype : FPType)
  | func (result : ClassRef) (params : List ClassRef) (isVarArg : Bool)
  | vector (element : ClassRef) (len : ℕ)
  | struc (fields : List (ClassRef × ℤ)) (layout : Layout)
  deriving DecidableEq, Repr

structure ClassInner where
  id : ℕ
  typ : TypeRef
  kind : KindRef
  layout : Layout
  deriving DecidableEq, Repr

/-- `Lazy<ClassInner>`: whether the producer is still there, the type that it has captured,
and the value. -/
structure LazyClass where
  typ : TypeRef
  producer : Bool
  value : Option ClassInner
  deriving DecidableEq, Repr

/-- `TypeMapInner`, with the cells that it has made. Of `types` only the names of its structs
matter: the other types it makes are the ones asked for. -/
structure Table where
  types : List String
  lazies : List LazyClass
  table : List (TypeRef × ClassRef)
  nextId : ℕ
  deriving DecidableEq, Repr

inductive TableError where
  /-- `force().unwrap()` on a cell that is being forced. -/
  | recursive
  /-- `todo!`, an overflow, or an assertion about a layout. -/
  | panic
  deriving DecidableEq, Repr

abbrev TableM (α : Type) : Type := Prog TableError Table α

/-- `module.types`: the named structs that a module defines; `none` is an opaque one. -/
structure Module where
  structs : List (String × Option StructDef)

namespace Table

/-- `Types::blank_for_testing` knows no struct. -/
def new : Table := ⟨[], [], [], 0⟩

def lookup (σ : Table) (t : TypeRef) : Option ClassRef := σ.table.lookup t

def typAt (σ : Table) (c : ClassRef) : Option TypeRef := σ.lazies[c]?.map LazyClass.typ

def valueAt (σ : Table) (c : ClassRef) : Option ClassInner := σ.lazies[c]?.bind LazyClass.value

/-- `table.insert`, which drops what was there under the type. -/
def insert (σ : Table) (t : TypeRef) (c : ClassRef) : Table :=
  { σ with table := (t, c) :: σ.table.filter fun e => e.1 ≠ t }

def alloc (σ : Table) (t : TypeRef) : Table := { σ with lazies := σ.lazies ++ [⟨t, true, none⟩] }

/-- `producer.take()`. -/
def take (σ : Table) (c : ClassRef) : Table :=
  { σ with lazies := σ.lazies.modify c fun l => { l with producer := false } }

def setValue (σ : Table) (c : ClassRef) (inner : ClassInner) : Table :=
  { σ with lazies := σ.lazies.modify c fun l => { l with value := some inner } }

/-- `ClassWeak::upgrade`: the table holds the class. -/
def upgrade (σ : Table) (c : ClassRef) : Option ClassRef :=
  if ∃ e ∈ σ.table, e.2 = c then some c else none

def get (t : TypeRef) : TableM ClassRef := fun σ =>
  match σ.lookup t with
  | some c => .done c σ
  | none => .done σ.lazies.length ((σ.alloc t).insert t σ.lazies.length)

def getList : List TypeRef → TableM (List ClassRef)
  | [] => pure []
  | t :: ts => do
    let c ← get t
    let cs ← getList ts
    pure (c :: cs)

/-- A computation on layouts, which may panic. -/
def checked {α : Type} (o : Option α) : TableM α := .ofOption .panic o

section Inner

variable (force : ClassRef → TableM ClassInner)

/-- The loop over the element types of a struct. -/
def strucLoop (isPacked : Bool) : List TypeRef → Layout × List (ClassRef × ℤ) →
    TableM (Layout × List (ClassRef × ℤ))
  | [], acc => pure acc
  | t :: ts, acc => do
    let cls ← get t
    let inner ← force cls
    let (layout, offset) ← checked (acc.1.extendU64 (Packing.ofBool isPacked) inner.layout)
    strucLoop isPacked ts (layout, acc.2 ++ [(cls, offset)])

/-- An array gets a `VectorClass` as well. -/
def vectorKind (packing : Packing) (element : TypeRef) (len : ℕ) : TableM (KindRef × Layout) := do
  let cls ← get element
  let inner ← force cls
  let layout ← checked (inner.layout.repeated packing len)
  pure (.vector cls len, layout)

/-- The match in `get_inner`. -/
def kindLayout : TypeRef → TableM (KindRef × Layout)
  | .voidType | .metadataType => pure (.void, Layout.fromBytes 0 1)
  | .integerType bits => do
    let layout ← checked (Layout.ofInt bits.toNat)
    pure (.integer bits.toNat, layout)
  | .pointerType pointee _ => do
    let pointee ← get pointee
    let layout ← checked (Layout.ofInt TypeMap.ptrBits)
    pure (.pointer pointee, layout)
  | .fpType fptype => do
    let layout ← checked (TypeMap.fpLayout fptype)
    pure (.fp fptype, layout)
  | .funcType result params isVarArg => do
    let result ← get result
    let params ← getList params
    pure (.func result params isVarArg, Layout.ofFunc)
  | .vectorType element len => vectorKind force .bit element len
  | .arrayType element len => vectorKind force .none element len
  | .structType elements isPacked => do
    let start ← checked (Layout.ofInt 0)
    let (layout, fields) ← strucLoop force isPacked elements (start, [])
    let layout ← checked layout.padToAlign
    pure (.struc fields layout, layout)
  | .labelType | .tokenType | .x86MMXType | .namedStructType _ => .fail .panic

def getInner (t : TypeRef) : TableM ClassInner := do
  let (kind, layout) ← kindLayout force t
  let id ← Prog.gets Table.nextId
  Prog.modify fun σ => { σ with nextId := id + 1 }
  pure ⟨id, t, kind, layout⟩

end Inner

/-- `assert!(self.value.set(..).is_ok())`. -/
def set (c : ClassRef) (inner : ClassInner) : TableM ClassInner := fun σ =>
  match σ.valueAt c with
  | none => .done inner (σ.setValue c inner)
  | some _ => .fail .panic

/-- `Lazy::force` and the `unwrap` of its result. -/
def force : ℕ → ClassRef → TableM ClassInner
  | 0, _ => fun _ => .running
  | n + 1, c => fun σ =>
    match σ.lazies[c]? with
    | none => .fail .panic
    | some cell =>
      match cell.value with
      | some inner => .done inner σ
      | none =>
        if cell.producer then
          (do
            Prog.modify fun σ => σ.take c
            let inner ← getInner (force n) cell.typ
            set c inner : TableM ClassInner) σ
        else .fail .recursive

/-- `named_struct`; `none` is the error. -/
def namedStruct (name : String) : TableM (Option ClassRef) := do
  let types ← Prog.gets Table.types
  if name ∈ types then
    let c ← get (.namedStructType name)
    pure (some c)
  else pure none

/-- The loop of `add_module` over the names of the structs. -/
def addStructs : List (String × Option StructDef) → TableM Unit
  | [] => pure ()
  | (_, none) :: _ => .fail .panic
  | (name, some d) :: structs => do
    let c ← get d.typ
    Prog.modify fun σ => σ.insert (.namedStructType name) c
    addStructs structs

def addModule (m : Module) : TableM Unit := addStructs m.structs

def addModules : List Module → TableM Unit
  | [] => pure ()
  | m :: ms => do
    addModule m
    addModules ms

end Table

def definitions (structs : List (String × Option StructDef)) : List (String × StructDef) :=
  (structs.filterMap fun e => e.2.map fun d => (e.1, d)).reverse

/-- The definitions of all modules; the last one of a name counts. -/
def TypeMap.ofModules (ms : List Module) : TypeMap := ⟨definitions (ms.flatMap Module.structs)⟩

namespace Table

/-- The cell is being forced. -/
def Pending (σ : Table) (c : ClassRef) : Prop :=
  ∃ cell, σ.lazies[c]? = some cell ∧ cell.producer = false ∧ cell.value = none

/-- Cells keep their types and values, and types their cells. -/
structure Extends (σ σ' : Table) : Prop where
  typ : ∀ {c t}, σ.typAt c = some t → σ'.typAt c = some t
  value : ∀ {c v}, σ.valueAt c = some v → σ'.valueAt c = some v
  lookup : ∀ {t c}, σ.lookup t = some c → σ'.lookup t = some c
  pending : ∀ c, σ'.Pending c ↔ σ.Pending c

theorem Extends.refl (σ : Table) : σ.Extends σ := ⟨id, id, id, fun _ => Iff.rfl⟩

theorem Extends.trans {σ σ' σ'' : Table} (h : σ.Extends σ') (h' : σ'.Extends σ'') :
    σ.Extends σ'' :=
  ⟨fun ht => h'.typ (h.typ ht), fun hv => h'.value (h.value hv), fun hl => h'.lookup (h.lookup hl),
    fun c => (h'.pending c).trans (h.pending c)⟩

theorem lookup_insert (σ : Table) (t u : TypeRef) (c : ClassRef) :
    (σ.insert t c).lookup u = if u = t then some c else σ.lookup u := by
  unfold lookup insert
  by_cases h : u = t
  · simp [h]
  · rw [if_neg h, List.lookup_cons, beq_false_of_ne h]
    induction σ.table with
    | nil => rfl
    | cons e l ih =>
      by_cases he : e.1 = t
      · have hue : (u == e.1) = false := beq_false_of_ne (he ▸ h)
        rw [List.filter_cons_of_neg (by simpa using he), List.lookup_cons, hue]
        exact ih
      · rw [List.filter_cons_of_pos (by simpa using he), List.lookup_cons, List.lookup_cons]
        cases u == e.1 with
        | true => rfl
        | false => exact ih

@[simp] theorem typAt_insert (σ : Table) (t : TypeRef) (c : ClassRef) :
    (σ.insert t c).typAt = σ.typAt := rfl

@[simp] theorem valueAt_insert (σ : Table) (t : TypeRef) (c : ClassRef) :
    (σ.insert t c).valueAt = σ.valueAt := rfl

theorem typAt_alloc (σ : Table) (t : TypeRef) (c : ClassRef) :
    (σ.alloc t).typAt c = if c = σ.lazies.length then some t else σ.typAt c := by
  rw [typAt, alloc, typAt, List.getElem?_append]
  split_ifs with hlt heq heq
  · exact absurd heq hlt.ne
  · rfl
  · simp [heq]
  · have hgt : σ.lazies.length < c := lt_of_le_of_ne (Nat.not_lt.mp hlt) (Ne.symm heq)
    have hsub : [(⟨t, true, none⟩ : LazyClass)].length ≤ c - σ.lazies.length :=
      Nat.sub_pos_of_lt hgt
    rw [List.getElem?_eq_none hsub, List.getElem?_eq_none hgt.le]

theorem valueAt_alloc (σ : Table) (t : TypeRef) : (σ.alloc t).valueAt = σ.valueAt := by
  funext c
  rw [valueAt, alloc, valueAt, List.getElem?_append]
  split_ifs with hlt
  · rfl
  · rw [List.getElem?_eq_none (l := σ.lazies) (Nat.not_lt.mp hlt)]
    cases c - σ.lazies.length <;> rfl

theorem pending_alloc (σ : Table) (t : TypeRef) (c : ClassRef) :
    (σ.alloc t).Pending c ↔ σ.Pending c := by
  unfold Pending alloc
  apply exists_congr
  intro cell
  rw [List.getElem?_append]
  split_ifs with hlt
  · rfl
  · constructor
    · rintro ⟨hcell, hproducer, -⟩
      have heq := List.mem_singleton.mp (List.mem_of_getElem? hcell)
      rw [heq] at hproducer
      cases hproducer
    · rintro ⟨hcell, -⟩
      rw [List.getElem?_eq_none (Nat.not_lt.mp hlt)] at hcell
      cases hcell

theorem lt_of_typAt {σ : Table} {c : ClassRef} {t : TypeRef} (h : σ.typAt c = some t) :
    c < σ.lazies.length := by
  obtain ⟨cell, hcell, -⟩ := Option.map_eq_some_iff.mp h
  exact (List.getElem?_eq_some_iff.mp hcell).1

@[simp] theorem lookup_take (σ : Table) (c : ClassRef) : (σ.take c).lookup = σ.lookup := rfl

@[simp] theorem lookup_setValue (σ : Table) (c : ClassRef) (v : ClassInner) :
    (σ.setValue c v).lookup = σ.lookup := rfl

@[simp] theorem typAt_take (σ : Table) (c : ClassRef) : (σ.take c).typAt = σ.typAt := by
  funext d
  rw [typAt, take, typAt, List.getElem?_modify, Option.map_eq_map, Option.map_map]
  congr 1
  funext cell
  dsimp only [Function.comp]
  split_ifs <;> rfl

@[simp] theorem valueAt_take (σ : Table) (c : ClassRef) : (σ.take c).valueAt = σ.valueAt := by
  funext d
  rw [valueAt, take, valueAt, List.getElem?_modify, Option.map_eq_map, Option.bind_map]
  congr 1
  funext cell
  dsimp only [Function.comp]
  split_ifs <;> rfl

@[simp] theorem typAt_setValue (σ : Table) (c : ClassRef) (v : ClassInner) :
    (σ.setValue c v).typAt = σ.typAt := by
  funext d
  rw [typAt, setValue, typAt, List.getElem?_modify, Option.map_eq_map, Option.map_map]
  congr 1
  funext cell
  dsimp only [Function.comp]
  split_ifs <;> rfl

theorem valueAt_setValue (σ : Table) {c : ClassRef} {t : TypeRef} (hc : σ.typAt c = some t)
    (v : ClassInner) (d : ClassRef) :
    (σ.setValue c v).valueAt d = if d = c then some v else σ.valueAt d := by
  rw [valueAt, setValue, valueAt, List.getElem?_modify, Option.map_eq_map, Option.bind_map]
  by_cases hd : d = c
  · obtain ⟨cell, hcell, -⟩ := Option.map_eq_some_iff.mp hc
    simp [hd, hcell]
  · rw [if_neg hd]
    congr 1
    funext cell
    simp only [Function.comp, if_neg (Ne.symm hd)]

theorem pending_take (σ : Table) {c : ClassRef} {t : TypeRef} (hc : σ.typAt c = some t)
    (hv : σ.valueAt c = none) (d : ClassRef) : (σ.take c).Pending d ↔ σ.Pending d ∨ d = c := by
  obtain ⟨cell, hcell, -⟩ := Option.map_eq_some_iff.mp hc
  have hnone : cell.value = none := by rw [valueAt, hcell] at hv; exact hv
  unfold Pending take
  rw [List.getElem?_modify]
  by_cases hd : d = c
  · simp [hd, hcell, hnone]
  · simp [hd, Ne.symm hd]

theorem pending_setValue (σ : Table) (c : ClassRef) (v : ClassInner) (d : ClassRef) :
    (σ.setValue c v).Pending d ↔ σ.Pending d ∧ d ≠ c := by
  unfold Pending setValue
  rw [List.getElem?_modify]
  by_cases hd : d = c
  · simp [hd]
  · simp [hd, Ne.symm hd]

theorem valueAt_of_pending {σ : Table} {c : ClassRef} (h : σ.Pending c) : σ.valueAt c = none := by
  obtain ⟨cell, hcell, -, hv⟩ := h
  rw [valueAt, hcell]
  exact hv

/-- Each cell is in the table under its own type, no cell is made for a name, and under the
name of a struct is the cell of its definition. -/
structure Indexed (tm : TypeMap) (σ : Table) : Prop where
  entry : ∀ {t c}, σ.lookup t = some c → σ.typAt c = some (tm.resolve t)
  keyed : ∀ {c t}, σ.typAt c = some t → σ.lookup t = some c
  unnamed : ∀ {c s}, σ.typAt c ≠ some (.namedStructType s)
  named : ∀ {s d}, tm.structs.lookup s = some d → (σ.lookup (.namedStructType s)).isSome

theorem Indexed.congr {tm : TypeMap} {σ σ' : Table} (h : σ.Indexed tm) (ht : σ'.typAt = σ.typAt)
    (hl : σ'.lookup = σ.lookup) : σ'.Indexed tm := by
  constructor
  · rw [ht, hl]
    exact h.entry
  · rw [ht, hl]
    exact h.keyed
  · rw [ht]
    exact h.unnamed
  · rw [hl]
    exact h.named

theorem indexed_new : Indexed ⟨[]⟩ new where
  entry h := by cases h
  keyed h := by cases h
  unnamed h := by cases h
  named h := by cases h

section Get

variable {tm : TypeMap} {σ σ' : Table} {t u : TypeRef} {c c' : ClassRef}

/-- A type that is itself a name is the name of a struct in the table. -/
def Known (tm : TypeMap) (t : TypeRef) : Prop :=
  ∀ s, t = .namedStructType s → (tm.structs.lookup s).isSome

theorem resolve_of_ne (h : ∀ s, t ≠ .namedStructType s) : tm.resolve t = t := by
  cases t with
  | namedStructType s => exact absurd rfl (h s)
  | _ => rfl

/-- What `get` returns: the cell in the table, or a new one. -/
structure Got (tm : TypeMap) (σ : Table) (t : TypeRef) (c : ClassRef) (σ' : Table) : Prop where
  indexed : σ'.Indexed tm
  extends' : σ.Extends σ'
  typ : σ'.typAt c = some (tm.resolve t)
  lookup : σ'.lookup t = some c
  typ_or : ∀ {c' t'}, σ'.typAt c' = some t' → σ.typAt c' = some t' ∨ t' = t
  value : σ'.valueAt = σ.valueAt
  nextId : σ'.nextId = σ.nextId

theorem Indexed.get_new (h : σ.Indexed tm) (hl : σ.lookup t = none) (ht : Known tm t) :
    Got tm σ t σ.lazies.length ((σ.alloc t).insert t σ.lazies.length) := by
  -- named types are in the table from the start, and so one that is not found is not named
  have hname : ∀ s, t ≠ .namedStructType s := by
    intro s hs
    obtain ⟨d, hd⟩ := Option.isSome_iff_exists.mp (ht s hs)
    have hsome := h.named hd
    rw [← hs, hl] at hsome
    cases hsome
  have htyp : ∀ c, ((σ.alloc t).insert t σ.lazies.length).typAt c =
      if c = σ.lazies.length then some t else σ.typAt c := fun c => σ.typAt_alloc t c
  have hlookup : ∀ u, ((σ.alloc t).insert t σ.lazies.length).lookup u =
      if u = t then some σ.lazies.length else σ.lookup u := fun u => lookup_insert _ t u _
  have hne : ∀ {c u}, σ.typAt c = some u → c ≠ σ.lazies.length := fun h => (lt_of_typAt h).ne
  constructor
  case indexed =>
    constructor
    case entry =>
      intro u c hu
      rw [hlookup] at hu
      split_ifs at hu with hut
      · rw [htyp, if_pos (Option.some.inj hu).symm, hut, resolve_of_ne hname]
      · have hc := h.entry hu
        rw [htyp, if_neg (hne hc), hc]
    case keyed =>
      intro c u hu
      rw [htyp] at hu
      rw [hlookup]
      split_ifs at hu with hc
      · rw [if_pos (Option.some.inj hu).symm, hc]
      -- an older entry for `t` would have been found
      · have hlu := h.keyed hu
        rw [if_neg _, hlu]
        rintro rfl
        rw [hl] at hlu
        cases hlu
    case unnamed =>
      intro c s hs
      rw [htyp] at hs
      split_ifs at hs with hc
      · exact hname s (Option.some.inj hs)
      · exact h.unnamed hs
    case named =>
      intro s d hd
      rw [hlookup, if_neg (hname s).symm]
      exact h.named hd
  case extends' =>
    constructor
    case typ =>
      intro c u hu
      rw [htyp, if_neg (hne hu), hu]
    case value =>
      intro c v hv
      rw [valueAt_insert, valueAt_alloc, hv]
    case lookup =>
      intro u c hu
      rw [hlookup, if_neg _, hu]
      rintro rfl
      rw [hl] at hu
      cases hu
    case pending => exact σ.pending_alloc t
  case typ => rw [htyp, if_pos rfl, resolve_of_ne hname]
  case lookup => rw [hlookup, if_pos rfl]
  case typ_or =>
    intro c u hu
    rw [htyp] at hu
    split_ifs at hu with hc
    · exact .inr (Option.some.inj hu).symm
    · exact .inl hu
  case value => rw [valueAt_insert, valueAt_alloc]
  case nextId => rfl

theorem Indexed.get (h : σ.Indexed tm) (ht : Known tm t) :
    ∃ c σ', Table.get t σ = .done c σ' ∧ Got tm σ t c σ' := by
  unfold Table.get
  cases hl : σ.lookup t with
  | some c => exact ⟨c, σ, rfl, h, .refl σ, h.entry hl, hl, .inl, rfl, rfl⟩
  | none => exact ⟨_, _, rfl, h.get_new hl ht⟩

end Get

section Add

variable {tm : TypeMap} {σ σ' : Table} {l l' : List (String × Option StructDef)}

theorem definitions_cons_some (s : String) (d : StructDef) :
    definitions ((s, some d) :: l) = definitions l ++ [(s, d)] := by
  simp [definitions]

theorem addStructs_append (σ : Table) :
    addStructs (l ++ l') σ = (addStructs l σ).bind fun _ => addStructs l' := by
  induction l generalizing σ with
  | nil => rfl
  | cons e l ih =>
    obtain ⟨s, _ | d⟩ := e
    · rfl
    · rw [List.cons_append, addStructs, addStructs, Prog.bind_apply, Prog.bind_apply]
      cases get d.typ σ with
      | done c σ₁ => exact ih _
      | fail e => rfl
      | running => rfl

theorem addModules_eq (ms : List Module) (σ : Table) :
    addModules ms σ = addStructs (ms.flatMap Module.structs) σ := by
  induction ms generalizing σ with
  | nil => rfl
  | cons m ms ih =>
    rw [List.flatMap_cons, addStructs_append, addModules, Prog.bind_apply, addModule]
    congr
    funext _ σ
    exact ih σ

theorem Indexed.insert (h : σ.Indexed tm) {s : String} {d : StructDef} {c : ClassRef}
    (hc : σ.typAt c = some d.typ) :
    (σ.insert (.namedStructType s) c).Indexed ⟨(s, d) :: tm.structs⟩ := by
  have hresolve : ∀ u, TypeMap.resolve ⟨(s, d) :: tm.structs⟩ u =
      if u = .namedStructType s then d.typ else tm.resolve u := by
    intro u
    cases u with
    | namedStructType s' =>
      by_cases hs : s' = s
      · simp [TypeMap.resolve, hs]
      · have hbeq : (s' == s) = false := beq_false_of_ne hs
        simp [TypeMap.resolve, List.lookup_cons, hbeq, hs]
    | _ => rfl
  constructor
  case entry =>
    intro u c' hu
    rw [lookup_insert] at hu
    rw [hresolve]
    split_ifs at hu ⊢ with hus
    · rw [← Option.some.inj hu]
      exact hc
    · exact h.entry hu
  case keyed =>
    intro c' u hu
    rw [lookup_insert, if_neg _]
    · exact h.keyed hu
    · rintro rfl
      exact h.unnamed hu
  case unnamed => exact h.unnamed
  case named =>
    intro s' d' hd
    rw [lookup_insert]
    split_ifs with hs
    · rfl
    · have hbeq : (s' == s) = false := beq_false_of_ne fun hn => hs (congrArg _ hn)
      simp only [List.lookup_cons, hbeq] at hd
      exact h.named hd

/-- A table to which modules have been added and nothing else was done. -/
structure Loaded (tm : TypeMap) (σ : Table) : Prop where
  indexed : σ.Indexed tm
  made : ∀ {c t}, σ.typAt c = some t → ∃ e ∈ tm.structs, t = e.2.typ
  value : ∀ c, σ.valueAt c = none
  pending : ∀ c, ¬ σ.Pending c
  types : σ.types = []

theorem loaded_new : Loaded ⟨[]⟩ new where
  indexed := indexed_new
  made h := by cases h
  value _ := rfl
  pending _ := by rintro ⟨_, h, -⟩; cases h
  types := rfl

theorem Loaded.addStructs (h : σ.Loaded tm) (ha : Table.addStructs l σ = .done () σ') :
    σ'.Loaded ⟨definitions l ++ tm.structs⟩ := by
  induction l generalizing σ tm with
  | nil =>
    cases ha
    exact h
  | cons e l ih =>
    obtain ⟨s, _ | d⟩ := e
    · cases ha
    · obtain ⟨c, σ₁, hget, hgot⟩ := h.indexed.get (t := d.typ) nofun
      rw [Table.addStructs, Prog.bind_apply, hget] at ha
      have htypes : σ₁.types = σ.types := by
        unfold Table.get at hget
        split at hget
        · cases hget
          rfl
        · cases hget
          rfl
      have h₁ : (σ₁.insert (.namedStructType s) c).Loaded ⟨(s, d) :: tm.structs⟩ := by
        constructor
        case indexed => exact hgot.indexed.insert hgot.typ
        case made =>
          intro c' t ht
          rcases hgot.typ_or ht with ht | rfl
          · obtain ⟨e, he, hd⟩ := h.made ht
            exact ⟨e, List.mem_cons_of_mem _ he, hd⟩
          · exact ⟨_, List.mem_cons_self, rfl⟩
        case value =>
          intro c'
          rw [valueAt_insert, hgot.value]
          exact h.value c'
        case pending => exact fun c' hp => h.pending c' ((hgot.extends'.pending c').mp hp)
        case types => exact htypes.trans h.types
      rw [definitions_cons_some, List.append_assoc]
      exact ih h₁ ha

theorem loaded_of_addModules {ms : List Module} (ha : addModules ms new = .done () σ) :
    σ.Loaded (.ofModules ms) := by
  rw [addModules_eq] at ha
  have h := loaded_new.addStructs ha
  rwa [List.append_nil] at h

end Add

end Table
end AtomicSim
