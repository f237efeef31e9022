import AtomicSim.Layout
import AtomicSim.Lib.PartialMap
import AtomicSim.Compile.Types
import Mathlib.Data.List.Dedup
import Mathlib.Data.Finset.Dedup
import Mathlib.Data.Int.Basic

namespace AtomicSim

/-- `u64` multiplication, which panics on overflow. -/
def mulU64 (a b : ℕ) : Option ℕ := if a * b < 2 ^ 64 then some (a * b) else none

/-- `as i64` on a `u64`. -/
def asI64 (n : ℕ) : ℤ := Int.bmod n (2 ^ 64)

/-- A result of `i64` arithmetic, which panics on overflow. -/
def checkI64 (z : ℤ) : Option ℤ := if -2 ^ 63 ≤ z ∧ z < 2 ^ 63 then some z else none

def addI64 (a b : ℤ) : Option ℤ := checkI64 (a + b)

def mulI64 (a b : ℤ) : Option ℤ := checkI64 (a * b)

namespace Layout

def ofFunc : Layout := fromBytes 256 1

/-- `extend`, with the overflow check of its addition and the offset as an `i64`. -/
def extendU64 (l : Layout) (packing : Packing) (other : Layout) : Option (Layout × ℤ) :=
  let (layout, offset) := l.extend packing other
  if layout.bits < 2 ^ 64 then some (layout, asI64 offset.toNat) else none

/-- `Layout::repeat`. -/
def repeated (l : Layout) (packing : Packing) (n : ℕ) : Option Layout :=
  match packing with
  | .none =>
    if l.bitAlign % 8 = 0 then do
      let bits ← mulU64 (alignTo l.bits l.bitAlign) n
      fromBits bits l.bitAlign
    else none
  | .bit => do
    let bits ← mulU64 l.bits n
    fromBits bits 8
  | .byte =>
    if l.bitAlign % 8 = 0 then do
      let bits ← mulU64 (alignTo l.bits 8) n
      fromBits bits 8
    else none

end Layout

mutual

/-- A class once its lazy cell is forced. Two classes of one table are the same cell
exactly when they were made for the same type. -/
inductive Class where
  | mk (typ : TypeRef) (kind : ClassKind) (layout : Layout)

/-- What is held by value is forced with the class; a pointee, and the types of a
function, are looked up when they are asked for. -/
inductive ClassKind where
  | void
  | integer (bits : ℕ)
  | pointer (pointee : TypeRef)
  | fp (fptype : FPType)
  | func (result : TypeRef) (params : List TypeRef) (isVarArg : Bool)
  | vector (element : Class) (len : ℕ)
  | array (element : Class) (len : ℕ)
  | struc (fields : List Element) (layout : Layout)

inductive Element where
  | mk (cls : Class) (bitOffset : ℤ)

end

namespace Class

def typ : Class → TypeRef
  | mk typ _ _ => typ

def kind : Class → ClassKind
  | mk _ kind _ => kind

def layout : Class → Layout
  | mk _ _ layout => layout

end Class

namespace Element

def cls : Element → Class
  | mk cls _ => cls

def bitOffset : Element → ℤ
  | mk _ bitOffset => bitOffset

end Element

/-- The definition of a named struct is a literal struct. -/
structure StructDef where
  elementTypes : List TypeRef
  isPacked : Bool
  deriving DecidableEq, Repr

def StructDef.typ (d : StructDef) : TypeRef := .structType d.elementTypes d.isPacked

/-- What the table knows once all modules are added: the named structs, the last
definition of a name first. -/
structure TypeMap where
  structs : List (String × StructDef)
  deriving DecidableEq, Repr

namespace TypeMap

/-- `Process::new` makes the map with `TypeMap::new(64)`. -/
def ptrBits : ℕ := 64

def fpLayout : FPType → Option Layout
  | .half => Layout.ofInt 16
  | .single => Layout.ofInt 32
  | .double => Layout.ofInt 64
  | .fp128 => Layout.ofInt 128
  | .x86FP80 => Layout.fromBits 80 128
  | .ppcFP128 => Layout.ofInt 128

/-- An array gets a `VectorClass` as well; only the layouts differ. -/
def vectorClass (typ : TypeRef) (packing : Packing) (len : ℕ) (element : Class) :
    Option Class := do
  let layout ← element.layout.repeated packing len
  some (.mk typ (.vector element len) layout)

def strucField (isPacked : Bool) (acc : Layout × List Element) (cls : Class) :
    Option (Layout × List Element) := do
  let (layout, offset) ← acc.1.extendU64 (Packing.ofBool isPacked) cls.layout
  some (layout, acc.2 ++ [.mk cls offset])

def strucClass (typ : TypeRef) (isPacked : Bool) (classes : List Class) : Option Class := do
  let start ← Layout.ofInt 0
  let (layout, fields) ← classes.foldlM (strucField isPacked) (start, [])
  let layout ← layout.padToAlign
  some (.mk typ (.struc fields layout) layout)

mutual

/-- `get_inner`, where `named` gives the classes in the table under the names of structs;
every other type has a class of its own. A name that is not in the table is `todo!`. -/
def getInner (named : String → Option Class) : TypeRef → Option Class
  | .voidType => some (.mk .voidType .void (Layout.fromBytes 0 1))
  | .metadataType => some (.mk .metadataType .void (Layout.fromBytes 0 1))
  | .integerType bits => do
    let layout ← Layout.ofInt bits.toNat
    some (.mk (.integerType bits) (.integer bits.toNat) layout)
  | .pointerType pointee addrSpace => do
    let layout ← Layout.ofInt ptrBits
    some (.mk (.pointerType pointee addrSpace) (.pointer pointee) layout)
  | .fpType fptype => do
    let layout ← fpLayout fptype
    some (.mk (.fpType fptype) (.fp fptype) layout)
  | .funcType result params isVarArg =>
    some (.mk (.funcType result params isVarArg) (.func result params isVarArg) Layout.ofFunc)
  | .vectorType element len => do
    let cls ← getInner named element
    vectorClass (.vectorType element len) .bit len cls
  | .arrayType element len => do
    let cls ← getInner named element
    vectorClass (.arrayType element len) .none len cls
  | .structType elements isPacked => do
    let classes ← getInnerList named elements
    strucClass (.structType elements isPacked) isPacked classes
  | .namedStructType name => named name
  | .labelType => none
  | .tokenType => none
  | .x86MMXType => none

def getInnerList (named : String → Option Class) :
    List TypeRef → Option (List Class)
  | [] => some []
  | t :: ts => do
    let cls ← getInner named t
    let classes ← getInnerList named ts
    some (cls :: classes)

end

/-- The classes of the names, given the classes of the names they mention. -/
def unfoldNames (tm : TypeMap) (named : String → Option Class) (name : String) :
    Option Class := do
  let d ← tm.structs.lookup name
  getInner named d.typ

/-- A struct that holds itself by value has no class: its cell is forced while it is
being forced. -/
def named (tm : TypeMap) : String → Option Class :=
  PartialMap.iter tm.unfoldNames tm.structs.length

def get (tm : TypeMap) : TypeRef → Option Class := getInner tm.named

def getList (tm : TypeMap) : List TypeRef → Option (List Class) :=
  getInnerList tm.named

def resolve (tm : TypeMap) : TypeRef → TypeRef
  | .namedStructType name =>
    match tm.structs.lookup name with
    | some d => d.typ
    | none => .namedStructType name
  | t => t

def void (tm : TypeMap) : Option Class := tm.get .voidType

/-- `bits as u32`. -/
def int (tm : TypeMap) (bits : ℕ) : Option Class := tm.get (.integerType (UInt32.ofNat bits))

def bool (tm : TypeMap) : Option Class := tm.int 1

def ptr (tm : TypeMap) (pointee : Class) : Option Class := tm.get (.pointerType pointee.typ 0)

def size (tm : TypeMap) : Option Class := tm.int ptrBits

def float (tm : TypeMap) (fptype : FPType) : Option Class := tm.get (.fpType fptype)

def func (tm : TypeMap) (result : Class) (params : List Class) (isVarArg : Bool) :
    Option Class :=
  tm.get (.funcType result.typ (params.map Class.typ) isVarArg)

def vector (tm : TypeMap) (element : Class) (len : ℕ) : Option Class :=
  tm.get (.vectorType element.typ len)

def array (tm : TypeMap) (element : Class) (len : ℕ) : Option Class :=
  tm.get (.arrayType element.typ len)

def struc (tm : TypeMap) (elements : List Class) (isPacked : Bool) : Option Class :=
  tm.get (.structType (elements.map Class.typ) isPacked)

end TypeMap

namespace Class

/-- The pointee of a pointer, element of a vector or field of a struct, and the bits
from the start of the indexed value to it. -/
def element (tm : TypeMap) (c : Class) (index : ℤ) : Option Element :=
  match c.kind with
  | .void => none
  | .integer _ => none
  | .pointer pointee => do
    let pointee ← tm.get pointee
    let padded ← pointee.layout.padToAlign
    let bitOffset ← mulI64 (asI64 padded.bits) index
    some (.mk pointee bitOffset)
  | .fp _ => none
  | .func _ _ _ => none
  | .vector element _ =>
    if element.layout.bitAlign % 8 = 0 then do
      let bitOffset ← mulI64 (asI64 element.layout.bits) index
      some (.mk element bitOffset)
    else none
  | .array element _ => do
    let padded ← element.layout.padToAlign
    let bitOffset ← mulI64 (asI64 padded.bits) index
    some (.mk element bitOffset)
  | .struc fields _ => if index < 0 then none else fields[index.toNat]?

/-- One turn of the loop of `element_rec`. -/
def elementStep (tm : TypeMap) (e : Element) (index : ℤ) : Option Element := do
  let elem ← e.cls.element tm index
  let bitOffset ← addI64 e.bitOffset elem.bitOffset
  some (.mk elem.cls bitOffset)

def elementRec (tm : TypeMap) (c : Class) (indices : List ℤ) : Option Element :=
  indices.foldlM (elementStep tm) (.mk c 0)

def asVector (c : Class) : Option (Class × ℕ) :=
  match c.kind with
  | .vector element len => some (element, len)
  | _ => none

def target (tm : TypeMap) (c : Class) : Option Class := (c.element tm (-1)).map Element.cls

end Class

namespace TypeMap

variable {named named' : String → Option Class}

mutual

theorem getInner_extends (h : PartialMap.Extends named named') (t : TypeRef) (c : Class)
    (hc : getInner named t = some c) : getInner named' t = some c := by
  cases t with
  | vectorType e n | arrayType e n =>
    obtain ⟨cls, hcls, hv⟩ := Option.bind_eq_some_iff.mp hc
    exact Option.bind_eq_some_iff.mpr ⟨cls, getInner_extends h e cls hcls, hv⟩
  | structType es p =>
    obtain ⟨classes, hclasses, hv⟩ := Option.bind_eq_some_iff.mp hc
    exact Option.bind_eq_some_iff.mpr ⟨classes, getInnerList_extends h es classes hclasses, hv⟩
  | namedStructType s => exact h s c hc
  | _ => exact hc

theorem getInnerList_extends (h : PartialMap.Extends named named') (ts : List TypeRef)
    (cs : List Class) (hc : getInnerList named ts = some cs) :
    getInnerList named' ts = some cs := by
  cases ts with
  | nil => exact hc
  | cons t ts =>
    obtain ⟨cls, hcls, hrest⟩ := Option.bind_eq_some_iff.mp hc
    obtain ⟨classes, hclasses, hv⟩ := Option.bind_eq_some_iff.mp hrest
    apply Option.bind_eq_some_iff.mpr
    refine ⟨cls, getInner_extends h t cls hcls, Option.bind_eq_some_iff.mpr ?_⟩
    exact ⟨classes, getInnerList_extends h ts classes hclasses, hv⟩

end

variable (tm : TypeMap)

theorem mono_unfoldNames : PartialMap.Mono tm.unfoldNames := by
  intro f g h name c hc
  obtain ⟨d, hd, hget⟩ := Option.bind_eq_some_iff.mp hc
  exact Option.bind_eq_some_iff.mpr ⟨d, hd, getInner_extends h d.typ c hget⟩

def names : Finset String := (tm.structs.map Prod.fst).toFinset

theorem card_names_le : tm.names.card ≤ tm.structs.length := by
  rw [← List.length_map (f := Prod.fst)]
  exact List.toFinset_card_le _

theorem unfoldNames_eq_none (f : String → Option Class) (name : String) (h : name ∉ tm.names) :
    tm.unfoldNames f name = none := by
  have hl : tm.structs.lookup name = none := by
    rw [List.lookup_eq_none_iff]
    intro p hp
    by_contra hbeq
    apply h
    rw [names, List.mem_toFinset, List.mem_map]
    exact ⟨p, hp, by simpa using (Eq.symm (by simpa using hbeq))⟩
  rw [unfoldNames, hl]
  rfl

theorem named_eq (name : String) :
    tm.named name = (tm.structs.lookup name).bind fun d => tm.get d.typ := by
  have h := PartialMap.iter_stable tm.mono_unfoldNames tm.unfoldNames_eq_none tm.card_names_le
  exact (congrFun h name).symm

theorem get_vectorType (e : TypeRef) (n : ℕ) :
    tm.get (.vectorType e n) = (tm.get e).bind (vectorClass (.vectorType e n) .bit n) := rfl

theorem get_arrayType (e : TypeRef) (n : ℕ) :
    tm.get (.arrayType e n) = (tm.get e).bind (vectorClass (.arrayType e n) .none n) := rfl

theorem get_structType (es : List TypeRef) (p : Bool) :
    tm.get (.structType es p) = (tm.getList es).bind (strucClass (.structType es p) p) := rfl

theorem get_namedStructType (name : String) :
    tm.get (.namedStructType name) = (tm.structs.lookup name).bind fun d => tm.get d.typ :=
  tm.named_eq name

theorem getList_cons (t : TypeRef) (ts : List TypeRef) :
    tm.getList (t :: ts) =
      (tm.get t).bind fun cls => (tm.getList ts).bind fun classes => some (cls :: classes) := rfl

/-- A class is shared by the types that resolve to the same type. -/
theorem get_resolve (t : TypeRef) : tm.get (tm.resolve t) = tm.get t := by
  cases t with
  | namedStructType name =>
    rw [get_namedStructType, resolve]
    cases hl : tm.structs.lookup name with
    | some d => rfl
    | none =>
      show tm.get (.namedStructType name) = none
      rw [get_namedStructType, hl]
      rfl
  | _ => rfl

variable {tm} {c : Class}

theorem typ_vectorClass {typ : TypeRef} {packing : Packing} {n : ℕ} {e : Class}
    (h : vectorClass typ packing n e = some c) :
    c.typ = typ ∧ c.kind = .vector e n ∧ e.layout.repeated packing n = some c.layout := by
  obtain ⟨layout, hl, hc⟩ := Option.bind_eq_some_iff.mp h
  cases hc
  exact ⟨rfl, rfl, hl⟩

theorem typ_strucClass {typ : TypeRef} {isPacked : Bool} {classes : List Class}
    (h : strucClass typ isPacked classes = some c) :
    c.typ = typ ∧ ∃ layout fields, c.kind = .struc fields c.layout ∧
      classes.foldlM (strucField isPacked) (⟨0, 8⟩, []) = some (layout, fields) ∧
      layout.padToAlign = some c.layout := by
  have h0 : Layout.ofInt 0 = some ⟨0, 8⟩ := by decide
  rw [strucClass, h0] at h
  obtain ⟨start, hstart, h⟩ := Option.bind_eq_some_iff.mp h
  cases hstart
  obtain ⟨⟨layout, fields⟩, hfold, h⟩ := Option.bind_eq_some_iff.mp h
  obtain ⟨padded, hpad, hc⟩ := Option.bind_eq_some_iff.mp h
  cases hc
  exact ⟨rfl, layout, fields, rfl, hfold, hpad⟩

theorem typ_get {t : TypeRef} (h : tm.get t = some c) : c.typ = tm.resolve t := by
  have hstruct : ∀ es p, tm.get (.structType es p) = some c → c.typ = .structType es p := by
    intro es p hs
    obtain ⟨classes, -, hc⟩ := Option.bind_eq_some_iff.mp hs
    exact (typ_strucClass hc).1
  cases t with
  | vectorType e n | arrayType e n =>
    obtain ⟨cls, -, hv⟩ := Option.bind_eq_some_iff.mp h
    exact (typ_vectorClass hv).1
  | structType es p => exact hstruct es p h
  | namedStructType name =>
    rw [get_namedStructType] at h
    obtain ⟨d, hd, hget⟩ := Option.bind_eq_some_iff.mp h
    rw [resolve, hd]
    exact hstruct _ _ hget
  | integerType bits | fpType t =>
    obtain ⟨layout, -, hc⟩ := Option.bind_eq_some_iff.mp h
    cases hc
    rfl
  | labelType | tokenType | x86MMXType => cases h
  | _ =>
    cases h
    rfl

/-- The class is the table's class of its type. -/
def Built (tm : TypeMap) (c : Class) : Prop := tm.get c.typ = some c

theorem built_of_get {t : TypeRef} (h : tm.get t = some c) : tm.Built c := by
  rw [Built, typ_get h, get_resolve]
  exact h

theorem Built.eq_of_typ {c' : Class} (h : tm.Built c) (h' : tm.Built c') (ht : c.typ = c'.typ) :
    c = c' := by
  rw [Built] at h h'
  rw [ht, h'] at h
  exact (Option.some.inj h).symm

theorem built_of_getList {ts : List TypeRef} {cs : List Class} (h : tm.getList ts = some cs) :
    ∀ c ∈ cs, tm.Built c := by
  induction ts generalizing cs with
  | nil =>
    cases h
    exact fun _ hc => absurd hc List.not_mem_nil
  | cons t ts ih =>
    rw [getList_cons] at h
    obtain ⟨cls, hcls, h⟩ := Option.bind_eq_some_iff.mp h
    obtain ⟨classes, hclasses, h⟩ := Option.bind_eq_some_iff.mp h
    cases h
    intro c hc
    rcases List.mem_cons.mp hc with rfl | hc
    · exact built_of_get hcls
    · exact ih hclasses c hc

/-- How the class of a type that is no name came about. -/
inductive Made (tm : TypeMap) : Class → Prop
  | void : Made tm (.mk .voidType .void ⟨0, 8⟩)
  | metadata : Made tm (.mk .metadataType .void ⟨0, 8⟩)
  | integer (bits : UInt32) {layout : Layout} (hl : Layout.ofInt bits.toNat = some layout) :
    Made tm (.mk (.integerType bits) (.integer bits.toNat) layout)
  | pointer (p : TypeRef) (a : ℕ) : Made tm (.mk (.pointerType p a) (.pointer p) ⟨64, 64⟩)
  | fp (t : FPType) {layout : Layout} (hl : fpLayout t = some layout) :
    Made tm (.mk (.fpType t) (.fp t) layout)
  | func (r : TypeRef) (ps : List TypeRef) (v : Bool) :
    Made tm (.mk (.funcType r ps v) (.func r ps v) ⟨2048, 8⟩)
  | vector {t : TypeRef} {n : ℕ} {e : Class} {layout : Layout} (he : tm.get t = some e)
    (hl : e.layout.repeated .bit n = some layout) :
    Made tm (.mk (.vectorType t n) (.vector e n) layout)
  | array {t : TypeRef} {n : ℕ} {e : Class} {layout : Layout} (he : tm.get t = some e)
    (hl : e.layout.repeated .none n = some layout) :
    Made tm (.mk (.arrayType t n) (.vector e n) layout)
  | struc {ts : List TypeRef} {isPacked : Bool} {classes : List Class} {fields : List Element}
    {last layout : Layout} (hc : tm.getList ts = some classes)
    (hf : classes.foldlM (strucField isPacked) (⟨0, 8⟩, []) = some (last, fields))
    (hl : last.padToAlign = some layout) :
    Made tm (.mk (.structType ts isPacked) (.struc fields layout) layout)

theorem eq_mk {t : TypeRef} {k : ClassKind} {l : Layout} (ht : c.typ = t) (hk : c.kind = k)
    (hl : c.layout = l) : c = .mk t k l := by
  subst ht hk hl
  cases c
  rfl

theorem made_of_get {t : TypeRef} (h : tm.get t = some c) : Made tm c := by
  have hstruct : ∀ ts p, tm.get (.structType ts p) = some c → Made tm c := by
    intro ts p hs
    obtain ⟨classes, hclasses, hc⟩ := Option.bind_eq_some_iff.mp hs
    obtain ⟨ht, last, fields, hkind, hfold, hpad⟩ := typ_strucClass hc
    rw [eq_mk ht hkind rfl]
    exact .struc hclasses hfold hpad
  cases t with
  | vectorType t n =>
    obtain ⟨cls, hcls, hv⟩ := Option.bind_eq_some_iff.mp h
    obtain ⟨ht, hkind, hlayout⟩ := typ_vectorClass hv
    rw [eq_mk ht hkind rfl]
    exact .vector hcls hlayout
  | arrayType t n =>
    obtain ⟨cls, hcls, hv⟩ := Option.bind_eq_some_iff.mp h
    obtain ⟨ht, hkind, hlayout⟩ := typ_vectorClass hv
    rw [eq_mk ht hkind rfl]
    exact .array hcls hlayout
  | structType ts p => exact hstruct ts p h
  | namedStructType name =>
    rw [get_namedStructType] at h
    obtain ⟨d, -, hget⟩ := Option.bind_eq_some_iff.mp h
    exact hstruct _ _ hget
  | integerType bits =>
    obtain ⟨layout, hl, hc⟩ := Option.bind_eq_some_iff.mp h
    cases hc
    exact .integer bits hl
  | fpType t =>
    obtain ⟨layout, hl, hc⟩ := Option.bind_eq_some_iff.mp h
    cases hc
    exact .fp t hl
  | pointerType p a =>
    cases h
    exact .pointer p a
  | funcType r ps v =>
    cases h
    exact .func r ps v
  | voidType =>
    cases h
    exact .void
  | metadataType =>
    cases h
    exact .metadata
  | labelType | tokenType | x86MMXType => cases h

theorem Built.made (h : tm.Built c) : Made tm c := made_of_get h

end TypeMap
end AtomicSim
