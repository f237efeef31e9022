import AtomicSim.Compile.Aggregate
import Mathlib.Order.Bounds.Basic

namespace AtomicSim

/-- The multiples of `align` from `ptr` on. -/
def multiplesFrom (align ptr : ℕ) : Set ℕ := {m | align ∣ m ∧ ptr ≤ m}

theorem isLeast_roundUp {align : ℕ} (h : 0 < align) (ptr : ℕ) :
    IsLeast (multiplesFrom align ptr) (roundUp ptr align) := by
  refine ⟨⟨dvd_roundUp ptr align, le_roundUp h⟩, ?_⟩
  intro m hm
  obtain ⟨⟨q, rfl⟩, hle⟩ := hm
  apply Nat.le_of_lt_add_of_dvd _ (dvd_roundUp ptr align) (Nat.dvd_mul_right align q)
  have hlt : roundUp ptr align < ptr + align := roundUp_lt h
  omega

/-- Every power of two below `2 ^ 64` divides `2 ^ 63`. -/
theorem roundUp_le_of_lt {k ptr : ℕ} (hk : k < 64) (h : ptr < 2 ^ 63) :
    roundUp ptr (2 ^ k) ≤ 2 ^ 63 := by
  apply (isLeast_roundUp (Nat.two_pow_pos k) ptr).2
  exact ⟨Nat.pow_dvd_pow 2 (by omega), h.le⟩

def fieldAlign (isPacked : Bool) (c : Class) : ℕ := if isPacked then 8 else c.layout.bitAlign

/-- The end of the last field, counted from the end of the fields before these. -/
def structEnd (isPacked : Bool) : ℕ → List Class → ℕ
  | stop, [] => stop
  | stop, c :: cs => structEnd isPacked (roundUp stop (fieldAlign isPacked c) + c.layout.bits) cs

/-- Fields in order from bit `stop` to bit `last`, each at the least multiple of its alignment
that is not below the end of the field before. -/
inductive PlacedLeast (isPacked : Bool) : ℕ → List Class → List Element → ℕ → Prop
  | nil (stop : ℕ) : PlacedLeast isPacked stop [] [] stop
  | cons {stop o last : ℕ} {c : Class} {cs : List Class} {fields : List Element}
    (ho : IsLeast (multiplesFrom (fieldAlign isPacked c) stop) o)
    (hrest : PlacedLeast isPacked (o + c.layout.bits) cs fields last) :
    PlacedLeast isPacked stop (c :: cs) (.mk c o :: fields) last

/-- The alignment is a power of two, of a byte at least, and a `u64`. -/
def Layout.PowerAligned (l : Layout) : Prop := ∃ k, 3 ≤ k ∧ k < 64 ∧ l.bitAlign = 2 ^ k

variable {isPacked : Bool} {c : Class} {cs : List Class}

theorem fieldAlign_eq (isPacked : Bool) (h : c.layout.PowerAligned) :
    ∃ k, 3 ≤ k ∧ k < 64 ∧ fieldAlign isPacked c = 2 ^ k := by
  cases isPacked with
  | true => exact ⟨3, by omega, by omega, rfl⟩
  | false => exact h

theorem fieldAlign_pos (h : c.layout.PowerAligned) : 0 < fieldAlign isPacked c := by
  obtain ⟨k, -, -, hk⟩ := fieldAlign_eq isPacked h
  rw [hk]
  exact Nat.two_pow_pos k

theorem le_structEnd (isPacked : Bool) (hcs : ∀ c ∈ cs, c.layout.PowerAligned) (stop : ℕ) :
    stop ≤ structEnd isPacked stop cs := by
  induction cs generalizing stop with
  | nil => rfl
  | cons c cs ih =>
    have hle : stop ≤ roundUp stop (fieldAlign isPacked c) :=
      le_roundUp (fieldAlign_pos (hcs c List.mem_cons_self))
    have hrest := ih (fun d hd => hcs d (List.mem_cons_of_mem c hd))
      (roundUp stop (fieldAlign isPacked c) + c.layout.bits)
    rw [structEnd]
    omega

namespace TypeMap

variable {l : Layout} {before : List Element}

theorem strucField_eq (before : List Element) (hc : c.layout.PowerAligned)
    (hfit : roundUp l.bits (fieldAlign isPacked c) + c.layout.bits < 2 ^ 63) :
    strucField isPacked (l, before) c =
      some (⟨roundUp l.bits (fieldAlign isPacked c) + c.layout.bits,
          if isPacked then 8 else max l.bitAlign c.layout.bitAlign⟩,
        before ++ [.mk c (roundUp l.bits (fieldAlign isPacked c) : ℕ)]) := by
  obtain ⟨k, -, hk, halign⟩ := fieldAlign_eq isPacked hc
  have hoffset : alignTo l.bits (fieldAlign isPacked c) =
      roundUp l.bits (fieldAlign isPacked c) := by
    rw [halign] at hfit ⊢
    apply alignTo_two_pow hk
    omega
  have hext : l.extend (Packing.ofBool isPacked) c.layout =
      (⟨roundUp l.bits (fieldAlign isPacked c) + c.layout.bits,
        if isPacked then 8 else max l.bitAlign c.layout.bitAlign⟩,
        ((roundUp l.bits (fieldAlign isPacked c) : ℕ) : ℤ)) := by
    rw [← hoffset]
    cases isPacked <;> rfl
  have hextend : l.extendU64 (Packing.ofBool isPacked) c.layout =
      some (⟨roundUp l.bits (fieldAlign isPacked c) + c.layout.bits,
        if isPacked then 8 else max l.bitAlign c.layout.bitAlign⟩,
        ((roundUp l.bits (fieldAlign isPacked c) : ℕ) : ℤ)) := by
    simp only [Layout.extendU64, hext, Int.toNat_natCast]
    rw [if_pos (by omega), asI64_eq (by omega)]
  rw [strucField, hextend]
  rfl

theorem foldlM_strucField_eq (before : List Element) (hcs : ∀ c ∈ cs, c.layout.PowerAligned)
    (hfit : structEnd isPacked l.bits cs < 2 ^ 63) :
    ∃ fields align, cs.foldlM (strucField isPacked) (l, before) =
        some (⟨structEnd isPacked l.bits cs, align⟩, before ++ fields) ∧
      PlacedLeast isPacked l.bits cs fields (structEnd isPacked l.bits cs) ∧
      align = if isPacked then (if cs = [] then l.bitAlign else 8)
        else (cs.map fun c => c.layout.bitAlign).foldl max l.bitAlign := by
  induction cs generalizing l before with
  | nil =>
    refine ⟨[], l.bitAlign, ?_, .nil _, ?_⟩
    · rw [List.append_nil]
      rfl
    · simp
  | cons c cs ih =>
    have hc := hcs c List.mem_cons_self
    have hcs' : ∀ d ∈ cs, d.layout.PowerAligned := fun d hd => hcs d (List.mem_cons_of_mem c hd)
    have hle := le_structEnd isPacked hcs'
      (roundUp l.bits (fieldAlign isPacked c) + c.layout.bits)
    rw [structEnd] at hfit ⊢
    have hstep := strucField_eq before hc (lt_of_le_of_lt hle hfit)
    obtain ⟨fields, align, hfold, hplaced, halign⟩ := ih
      (l := ⟨roundUp l.bits (fieldAlign isPacked c) + c.layout.bits,
        if isPacked then 8 else max l.bitAlign c.layout.bitAlign⟩)
      (before ++ [.mk c (roundUp l.bits (fieldAlign isPacked c) : ℕ)]) hcs' hfit
    refine ⟨_ :: fields, align, ?_, .cons (isLeast_roundUp (fieldAlign_pos hc) _) hplaced, ?_⟩
    · rw [List.foldlM_cons, hstep]
      simpa using hfold
    · rw [halign]
      cases isPacked <;> simp

def structAlign (isPacked : Bool) (cs : List Class) : ℕ :=
  if isPacked then 8 else (cs.map fun c => c.layout.bitAlign).foldl max 8

theorem structAlign_eq (isPacked : Bool) (hcs : ∀ c ∈ cs, c.layout.PowerAligned) :
    ∃ k, 3 ≤ k ∧ k < 64 ∧ structAlign isPacked cs = 2 ^ k := by
  have hfold : ∀ as : List ℕ, (∀ a ∈ as, ∃ k, 3 ≤ k ∧ k < 64 ∧ a = 2 ^ k) →
      ∀ a, (∃ k, 3 ≤ k ∧ k < 64 ∧ a = 2 ^ k) → ∃ k, 3 ≤ k ∧ k < 64 ∧ as.foldl max a = 2 ^ k := by
    intro as
    induction as with
    | nil => exact fun _ a ha => ha
    | cons b as ih =>
      intro has a ha
      apply ih fun x hx => has x (List.mem_cons_of_mem b hx)
      rcases max_choice a b with he | he <;> rw [he]
      · exact ha
      · exact has b List.mem_cons_self
  unfold structAlign
  split_ifs
  · exact ⟨3, by omega, by omega, rfl⟩
  · apply hfold _ _ 8 ⟨3, by omega, by omega, rfl⟩
    intro a ha
    obtain ⟨c, hc, rfl⟩ := List.mem_map.mp ha
    exact hcs c hc

/-- Struct layout is aligned and minimal, and none of its assertions fails. -/
theorem struc_layout (typ : TypeRef) (isPacked : Bool) (cs : List Class)
    (hcs : ∀ c ∈ cs, c.layout.PowerAligned) (hsize : structEnd isPacked 0 cs < 2 ^ 63) :
    ∃ fields layout, strucClass typ isPacked cs = some (.mk typ (.struc fields layout) layout) ∧
      PlacedLeast isPacked 0 cs fields (structEnd isPacked 0 cs) ∧
      layout.bitAlign = structAlign isPacked cs ∧
      IsLeast (multiplesFrom layout.bitAlign (structEnd isPacked 0 cs)) layout.bits := by
  obtain ⟨fields, align, hfold, hplaced, halign⟩ :=
    foldlM_strucField_eq (l := ⟨0, 8⟩) [] hcs hsize
  have hstruct : align = structAlign isPacked cs := by
    rw [halign, structAlign, ite_id]
  obtain ⟨k, hk3, hk, hpow⟩ := structAlign_eq isPacked hcs
  have hround : alignTo (structEnd isPacked 0 cs) align =
      roundUp (structEnd isPacked 0 cs) align := by
    rw [hstruct, hpow]
    apply alignTo_two_pow hk
    have hle := roundUp_le_of_lt hk hsize
    omega
  have hpad : Layout.padToAlign ⟨structEnd isPacked 0 cs, align⟩ =
      some ⟨roundUp (structEnd isPacked 0 cs) align, align⟩ := by
    rw [← hround]
    apply if_pos
    have h8 : 2 ^ 3 ≤ 2 ^ k := Nat.pow_le_pow_right (by omega) hk3
    rw [hstruct, hpow]
    exact ⟨h8, isPowerOfTwo_two_pow k⟩
  refine ⟨fields, ⟨roundUp (structEnd isPacked 0 cs) align, align⟩, ?_, hplaced, hstruct, ?_⟩
  · have hstart : Layout.ofInt 0 = some ⟨0, 8⟩ := by decide
    rw [strucClass, hstart]
    show ((cs.foldlM (strucField isPacked) (⟨0, 8⟩, [])).bind _) = _
    rw [hfold]
    show (Layout.padToAlign ⟨structEnd isPacked 0 cs, align⟩).bind _ = _
    rw [hpad]
    simp
  · apply isLeast_roundUp
    rw [hstruct, hpow]
    exact Nat.two_pow_pos k

/-- A byte, a bit and a field of four bytes. -/
theorem struc_layout_three :
    ∃ fields layout, strucClass .voidType false [.mk .voidType .void ⟨8, 8⟩,
        .mk .voidType .void ⟨1, 8⟩, .mk .voidType .void ⟨32, 32⟩] =
          some (.mk .voidType (.struc fields layout) layout) ∧
      layout.bitAlign = 32 ∧ IsLeast (multiplesFrom 32 64) layout.bits := by
  have hcs : ∀ c ∈ [Class.mk .voidType .void ⟨8, 8⟩, .mk .voidType .void ⟨1, 8⟩,
      .mk .voidType .void ⟨32, 32⟩], c.layout.PowerAligned := by
    simp only [List.forall_mem_cons]
    exact ⟨⟨3, by decide⟩, ⟨3, by decide⟩, ⟨5, by decide⟩, fun _ h => absurd h List.not_mem_nil⟩
  obtain ⟨fields, layout, hclass, -, halign, hleast⟩ :=
    struc_layout .voidType false _ hcs (by decide)
  have h32 : layout.bitAlign = 32 := halign
  rw [h32] at hleast
  exact ⟨fields, layout, hclass, h32, hleast⟩

end TypeMap
end AtomicSim
