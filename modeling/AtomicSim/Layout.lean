import Mathlib.Data.Nat.Bitwise

namespace AtomicSim

/-- `u64` addition, which panics on overflow. -/
def addU64 (a b : ℕ) : Option ℕ := if a + b < 2 ^ 64 then some (a + b) else none

theorem addU64_eq_some {a b c : ℕ} : addU64 a b = some c ↔ a + b < 2 ^ 64 ∧ a + b = c := by
  unfold addU64
  split_ifs with h
  · rw [Option.some.injEq]
    exact ⟨fun hc => ⟨h, hc⟩, And.right⟩
  · exact ⟨fun hc => (by cases hc), fun hc => absurd hc.1 h⟩

/-- `(ptr.wrapping_sub(1) | (align - 1)).wrapping_add(1)` on `u64`. -/
def alignTo (ptr align : ℕ) : ℕ :=
  (((ptr + (2 ^ 64 - 1)) % 2 ^ 64 ||| (align - 1)) + 1) % 2 ^ 64

def isPowerOfTwo (n : ℕ) : Bool := 2 ^ n.log2 == n

def nextPowerOfTwo (n : ℕ) : ℕ := if n ≤ 1 then 1 else 2 ^ ((n - 1).log2 + 1)

inductive Packing where
  | none
  | bit
  | byte
  deriving DecidableEq, Repr

def Packing.ofBool (isPacked : Bool) : Packing := if isPacked then .byte else .none

structure Layout where
  bits : ℕ
  bitAlign : ℕ
  deriving DecidableEq, Repr

namespace Layout

def fromBytes (bytes byteAlign : ℕ) : Layout := ⟨bytes * 8, byteAlign * 8⟩

/-- Panics unless the alignment is a power of two of at least a byte. -/
def fromBits (bits bitAlign : ℕ) : Option Layout :=
  if bitAlign ≥ 8 ∧ isPowerOfTwo bitAlign then some ⟨bits, bitAlign⟩ else none

def extend (l : Layout) (packing : Packing) (other : Layout) : Layout × ℤ :=
  match packing with
  | .none =>
    let offset := alignTo l.bits other.bitAlign
    (⟨offset + other.bits, max l.bitAlign other.bitAlign⟩, offset)
  | .bit =>
    let offset := l.bits
    (⟨offset + other.bits, 8⟩, offset)
  | .byte =>
    let offset := alignTo l.bits 8
    (⟨offset + other.bits, 8⟩, offset)

def bytes (l : Layout) : ℕ := (l.bits + 7) / 8

def byteAlign (l : Layout) : ℕ := (l.bitAlign + 7) / 8

def ofInt (bits : ℕ) : Option Layout := fromBits bits (nextPowerOfTwo (max bits 8))

def padToAlign (l : Layout) : Option Layout := fromBits (alignTo l.bits l.bitAlign) l.bitAlign

/-- The struct arm of `TypeMap::get_inner`, on the layouts of the element classes:
the layout of the struct and the bit offsets of its fields. -/
def struc (isPacked : Bool) (elements : List Layout) : Option (Layout × List ℤ) := do
  let start ← ofInt 0
  let (layout, offsets) := elements.foldl (fun (acc : Layout × List ℤ) element =>
    let (layout, offset) := acc.1.extend (Packing.ofBool isPacked) element
    (layout, acc.2 ++ [offset])) (start, [])
  let layout ← layout.padToAlign
  some (layout, offsets)

end Layout

/-- The least multiple of `align` from `ptr` on. -/
def roundUp (ptr align : ℕ) : ℕ := (ptr + (align - 1)) / align * align

theorem dvd_roundUp (ptr align : ℕ) : align ∣ roundUp ptr align := Nat.dvd_mul_left _ _

theorem le_roundUp {ptr align : ℕ} (ha : 0 < align) : ptr ≤ roundUp ptr align := by
  have hmod := Nat.mod_lt (ptr + (align - 1)) ha
  have hdm := Nat.div_add_mod (ptr + (align - 1)) align
  rw [Nat.mul_comm] at hdm
  rw [roundUp]
  omega

theorem roundUp_lt {ptr align : ℕ} (h : 0 < align) : roundUp ptr align < ptr + align := by
  have hdm := Nat.div_mul_le_self (ptr + (align - 1)) align
  rw [roundUp]
  omega

theorem eq_two_pow_of_isPowerOfTwo {n : ℕ} (h : isPowerOfTwo n) : ∃ k, n = 2 ^ k :=
  ⟨n.log2, (beq_iff_eq.mp h).symm⟩

theorem exists_lt_of_isPowerOfTwo {n : ℕ} (h : isPowerOfTwo n) (hlt : n < 2 ^ 64) :
    ∃ k < 64, n = 2 ^ k := by
  obtain ⟨k, rfl⟩ := eq_two_pow_of_isPowerOfTwo h
  exact ⟨k, (Nat.pow_lt_pow_iff_right Nat.one_lt_two).mp hlt, rfl⟩

/-- Setting the low bits rounds up to the end of the block of `2 ^ k`. -/
theorem or_two_pow_sub_one (x k : ℕ) : x ||| (2 ^ k - 1) = x / 2 ^ k * 2 ^ k + (2 ^ k - 1) := by
  have hlt : 2 ^ k - 1 < 2 ^ k := Nat.sub_one_lt (Nat.two_pow_pos k).ne'
  rw [← Nat.shiftLeft_eq, Nat.shiftLeft_add_eq_or_of_lt hlt]
  refine Nat.eq_of_testBit_eq fun i => ?_
  rw [Nat.testBit_or, Nat.testBit_or, Nat.testBit_two_pow_sub_one, Nat.testBit_shiftLeft,
    Nat.testBit_div_two_pow]
  by_cases hi : i < k
  · simp [hi]
  · have hk : k ≤ i := Nat.le_of_not_lt hi
    simp [hi, hk]

/-- `align_to` rounds up, modulo `2 ^ 64`: the subtraction at zero wraps to the end of the last
block, and the addition wraps back. -/
theorem alignTo_eq_mod {k : ℕ} (hk : k < 64) (ptr : ℕ) :
    alignTo ptr (2 ^ k) = roundUp ptr (2 ^ k) % 2 ^ 64 := by
  have hpos : 0 < 2 ^ k := Nat.two_pow_pos k
  obtain ⟨q, hq⟩ : 2 ^ k ∣ 2 ^ 64 := Nat.pow_dvd_pow 2 hk.le
  have hdiv : (ptr + (2 ^ 64 - 1)) % 2 ^ 64 / 2 ^ k = (ptr + (2 ^ 64 - 1)) / 2 ^ k % q := by
    rw [hq, Nat.mod_mul_right_div_self]
  have hnext : (ptr + (2 ^ 64 - 1)) / 2 ^ k + 1 = (ptr + (2 ^ k - 1)) / 2 ^ k + q := by
    rw [← Nat.add_div_right _ hpos, ← Nat.add_mul_div_left _ _ hpos, ← hq]
    congr 1
    omega
  rw [alignTo, or_two_pow_sub_one, hdiv, Nat.add_assoc, Nat.sub_add_cancel hpos, ← Nat.succ_mul,
    roundUp]
  generalize (ptr + (2 ^ 64 - 1)) / 2 ^ k = x at hnext ⊢
  rw [hq, Nat.mul_comm (2 ^ k) q, Nat.mul_mod_mul_right, Nat.mul_mod_mul_right,
    Nat.succ_eq_add_one, Nat.mod_add_mod, hnext, Nat.add_mod_right]

theorem alignTo_two_pow {ptr k : ℕ} (hk : k < 64) (hfit : roundUp ptr (2 ^ k) < 2 ^ 64) :
    alignTo ptr (2 ^ k) = roundUp ptr (2 ^ k) := by
  rw [alignTo_eq_mod hk, Nat.mod_eq_of_lt hfit]

theorem alignTo_eq_roundUp {ptr align : ℕ} (hpos : 0 < ptr) (ha : isPowerOfTwo align)
    (hfit : roundUp ptr align < 2 ^ 64) : alignTo ptr align = roundUp ptr align := by
  have halign : 0 < align := by
    obtain ⟨k, rfl⟩ := eq_two_pow_of_isPowerOfTwo ha
    exact Nat.two_pow_pos k
  have hle : align ≤ roundUp ptr align :=
    Nat.le_of_dvd (hpos.trans_le (le_roundUp halign)) (dvd_roundUp ptr align)
  obtain ⟨k, hk, rfl⟩ := exists_lt_of_isPowerOfTwo ha (hle.trans_lt hfit)
  exact alignTo_two_pow hk hfit

end AtomicSim
