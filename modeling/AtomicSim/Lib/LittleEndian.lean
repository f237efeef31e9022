import Mathlib.Data.BitVec
import Mathlib.Data.Nat.Bitwise

namespace AtomicSim

abbrev Byte := BitVec 8

namespace LittleEndian

-- Bit `i` of a byte string is bit `i % 8` of byte `i / 8`; the number it denotes
-- has exactly these bits.

/-- Bits past the end read as zero. -/
def bit (l : List Byte) (i : ℕ) : Bool := (l.getD (i / 8) 0).getLsbD (i % 8)

def byteOfBits (f : ℕ → Bool) : Byte :=
  BitVec.ofBoolListLE [f 0, f 1, f 2, f 3, f 4, f 5, f 6, f 7]

/-- The `n` bytes with the given bits. -/
def ofBits (n : ℕ) (f : ℕ → Bool) : List Byte :=
  (List.range n).map fun j => byteOfBits fun k => f (8 * j + k)

def toNat : List Byte → ℕ
  | [] => 0
  | b :: l => b.toNat + 256 * toNat l

@[simp] theorem length_ofBits (n : ℕ) (f : ℕ → Bool) : (ofBits n f).length = n := by
  simp [ofBits]

theorem getLsbD_byteOfBits (f : ℕ → Bool) {k : ℕ} (hk : k < 8) :
    (byteOfBits f).getLsbD k = f k := by
  have hl : [f 0, f 1, f 2, f 3, f 4, f 5, f 6, f 7] = (List.range 8).map f := rfl
  rw [byteOfBits, BitVec.getLsbD_ofBoolListLE, hl]
  simp [hk]

theorem bit_ofBits (n : ℕ) (f : ℕ → Bool) (i : ℕ) :
    bit (ofBits n f) i = (decide (i < 8 * n) && f i) := by
  have hi : 8 * (i / 8) + i % 8 = i := Nat.div_add_mod i 8
  have hk : i % 8 < 8 := Nat.mod_lt _ (by omega)
  by_cases h : i / 8 < n
  · have hlt : i < 8 * n := by omega
    have hget : (ofBits n f).getD (i / 8) 0 = byteOfBits fun k => f (8 * (i / 8) + k) := by
      simp [ofBits, h]
    rw [bit, hget, getLsbD_byteOfBits _ hk, hi, decide_eq_true hlt, Bool.true_and]
  · have hge : ¬ i < 8 * n := by omega
    simp [bit, ofBits, h, hge]

theorem bit_eq_false {l : List Byte} {i : ℕ} (h : 8 * l.length ≤ i) : bit l i = false := by
  have hlen : l.length ≤ i / 8 := by omega
  rw [bit, List.getD_eq_default _ _ hlen]
  exact BitVec.getLsbD_zero

theorem bit_take {l : List Byte} {k i : ℕ} (h : i < 8 * k) : bit (l.take k) i = bit l i := by
  have hi : i / 8 < k := by omega
  simp only [bit, List.getD_eq_getElem?_getD, List.getElem?_take, if_pos hi]

theorem ext_bit {l l' : List Byte} (hl : l.length = l'.length)
    (h : ∀ i < 8 * l.length, bit l i = bit l' i) : l = l' := by
  refine List.ext_getElem hl fun j hj hj' => ?_
  refine BitVec.eq_of_getLsbD_eq fun k hk => ?_
  have hb := h (8 * j + k) (by omega)
  have hdiv : (8 * j + k) / 8 = j := by omega
  have hmod : (8 * j + k) % 8 = k := by omega
  simpa only [bit, hdiv, hmod, List.getD_eq_getElem _ _ hj, List.getD_eq_getElem _ _ hj'] using hb

theorem testBit_toNat (l : List Byte) (i : ℕ) : (toNat l).testBit i = bit l i := by
  induction l generalizing i with
  | nil => simp [toNat, bit]
  | cons b l ih =>
    have hb : b.toNat < 2 ^ 8 := b.isLt
    have hsplit : b.toNat + 256 * toNat l = 2 ^ 8 * toNat l + b.toNat := by omega
    rw [toNat, hsplit, Nat.testBit_two_pow_mul_add _ hb]
    by_cases h : i < 8
    · have hdiv : i / 8 = 0 := by omega
      have hmod : i % 8 = i := by omega
      simp only [if_pos h, bit, hdiv, hmod, List.getD_cons_zero, BitVec.testBit_toNat]
    · have hdiv : i / 8 = (i - 8) / 8 + 1 := by omega
      have hmod : i % 8 = (i - 8) % 8 := by omega
      simp only [if_neg h, ih, bit, hdiv, hmod, List.getD_cons_succ]

theorem toNat_lt (l : List Byte) : toNat l < 2 ^ (8 * l.length) := by
  refine Nat.lt_pow_two_of_testBit _ fun i hi => ?_
  rw [testBit_toNat]
  exact bit_eq_false hi

end LittleEndian
end AtomicSim
