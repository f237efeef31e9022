import AtomicSim.Layout
import AtomicSim.Lib.LittleEndian

namespace AtomicSim

open LittleEndian (bit bit_ofBits)

/-- A bit string held in the least number of whole bytes, least significant first. -/
structure Value where
  bits : ℕ
  imp : List Byte
  length_imp : imp.length = (bits + 7) / 8
  deriving DecidableEq, Repr

namespace Value

def zero (bits : ℕ) : Value := ⟨bits, List.replicate ((bits + 7) / 8) 0, List.length_replicate⟩

/-- The first sixteen bytes, read little-endian. -/
def asU128 (v : Value) : ℕ := LittleEndian.toNat (v.imp.take 16)

def asU64 (v : Value) : ℕ := v.asU128 % 2 ^ 64

/-- `assert_eq!(self.bits(), expected_bits)`, then `as_u128`. -/
def unwrapInt (v : Value) (expectedBits : ℕ) : Option ℕ :=
  if v.bits = expectedBits then some v.asU128 else none

def unwrapBool (v : Value) : Option Bool := (v.unwrapInt 1).map fun n => n != 0

def ofBits (bits : ℕ) (f : ℕ → Bool) : Value :=
  ⟨bits, LittleEndian.ofBits ((bits + 7) / 8) f, LittleEndian.length_ofBits _ _⟩

/-- `result[0..bits.min(128)].store(value)` on a zero value. -/
def new (bits value : ℕ) : Value :=
  ofBits bits fun i => decide (i < min bits 128) && value.testBit i

def ofUnit : Value := new 0 0

def ofBool (b : Bool) : Value := new 1 b.toNat

/-- `assert_eq!(bytes.len(), (bits + 7) / 8)`. -/
def fromBytes (bytes : List Byte) (bits : ℕ) : Option Value :=
  if h : bytes.length = (bits + 7) / 8 then some ⟨bits, bytes, h⟩ else none

def fromBytesExact (bytes : List Byte) : Value := ⟨bytes.length * 8, bytes, by omega⟩

/-- `self[start..stop]` on the bits; panics out of range. -/
def fromBits (v : Value) (start stop : ℕ) : Option Value :=
  if start ≤ stop ∧ stop ≤ v.bits then
    some (ofBits (stop - start) fun i => decide (i < stop - start) && bit v.imp (start + i))
  else none

/-- `self.imp[start..stop]` on the bytes; panics out of range. -/
def slice (l : List Byte) (start stop : ℕ) : Option (List Byte) :=
  if start ≤ stop ∧ stop ≤ l.length then some ((l.take stop).drop start) else none

/-- `as_bytes_mut()[start..stop].copy_from_slice(src)`; panics out of range or when
the lengths differ. -/
def copyFromSlice (v : Value) (start stop : ℕ) (src : List Byte) : Option Value :=
  if h : start ≤ stop ∧ stop ≤ v.imp.length ∧ src.length = stop - start then
    some ⟨v.bits, v.imp.take start ++ src ++ v.imp.drop stop, by
      rw [← v.length_imp]
      simp only [List.length_append, List.length_take, List.length_drop]
      omega⟩
  else none

/-- A negative offset is out of range as a `u64` or as a slice bound. -/
def extractBits (v : Value) (offset : ℤ) (len : ℕ) : Option Value :=
  if offset < 0 then none
  else if offset.toNat % 8 = 0 ∧ len % 8 = 0 then
    (slice v.imp (offset.toNat / 8) (offset.toNat / 8 + len / 8)).map fromBytesExact
  else v.fromBits offset.toNat (offset.toNat + len)

/-- `self[offset..offset + value.bits()].copy_from_bitslice(value)`. -/
def insertBits (v : Value) (offset : ℤ) (value : Value) : Option Value :=
  if offset < 0 then none
  else if offset.toNat + value.bits ≤ v.bits then
    some (ofBits v.bits fun i =>
      if offset.toNat ≤ i ∧ i < offset.toNat + value.bits then bit value.imp (i - offset.toNat)
      else bit v.imp i)
  else none

/-- `aggregate` for a class with the given layout and element offsets; a value
without an element panics. -/
def aggregate (layout : Layout) (offsets : List ℤ) (vs : List Value) : Option Value :=
  if vs.length ≤ offsets.length then
    (offsets.zip vs).foldlM (fun result e => result.insertBits e.1 e.2) (zero layout.bits)
  else none

def hexDigit (n : ℕ) : Char := "0123456789ABCDEF".toList.getD n '0'

/-- `Debug::fmt`, whose assertion wants a whole number of bytes. -/
def debug (v : Value) : Option String :=
  if v.bits = 0 then some "()"
  else if v.bits = 1 then v.unwrapBool.map fun b => if b then "true" else "false"
  else if v.bits % 8 = 0 then
    some (String.ofList (v.imp.flatMap fun b => [hexDigit (b.toNat / 16), hexDigit (b.toNat % 16)]))
  else none

@[ext] theorem ext {v w : Value} (hb : v.bits = w.bits) (hi : v.imp = w.imp) : v = w := by
  obtain ⟨bits, imp, h⟩ := v
  obtain ⟨bits', imp', h'⟩ := w
  simp only at hb hi
  subst hb hi
  rfl

theorem slice_eq_some {l : List Byte} {start stop : ℕ} (h : start ≤ stop ∧ stop ≤ l.length) :
    ∃ s, slice l start stop = some s ∧ s.length = stop - start ∧
      ∀ i < stop - start, s.getD i 0 = l.getD (start + i) 0 := by
  refine ⟨(l.take stop).drop start, if_pos h, ?_, fun i hi => ?_⟩
  · simp only [List.length_drop, List.length_take]
    omega
  · have hlt : start + i < stop := by omega
    simp only [List.getD_eq_getElem?_getD, List.getElem?_drop, List.getElem?_take, if_pos hlt]

theorem copyFromSlice_eq_some {v : Value} {start stop : ℕ} {src : List Byte}
    (h : start ≤ stop ∧ stop ≤ v.imp.length ∧ src.length = stop - start) :
    ∃ w, v.copyFromSlice start stop src = some w ∧ w.bits = v.bits ∧
      w.imp.length = v.imp.length ∧
      ∀ i, w.imp.getD i 0 =
        if start ≤ i ∧ i < stop then src.getD (i - start) 0 else v.imp.getD i 0 := by
  have hlen : (v.imp.take start ++ src ++ v.imp.drop stop).length = v.imp.length := by
    simp only [List.length_append, List.length_take, List.length_drop]
    omega
  refine ⟨⟨v.bits, v.imp.take start ++ src ++ v.imp.drop stop, hlen.trans v.length_imp⟩,
    dif_pos h, rfl, hlen, fun i => ?_⟩
  have hmin : min start v.imp.length = start := by omega
  simp only [List.getD_eq_getElem?_getD, List.getElem?_append, List.length_append,
    List.length_take, List.getElem?_drop, List.getElem?_take, hmin, h.2.2]
  split_ifs
  any_goals omega
  all_goals first | rfl | congr 2; omega

theorem asU128_new {bits : ℕ} (h : bits ≤ 128) (x : ℕ) : (new bits x).asU128 = x % 2 ^ bits := by
  have hlen : (new bits x).imp.length ≤ 16 := by
    rw [(new bits x).length_imp]
    show (bits + 7) / 8 ≤ 16
    omega
  rw [asU128, List.take_of_length_le hlen]
  refine Nat.eq_of_testBit_eq fun i => ?_
  rw [LittleEndian.testBit_toNat, new, ofBits, bit_ofBits, Nat.testBit_mod_two_pow, min_eq_left h]
  by_cases hi : i < bits
  · have hi' : i < 8 * ((bits + 7) / 8) := by omega
    simp [hi, hi']
  · simp [hi]

theorem asU128_lt {v : Value} (h : v.bits % 8 = 0) : v.asU128 < 2 ^ v.bits := by
  have hlen : 8 * (v.imp.take 16).length ≤ v.bits := by
    rw [List.length_take, v.length_imp]
    omega
  exact (LittleEndian.toNat_lt _).trans_le (Nat.pow_le_pow_right (by omega) hlen)

theorem eq_of_asU128 {v w : Value} (hb : v.bits = w.bits) (hle : v.bits ≤ 128)
    (h : v.asU128 = w.asU128) : v = w := by
  have hv : v.imp.length ≤ 16 := by
    rw [v.length_imp]
    omega
  have hw : w.imp.length = v.imp.length := by rw [w.length_imp, v.length_imp, hb]
  rw [asU128, asU128, List.take_of_length_le hv, List.take_of_length_le (hw ▸ hv)] at h
  refine Value.ext hb (LittleEndian.ext_bit hw.symm fun i _ => ?_)
  rw [← LittleEndian.testBit_toNat, h, LittleEndian.testBit_toNat]

@[simp] theorem unwrapBool_ofBool (b : Bool) : (ofBool b).unwrapBool = some b := by
  cases b <;> decide

theorem insertBits_eq_some (v value : Value) (offset : ℕ) (h : offset + value.bits ≤ v.bits) :
    ∃ r, v.insertBits offset value = some r ∧ r.bits = v.bits ∧
      ∀ i < v.bits, bit r.imp i = if offset ≤ i ∧ i < offset + value.bits then
        bit value.imp (i - offset) else bit v.imp i := by
  refine ⟨_, (if_neg (by omega)).trans (if_pos h), rfl, fun i hi => ?_⟩
  have hi' : i < 8 * ((v.bits + 7) / 8) := by omega
  rw [ofBits, bit_ofBits, decide_eq_true hi', Bool.true_and]
  rfl

theorem extractBits_zero {v field : Value} (hf : field.bits % 8 = 0) (hv : field.bits ≤ v.bits)
    (h : ∀ i < field.bits, bit v.imp i = bit field.imp i) :
    v.extractBits 0 field.bits = some field := by
  have hlen := v.length_imp
  have hflen := field.length_imp
  have htake : (v.imp.take (field.bits / 8)).length = field.imp.length := by
    rw [List.length_take]
    omega
  have himp : v.imp.take (field.bits / 8) = field.imp := by
    refine LittleEndian.ext_bit htake fun i hi => ?_
    rw [htake] at hi
    rw [LittleEndian.bit_take (by omega), h i (by omega)]
  have hslice : slice v.imp 0 (0 + field.bits / 8) = some field.imp := by
    rw [slice, if_pos (by omega), Nat.zero_add, himp, List.drop_zero]
  rw [extractBits, if_neg (by omega), if_pos ⟨rfl, hf⟩]
  simp only [Int.toNat_zero, Nat.zero_div, hslice, Option.map_some, Option.some.injEq]
  exact Value.ext (by show field.imp.length * 8 = field.bits; omega) rfl

theorem extractBits_one {v : Value} {offset : ℕ} (hv : offset + 1 ≤ v.bits) :
    v.extractBits offset 1 = some (ofBool (bit v.imp offset)) := by
  rw [extractBits, if_neg (by omega), if_neg (by omega), fromBits, Int.toNat_natCast,
    if_pos (by omega)]
  refine congrArg some (Value.ext (by show offset + 1 - offset = 1; omega) ?_)
  have hone : offset + 1 - offset = 1 := by omega
  simp only [ofBits, ofBool, new, hone]
  refine LittleEndian.ext_bit (by simp) fun i hi => ?_
  rw [bit_ofBits, bit_ofBits]
  by_cases h0 : i = 0
  · subst h0
    cases bit v.imp offset <;> simp
  · have hi' : ¬ i < 1 := by omega
    simp [hi']

theorem aggregate_pair {layout : Layout} {current : Value} (hc : current.bits % 8 = 0)
    (hl : current.bits + 1 ≤ layout.bits) (b : Bool) :
    ∃ v, aggregate layout [0, (current.bits : ℤ)] [current, ofBool b] = some v ∧
      v.extractBits 0 current.bits = some current ∧
      v.extractBits current.bits 1 = some (ofBool b) := by
  have hl₀ : 0 + current.bits ≤ (zero layout.bits).bits := by
    rw [Nat.zero_add]
    exact Nat.le_of_succ_le hl
  obtain ⟨v₁, hv₁, hbits₁, hget₁⟩ := insertBits_eq_some (zero layout.bits) current 0 hl₀
  obtain ⟨v₂, hv₂, hbits₂, hget₂⟩ :=
    insertBits_eq_some v₁ (ofBool b) current.bits (hbits₁ ▸ hl)
  have hbits : v₂.bits = layout.bits := hbits₂.trans hbits₁
  refine ⟨v₂, ?_, extractBits_zero hc (by omega) fun i hi => ?_, ?_⟩
  · simp only [aggregate, List.length_cons, List.length_nil, le_refl, if_true, List.zip_cons_cons,
      List.zip_nil_right, List.foldlM_cons, List.foldlM_nil]
    rw [show (0 : ℤ) = ((0 : ℕ) : ℤ) from rfl, hv₁]
    simp [hv₂]
  · rw [hget₂ i (by omega), if_neg (by omega), hget₁ i (by show i < layout.bits; omega),
      if_pos (by omega), Nat.sub_zero]
  · have hbit : bit (ofBool b).imp 0 = b := by cases b <;> decide
    have hone : current.bits < current.bits + (ofBool b).bits := Nat.lt_succ_self _
    rw [extractBits_one (by omega), hget₂ _ (by omega), if_pos ⟨le_refl _, hone⟩, Nat.sub_self,
      hbit]

end Value
end AtomicSim
