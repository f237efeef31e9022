import AtomicSim.Value
import Mathlib.Data.Int.Basic

namespace AtomicSim.Value

open LittleEndian (bit bit_ofBits)

/-- The bits past the end of the value, in its last byte, are zero. -/
def ZeroPadded (v : Value) : Prop := ∀ i, v.bits ≤ i → bit v.imp i = false

theorem bits_ofBits (bits : ℕ) (f : ℕ → Bool) : (ofBits bits f).bits = bits := rfl

theorem bits_new (bits value : ℕ) : (new bits value).bits = bits := rfl

theorem bits_zero (bits : ℕ) : (zero bits).bits = bits := rfl

theorem bit_imp_ofBits {bits : ℕ} {f : ℕ → Bool} {i : ℕ} (h : i < bits) :
    bit (ofBits bits f).imp i = f i := by
  have hi : i < 8 * ((bits + 7) / 8) := by omega
  rw [ofBits, bit_ofBits, decide_eq_true hi, Bool.true_and]

theorem bit_eq_false_of_le {v : Value} {i : ℕ} (h : 8 * ((v.bits + 7) / 8) ≤ i) :
    bit v.imp i = false := by
  apply LittleEndian.bit_eq_false
  rwa [v.length_imp]

theorem zeroPadded_of_dvd {v : Value} (h : v.bits % 8 = 0) : v.ZeroPadded := by
  intro i hi
  apply bit_eq_false_of_le
  omega

theorem zeroPadded_ofBits {bits : ℕ} {f : ℕ → Bool} (h : ∀ i, bits ≤ i → f i = false) :
    (ofBits bits f).ZeroPadded := by
  intro i hi
  rw [ofBits, bit_ofBits, h i hi, Bool.and_false]

theorem zeroPadded_new (bits value : ℕ) : (new bits value).ZeroPadded := by
  apply zeroPadded_ofBits
  intro i hi
  have hmin : ¬ i < min bits 128 := by omega
  rw [decide_eq_false hmin, Bool.false_and]

theorem bit_zero (bits i : ℕ) : bit (zero bits).imp i = false := by
  have h : ∀ j, (List.replicate ((bits + 7) / 8) (0 : Byte)).getD j 0 = 0 := by
    intro j
    rw [List.getD_eq_getElem?_getD, List.getElem?_replicate]
    split_ifs <;> rfl
  rw [bit, zero, h]
  exact BitVec.getLsbD_zero

theorem zeroPadded_zero (bits : ℕ) : (zero bits).ZeroPadded := fun i _ => bit_zero bits i

theorem ext_bits {v w : Value} (hb : v.bits = w.bits) (hv : v.ZeroPadded) (hw : w.ZeroPadded)
    (h : ∀ i < v.bits, bit v.imp i = bit w.imp i) : v = w := by
  apply Value.ext hb
  apply LittleEndian.ext_bit
  · rw [v.length_imp, w.length_imp, hb]
  · intro i _
    by_cases hi : i < v.bits
    · exact h i hi
    · rw [hv i (by omega), hw i (by omega)]

/-- The `len` bits from `offset` on, as a value. -/
def window (v : Value) (offset len : ℕ) : Value :=
  ofBits len fun i => decide (i < len) && bit v.imp (offset + i)

theorem bits_window (v : Value) (offset len : ℕ) : (v.window offset len).bits = len := rfl

theorem bit_window {v : Value} {offset len i : ℕ} (h : i < len) :
    bit (v.window offset len).imp i = bit v.imp (offset + i) := by
  rw [window, bit_imp_ofBits h, decide_eq_true h, Bool.true_and]

theorem zeroPadded_window (v : Value) (offset len : ℕ) : (v.window offset len).ZeroPadded := by
  apply zeroPadded_ofBits
  intro i hi
  rw [decide_eq_false (by omega), Bool.false_and]

theorem window_congr {v w : Value} {offset offset' len : ℕ}
    (h : ∀ i < len, bit v.imp (offset + i) = bit w.imp (offset' + i)) :
    v.window offset len = w.window offset' len := by
  apply ext_bits (by rfl) (zeroPadded_window _ _ _) (zeroPadded_window _ _ _)
  intro i hi
  rw [bits_window] at hi
  rw [bit_window hi, bit_window hi, h i hi]

theorem window_eq {v x : Value} {offset : ℕ} (hx : x.ZeroPadded)
    (h : ∀ i < x.bits, bit v.imp (offset + i) = bit x.imp i) : v.window offset x.bits = x := by
  apply ext_bits (bits_window _ _ _) (zeroPadded_window _ _ _) hx
  intro i hi
  rw [bits_window] at hi
  rw [bit_window hi, h i hi]

theorem extractBits_eq {v : Value} {offset len : ℕ} (h : offset + len ≤ v.bits) :
    v.extractBits offset len = some (v.window offset len) := by
  rw [extractBits, if_neg (by omega), Int.toNat_natCast]
  split_ifs with hdvd
  · have hlen := v.length_imp
    have hrange : offset / 8 ≤ offset / 8 + len / 8 ∧ offset / 8 + len / 8 ≤ v.imp.length := by
      omega
    obtain ⟨s, hs, hslen, hget⟩ := slice_eq_some hrange
    rw [hs, Option.map_some]
    have hbits : (fromBytesExact s).bits = len := by
      show s.length * 8 = len
      omega
    apply congrArg some
    apply ext_bits hbits (zeroPadded_of_dvd (by omega)) (zeroPadded_window _ _ _)
    intro i hi
    rw [hbits] at hi
    rw [bit_window hi]
    show (s.getD (i / 8) 0).getLsbD (i % 8) = _
    have hdiv : (offset + i) / 8 = offset / 8 + i / 8 := by omega
    have hmod : (offset + i) % 8 = i % 8 := by omega
    rw [hget _ (by omega), bit, hdiv, hmod]
  · rw [fromBits, if_pos (by omega), Nat.add_sub_cancel_left]
    rfl

theorem insertBits_eq {v x : Value} {offset : ℕ} (h : offset + x.bits ≤ v.bits) :
    v.insertBits offset x = some (ofBits v.bits fun i =>
      if offset ≤ i ∧ i < offset + x.bits then bit x.imp (i - offset) else bit v.imp i) := by
  rw [insertBits, if_neg (by omega), Int.toNat_natCast, if_pos h]

theorem insertBits_some {v x r : Value} {offset : ℤ} (h : v.insertBits offset x = some r) :
    0 ≤ offset ∧ offset.toNat + x.bits ≤ v.bits ∧ r.bits = v.bits := by
  unfold insertBits at h
  split_ifs at h with hneg hle
  cases h
  exact ⟨by omega, hle, rfl⟩

theorem window_insertBits_self {v x r : Value} {offset : ℕ} (hx : x.ZeroPadded)
    (h : v.insertBits offset x = some r) : r.window offset x.bits = x := by
  obtain ⟨-, hle, -⟩ := insertBits_some h
  rw [Int.toNat_natCast] at hle
  rw [insertBits_eq hle] at h
  cases h
  apply window_eq hx
  intro i hi
  rw [bit_imp_ofBits (by omega), if_pos (by omega), Nat.add_sub_cancel_left]

/-- Two bit ranges that share no bit. -/
def Apart (o len o' len' : ℕ) : Prop := o + len ≤ o' ∨ o' + len' ≤ o

theorem Apart.symm {o len o' len' : ℕ} (h : Apart o len o' len') : Apart o' len' o len := Or.symm h

theorem window_insertBits_apart {v x r : Value} {offset o len : ℕ}
    (h : v.insertBits offset x = some r) (hl : o + len ≤ v.bits)
    (ha : Apart offset x.bits o len) : r.window o len = v.window o len := by
  obtain ⟨-, hle, -⟩ := insertBits_some h
  rw [Int.toNat_natCast] at hle
  rw [insertBits_eq hle] at h
  cases h
  apply window_congr
  intro i hi
  rw [bit_imp_ofBits (by omega), if_neg]
  unfold Apart at ha
  omega

def insertAll (v : Value) (fields : List (ℕ × Value)) : Option Value :=
  fields.foldlM (fun r e => r.insertBits (e.1 : ℕ) e.2) v

theorem insertAll_eq_some {v : Value} {fields : List (ℕ × Value)}
    (h : ∀ e ∈ fields, e.1 + e.2.bits ≤ v.bits) :
    ∃ r, v.insertAll fields = some r ∧ r.bits = v.bits := by
  induction fields generalizing v with
  | nil => exact ⟨v, rfl, rfl⟩
  | cons e fields ih =>
    obtain ⟨w, hw, hbits⟩ : ∃ w, v.insertBits e.1 e.2 = some w ∧ w.bits = v.bits :=
      ⟨_, insertBits_eq (h e List.mem_cons_self), rfl⟩
    obtain ⟨r, hr, hr'⟩ := ih fun e' h' => hbits ▸ h e' (List.mem_cons_of_mem e h')
    exact ⟨r, Option.bind_eq_some_iff.mpr ⟨w, hw, hr⟩, hr'.trans hbits⟩

theorem window_insertAll_apart {v r : Value} {fields : List (ℕ × Value)} {o len : ℕ}
    (h : v.insertAll fields = some r) (hl : o + len ≤ v.bits)
    (ha : ∀ e ∈ fields, Apart e.1 e.2.bits o len) : r.window o len = v.window o len := by
  induction fields generalizing v with
  | nil =>
    cases h
    rfl
  | cons e fields ih =>
    obtain ⟨w, hw, h⟩ := Option.bind_eq_some_iff.mp h
    have hbits := (insertBits_some hw).2.2
    rw [ih h (by omega) fun e' h' => ha e' (List.mem_cons_of_mem e h'),
      window_insertBits_apart hw hl (ha e List.mem_cons_self)]

theorem window_insertAll {v r : Value} {fields : List (ℕ × Value)}
    (h : v.insertAll fields = some r) (hin : ∀ e ∈ fields, e.1 + e.2.bits ≤ v.bits)
    (ha : fields.Pairwise fun e e' => Apart e.1 e.2.bits e'.1 e'.2.bits) :
    ∀ e ∈ fields, e.2.ZeroPadded → r.window e.1 e.2.bits = e.2 := by
  induction fields generalizing v with
  | nil => exact fun e he => absurd he List.not_mem_nil
  | cons e fields ih =>
    obtain ⟨w, hw, h⟩ := Option.bind_eq_some_iff.mp h
    have hbits := (insertBits_some hw).2.2
    obtain ⟨hhead, htail⟩ := List.pairwise_cons.mp ha
    have hinw : ∀ e' ∈ fields, e'.1 + e'.2.bits ≤ w.bits := by
      rw [hbits]
      exact fun e' h' => hin e' (List.mem_cons_of_mem e h')
    intro e' he' hpad
    rcases List.mem_cons.mp he' with heq | he'
    · have hle := hin e List.mem_cons_self
      rw [heq] at hpad ⊢
      rw [window_insertAll_apart h (by omega) fun e'' h' => (hhead e'' h').symm]
      exact window_insertBits_self hpad hw
    · exact ih h hinw htail e' he' hpad

theorem bit_insertBits {v x r : Value} {offset : ℕ} (h : v.insertBits offset x = some r) (k : ℕ) :
    bit r.imp k =
      if offset ≤ k ∧ k < offset + x.bits then bit x.imp (k - offset) else bit v.imp k := by
  obtain ⟨-, hle, -⟩ := insertBits_some h
  rw [Int.toNat_natCast] at hle
  rw [insertBits_eq hle] at h
  rw [← Option.some.inj h, ofBits, bit_ofBits]
  by_cases hk : k < 8 * ((v.bits + 7) / 8)
  · rw [decide_eq_true hk, Bool.true_and]
  · rw [decide_eq_false hk, Bool.false_and, if_neg (by omega), bit_eq_false_of_le (by omega)]

theorem fromBits_eq {v : Value} {offset len : ℕ} (h : offset + len ≤ v.bits) :
    v.fromBits offset (offset + len) = some (v.window offset len) := by
  rw [fromBits, if_pos (by omega), Nat.add_sub_cancel_left]
  rfl

/-- The byte path of `extract_bits` agrees with the bit path, and both read the bits of the
range; `insert_bits` writes the bits of its range and no others. So what is inserted can be
extracted, and what lies elsewhere is extracted as before. -/
theorem byte_path_agrees (v : Value) :
    (∀ offset len : ℕ, offset + len ≤ v.bits →
      v.extractBits offset len = v.fromBits offset (offset + len) ∧
      ∃ r, v.extractBits offset len = some r ∧ r.bits = len ∧ r.ZeroPadded ∧
        ∀ k < len, bit r.imp k = bit v.imp (offset + k)) ∧
    ∀ (offset : ℕ) (x : Value), x.ZeroPadded → offset + x.bits ≤ v.bits →
      ∃ r, v.insertBits offset x = some r ∧ r.bits = v.bits ∧
        (∀ k, bit r.imp k =
          if offset ≤ k ∧ k < offset + x.bits then bit x.imp (k - offset) else bit v.imp k) ∧
        r.extractBits offset x.bits = some x ∧
        ∀ o len : ℕ, o + len ≤ v.bits → Apart offset x.bits o len →
          r.extractBits o len = v.extractBits o len := by
  constructor
  · intro offset len h
    rw [extractBits_eq h, fromBits_eq h]
    exact ⟨rfl, _, rfl, rfl, zeroPadded_window _ _ _, fun k hk => bit_window hk⟩
  · intro offset x hx h
    obtain ⟨r, hr⟩ : ∃ r, v.insertBits offset x = some r := ⟨_, insertBits_eq h⟩
    have hbits := (insertBits_some hr).2.2
    rw [← hbits] at h
    refine ⟨r, hr, hbits, bit_insertBits hr, ?_, ?_⟩
    · rw [extractBits_eq h, window_insertBits_self hx hr]
    · intro o len hle hapart
      rw [extractBits_eq hle, ← window_insertBits_apart hr hle hapart]
      apply extractBits_eq
      rwa [hbits]

/-- Three bits, written across the bytes of a value of eleven, and the bits before them. -/
theorem byte_path_agrees_eleven :
    (Value.new 3 5).ZeroPadded ∧ ∃ r, (Value.new 11 0x2AA).insertBits 7 (.new 3 5) = some r ∧
      r.extractBits 7 3 = some (.new 3 5) ∧
      r.extractBits 0 7 = (Value.new 11 0x2AA).extractBits 0 7 := by
  have hpad : (Value.new 3 5).ZeroPadded := zeroPadded_new 3 5
  obtain ⟨r, hr, -, -, hself, hother⟩ :=
    (byte_path_agrees (.new 11 0x2AA)).2 7 (.new 3 5) hpad (by decide)
  exact ⟨hpad, r, hr, hself, hother 0 7 (by decide) (Or.inr (by decide))⟩

end AtomicSim.Value
