import AtomicSim.Compile.StructLayout

namespace AtomicSim

section Rounding

variable {k ptr m : ℕ}

theorem two_pow_dvd_last (hk : k < 64) : 2 ^ k ∣ 2 ^ 64 - 2 ^ k :=
  Nat.dvd_sub (Nat.pow_dvd_pow 2 hk.le) dvd_rfl

/-- The last multiple in a `u64` is where the pointers end that can be rounded up. -/
theorem roundUp_le_of_le (hk : k < 64) (hptr : ptr ≤ 2 ^ 64 - 2 ^ k) :
    roundUp ptr (2 ^ k) ≤ 2 ^ 64 - 2 ^ k := by
  apply (isLeast_roundUp (Nat.two_pow_pos k) ptr).2
  exact ⟨two_pow_dvd_last hk, hptr⟩

theorem isLeast_alignTo (hk : k < 64) (hptr : ptr ≤ 2 ^ 64 - 2 ^ k) :
    IsLeast (multiplesFrom (2 ^ k) ptr) (alignTo ptr (2 ^ k)) := by
  have hpos : 0 < 2 ^ k := Nat.two_pow_pos k
  have hle : roundUp ptr (2 ^ k) ≤ 2 ^ 64 - 2 ^ k := roundUp_le_of_le hk hptr
  rw [alignTo_two_pow hk (by omega)]
  exact isLeast_roundUp hpos ptr

theorem isLeast_of_dvd {align : ℕ} (h : align ∣ m) : IsLeast (multiplesFrom align m) m :=
  ⟨⟨h, le_rfl⟩, fun _ hn => hn.2⟩

theorem le_of_dvd_of_lt (hk : k < 64) (hd : 2 ^ k ∣ m) (hm : m < 2 ^ 64) :
    m ≤ 2 ^ 64 - 2 ^ k := by
  have hle : 2 ^ k ≤ 2 ^ 64 := Nat.pow_le_pow_right (by omega) hk.le
  apply Nat.le_of_lt_add_of_dvd _ hd (two_pow_dvd_last hk)
  omega

theorem alignTo_of_dvd (hk : k < 64) (hd : 2 ^ k ∣ m) (hm : m < 2 ^ 64) :
    alignTo m (2 ^ k) = m :=
  (isLeast_alignTo hk (le_of_dvd_of_lt hk hd hm)).unique (isLeast_of_dvd hd)

theorem multiplesFrom_anti (align : ℕ) {ptr' : ℕ} (h : ptr ≤ ptr') :
    multiplesFrom align ptr' ⊆ multiplesFrom align ptr :=
  fun _ hm => ⟨hm.1, h.trans hm.2⟩

theorem alignTo_le_alignTo {ptr' : ℕ} (hk : k < 64) (hptr' : ptr' ≤ 2 ^ 64 - 2 ^ k)
    (hle : ptr ≤ ptr') : alignTo ptr (2 ^ k) ≤ alignTo ptr' (2 ^ k) := by
  apply (isLeast_alignTo hk hptr').mono (isLeast_alignTo hk (hle.trans hptr'))
  exact multiplesFrom_anti _ hle

end Rounding

namespace Layout

variable {l p : Layout} {n : ℕ}

theorem of_padToAlign (h : l.padToAlign = some p) : 8 ≤ l.bitAlign ∧
    isPowerOfTwo l.bitAlign ∧ p = ⟨AtomicSim.alignTo l.bits l.bitAlign, l.bitAlign⟩ := by
  have hp := padToAlign_eq h
  unfold padToAlign fromBits at h
  split_ifs at h with ha
  exact ⟨ha.1, ha.2, hp⟩

theorem repeated_eq (hp : l.padToAlign = some p) (hfit : p.bits * n < 2 ^ 64) :
    l.repeated .none n = some ⟨p.bits * n, l.bitAlign⟩ := by
  obtain ⟨h8, ha, rfl⟩ := of_padToAlign hp
  obtain ⟨k, hk⟩ := eq_two_pow_of_isPowerOfTwo ha
  have hk3 : 3 ≤ k := by
    apply (Nat.pow_le_pow_iff_right Nat.one_lt_two).mp
    rw [← hk]
    exact h8
  have hdvd : l.bitAlign % 8 = 0 := by
    rw [hk]
    exact Nat.mod_eq_zero_of_dvd (Nat.pow_dvd_pow 2 hk3)
  have hmul : mulU64 (AtomicSim.alignTo l.bits l.bitAlign) n =
      some (AtomicSim.alignTo l.bits l.bitAlign * n) := if_pos hfit
  simp only [repeated, if_pos hdvd, hmul, Option.bind_eq_bind, Option.bind_some]
  exact if_pos ⟨h8, ha⟩

theorem padToAlign_mul (hp : l.padToAlign = some p) (hle : l.bitAlign ≤ 2 ^ 63)
    (hfit : p.bits * n < 2 ^ 64) :
    padToAlign ⟨p.bits * n, l.bitAlign⟩ = some ⟨p.bits * n, l.bitAlign⟩ := by
  obtain ⟨h8, ha, rfl⟩ := of_padToAlign hp
  have hpad : AtomicSim.alignTo (AtomicSim.alignTo l.bits l.bitAlign * n) l.bitAlign =
      AtomicSim.alignTo l.bits l.bitAlign * n := by
    obtain ⟨k, hk, hpow⟩ := exists_lt_of_isPowerOfTwo ha (by omega)
    rw [hpow] at hfit ⊢
    -- the padded size is a multiple even if padding wrapped around
    exact alignTo_of_dvd hk ((two_pow_dvd_alignTo hk _).mul_right n) hfit
  rw [padToAlign, hpad]
  exact if_pos ⟨h8, ha⟩

end Layout

/-- `align_to` rounds up to the least multiple, for every pointer from which there is one in a
`u64`, and repeating a layout keeps its padding. -/
theorem alignTo_roundsUp {align : ℕ} (ha : isPowerOfTwo align) (hle : align ≤ 2 ^ 63) :
    (∀ ptr ≤ 2 ^ 64 - align, IsLeast (multiplesFrom align ptr) (alignTo ptr align) ∧
      alignTo (alignTo ptr align) align = alignTo ptr align) ∧
    MonotoneOn (fun ptr => alignTo ptr align) (Set.Iic (2 ^ 64 - align)) ∧
    ∀ (l p : Layout) (n : ℕ), l.bitAlign = align → l.padToAlign = some p → p.bits * n < 2 ^ 64 →
      ∃ r, l.repeated .none n = some r ∧ r.bits = p.bits * n ∧ r.bitAlign = p.bitAlign ∧
        r.padToAlign = some r := by
  obtain ⟨k, hk, rfl⟩ := exists_lt_of_isPowerOfTwo ha (by omega)
  refine ⟨fun ptr hptr => ?_, fun ptr _ ptr' hptr' h => ?_, fun l p n halign hp hfit => ?_⟩
  · have hleast := isLeast_alignTo hk hptr
    refine ⟨hleast, alignTo_of_dvd hk hleast.1.1 ?_⟩
    rw [alignTo_eq_mod hk]
    exact Nat.mod_lt _ (by decide)
  · exact alignTo_le_alignTo hk (Set.mem_Iic.mp hptr') h
  · have hpad : p.bitAlign = l.bitAlign := by rw [Layout.padToAlign_eq hp]
    refine ⟨⟨p.bits * n, l.bitAlign⟩, Layout.repeated_eq hp hfit, rfl, hpad.symm, ?_⟩
    exact Layout.padToAlign_mul hp (halign ▸ hle) hfit

/-- Three elements of a byte and a bit, whose stride is two bytes. -/
theorem alignTo_roundsUp_three :
    IsLeast (multiplesFrom 16 0) (alignTo 0 16) ∧ (alignTo 9 16 ≤ alignTo 17 16) ∧
      ∃ r, Layout.repeated ⟨9, 16⟩ .none 3 = some r ∧ r.bits = 48 ∧ r.padToAlign = some r := by
  obtain ⟨hleast, hmono, hrepeat⟩ := alignTo_roundsUp (by decide : isPowerOfTwo 16) (by decide)
  obtain ⟨r, hr, hbits, -, hpad⟩ := hrepeat ⟨9, 16⟩ ⟨16, 16⟩ 3 rfl (by decide) (by decide)
  refine ⟨(hleast 0 (by decide)).1, ?_, r, hr, hbits, hpad⟩
  exact hmono (Set.mem_Iic.mpr (by decide)) (Set.mem_Iic.mpr (by decide)) (by decide)

end AtomicSim
