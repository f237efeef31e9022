import AtomicSim.Compile.Widths

namespace AtomicSim

open LittleEndian (bit)

namespace Value

def number (v : Value) : ℕ := LittleEndian.toNat v.imp

/-- The value of the given width that denotes a number modulo `2 ^ bits`. -/
def ofNumber (bits n : ℕ) : Value := ofBits bits fun i => decide (i < bits) && n.testBit i

theorem zeroPadded_ofNumber (bits n : ℕ) : (ofNumber bits n).ZeroPadded := by
  apply zeroPadded_ofBits
  intro i hi
  simp [Nat.not_lt.mpr hi]

theorem bit_ofNumber {bits n i : ℕ} (h : i < bits) :
    bit (ofNumber bits n).imp i = n.testBit i := by
  rw [ofNumber, bit_imp_ofBits h]
  simp [h]

theorem testBit_number (v : Value) (i : ℕ) : v.number.testBit i = bit v.imp i :=
  LittleEndian.testBit_toNat v.imp i

theorem number_lt {v : Value} (h : v.ZeroPadded) : v.number < 2 ^ v.bits := by
  apply Nat.lt_pow_two_of_testBit
  intro i hi
  rw [testBit_number, h i hi]

theorem number_ofNumber (bits n : ℕ) : (ofNumber bits n).number = n % 2 ^ bits := by
  apply Nat.eq_of_testBit_eq
  intro i
  rw [testBit_number, Nat.testBit_mod_two_pow]
  by_cases hi : i < bits
  · simp [bit_ofNumber hi, hi]
  · simp [zeroPadded_ofNumber bits n i (Nat.not_lt.mp hi), hi]

theorem eq_ofNumber {v : Value} {bits n : ℕ} (hv : v.ZeroPadded) (hb : v.bits = bits)
    (h : ∀ i < bits, bit v.imp i = n.testBit i) : v = ofNumber bits n := by
  apply ext_bits hb hv (zeroPadded_ofNumber bits n)
  intro i hi
  rw [hb] at hi
  rw [h i hi, bit_ofNumber hi]

theorem ofNumber_number {v : Value} (hv : v.ZeroPadded) : ofNumber v.bits v.number = v :=
  (eq_ofNumber hv rfl fun i _ => (testBit_number v i).symm).symm

theorem new_eq_ofNumber {bits : ℕ} (h : bits ≤ 128) (n : ℕ) : new bits n = ofNumber bits n := by
  apply eq_ofNumber (zeroPadded_new bits n) (bits_new bits n)
  intro i hi
  have hmin : i < min bits 128 := by omega
  rw [new, bit_imp_ofBits hi]
  simp [hmin]

theorem asU128_eq_number {v : Value} (h : v.bits ≤ 128) : v.asU128 = v.number := by
  have hlen := v.length_imp
  rw [asU128, List.take_of_length_le (by omega), number]

theorem asU64_eq_number {v : Value} (h : v.number < 2 ^ 64) : v.asU64 = v.number := by
  have hmod : v.asU64 = v.number % 2 ^ 64 := by
    apply Nat.eq_of_testBit_eq
    intro i
    rw [asU64, Nat.testBit_mod_two_pow, Nat.testBit_mod_two_pow]
    by_cases hi : i < 64
    · rw [asU128, LittleEndian.testBit_toNat, LittleEndian.bit_take (by omega), testBit_number]
    · simp [hi]
  rw [hmod, Nat.mod_eq_of_lt h]

def ofBitVec {w : ℕ} (x : BitVec w) : Value := ofNumber w x.toNat

def toBitVec (v : Value) : BitVec v.bits := BitVec.ofNat v.bits v.number

variable {w : ℕ}

theorem new_eq_ofBitVec (h : w ≤ 128) {n : ℕ} {x : BitVec w} (hx : x.toNat = n) :
    new w n = ofBitVec x := by
  rw [new_eq_ofNumber h, ofBitVec, hx]

theorem ofInt_eq_ofBitVec (h : w ≤ 128) (z : ℤ) : ofInt w z = ofBitVec (BitVec.ofInt w z) :=
  new_eq_ofBitVec h (BitVec.toNat_ofInt z)

theorem unwrapInt_new (h : w ≤ 128) (a : ℕ) :
    (new w a).unwrapInt w = some (BitVec.ofNat w a).toNat := by
  rw [unwrapInt, if_pos (bits_new w a), asU128_new h, BitVec.toNat_ofNat]

theorem unwrapSigned_new (h : w ≤ 128) (a : ℕ) :
    (new w a).unwrapSigned w = some (BitVec.ofNat w a).toInt := by
  rw [unwrapSigned, unwrapInt_new h, BitVec.toInt_eq_toNat_bmod]
  rfl

end Value

/-- The operations that the reference has. -/
def CBinopName.IsInteger : CBinopName → Prop
  | .add | .sub | .mul | .uDiv | .sDiv | .uRem | .sRem | .and | .or | .xor | .shl | .aShr => True
  | _ => False

/-- Two's-complement arithmetic on `w` bits. -/
def CBinopName.reference {w : ℕ} (name : CBinopName) (x y : BitVec w) : BitVec w :=
  match name with
  | .add => x + y
  | .sub => x - y
  | .mul => x * y
  | .uDiv => x.udiv y
  | .sDiv => x.sdiv y
  | .uRem => x.umod y
  | .sRem => x.srem y
  | .and => x &&& y
  | .or => x ||| y
  | .xor => x ^^^ y
  | .shl => x <<< y.toNat
  | .aShr => x.sshiftRight y.toNat
  | _ => x

/-- The divisor is not zero, and a shift is by less than the width. -/
def CBinopName.Defined {w : ℕ} (name : CBinopName) (y : BitVec w) : Prop :=
  match name with
  | .uDiv | .sDiv | .uRem | .sRem => y ≠ 0
  | .shl | .aShr => y.toNat < w
  | _ => True

def CIntPredicate.reference {w : ℕ} (predicate : CIntPredicate) (x y : BitVec w) : Bool :=
  match predicate with
  | .eq => x == y
  | .ne => x != y
  | .ugt => y.ult x
  | .uge => y.ule x
  | .ult => x.ult y
  | .ule => x.ule y
  | .sgt => y.slt x
  | .sge => y.sle x
  | .slt => x.slt y
  | .sle => x.sle y

/-- The widths that the integer operations have a case for. -/
def scalarWidths : List ℕ := [8, 16, 32, 64, 128]

namespace COperation

open Value

variable {w : ℕ}

theorem le_of_mem_scalarWidths (hw : w ∈ scalarWidths) : 8 ≤ w ∧ w ≤ 128 := by
  simp only [scalarWidths, List.mem_cons, List.not_mem_nil, or_false] at hw
  omega

theorem callScalarBinopUnsigned_new (hw : w ∈ scalarWidths) (a b : ℕ)
    (f₁ : Bool → Bool → Option Value) (f : ℕ → ℕ → ℕ → Option Value) :
    callScalarBinopUnsigned (.new w a) (.new w b) f₁ f =
      f w (BitVec.ofNat w a).toNat (BitVec.ofNat w b).toNat := by
  obtain ⟨h8, hle⟩ := le_of_mem_scalarWidths hw
  rw [callScalarBinopUnsigned, bits_new, bits_new, if_neg (by omega), if_pos ⟨hw, rfl⟩,
    unwrapInt_new hle, unwrapInt_new hle]
  rfl

theorem callScalarBinopSigned_new (hw : w ∈ scalarWidths) (a b : ℕ)
    (f : ℕ → ℤ → ℤ → Option Value) :
    callScalarBinopSigned (.new w a) (.new w b) f =
      f w (BitVec.ofNat w a).toInt (BitVec.ofNat w b).toInt := by
  obtain ⟨-, hle⟩ := le_of_mem_scalarWidths hw
  rw [callScalarBinopSigned, bits_new, bits_new, if_pos ⟨hw, rfl⟩, unwrapSigned_new hle,
    unwrapSigned_new hle]
  rfl

theorem toNat_ne_zero {y : BitVec w} (h : y ≠ 0) : y.toNat ≠ 0 :=
  fun hy => h (BitVec.eq_of_toNat_eq hy)

theorem toInt_ne_zero {y : BitVec w} (h : y ≠ 0) : y.toInt ≠ 0 :=
  fun hy => h (BitVec.eq_of_toInt_eq (hy.trans BitVec.toInt_zero.symm))

theorem sdiv_eq (x y : BitVec w) : x.sdiv y = BitVec.ofInt w (x.toInt.tdiv y.toInt) := by
  apply BitVec.eq_of_toInt_eq
  rw [BitVec.toInt_sdiv, BitVec.toInt_ofInt]

theorem srem_eq (x y : BitVec w) : x.srem y = BitVec.ofInt w (x.toInt.tmod y.toInt) := by
  rw [← BitVec.toInt_srem, BitVec.ofInt_toInt]

theorem sshiftRight_eq (x : BitVec w) (n : ℕ) :
    x.sshiftRight n = BitVec.ofInt w (x.toInt / 2 ^ n) := by
  have hshift : x.toInt / 2 ^ n = (x.sshiftRight n).toInt := by
    rw [BitVec.toInt_sshiftRight, Int.shiftRight_eq_div_pow]
    simp
  rw [hshift, BitVec.ofInt_toInt]

theorem toInt_of_lt (h8 : 8 ≤ w) {y : BitVec w} (hy : y.toNat < w) : y.toInt = y.toNat := by
  apply BitVec.toInt_eq_toNat_of_lt
  have hpow : w < 2 ^ (w - 1) := by
    have hlt : w - 1 < 2 ^ (w - 1) := Nat.lt_two_pow_self
    have hne : w ≠ 2 ^ (w - 1) := by
      intro he
      have hlog : 2 ^ (w - 1) = 2 * 2 ^ (w - 2) := by
        rw [← Nat.pow_succ']
        congr 1
        omega
      have hlt' : w - 2 < 2 ^ (w - 2) := Nat.lt_two_pow_self
      omega
    omega
  have hdouble : 2 ^ w = 2 * 2 ^ (w - 1) := by
    rw [← Nat.pow_succ']
    congr 1
    omega
  omega

theorem callScalarBinop_new (hw : w ∈ scalarWidths) {name : CBinopName} (hname : name.IsInteger)
    (a b : ℕ) (hdef : name.Defined (BitVec.ofNat w b)) :
    callScalarBinop name (.new w a) (.new w b) =
      some (.ofBitVec (name.reference (BitVec.ofNat w a) (BitVec.ofNat w b))) := by
  obtain ⟨h8, hle⟩ := le_of_mem_scalarWidths hw
  have hunsigned := callScalarBinopUnsigned_new hw a b
  have hsigned := callScalarBinopSigned_new hw a b
  generalize BitVec.ofNat w a = x at *
  generalize BitVec.ofNat w b = y at *
  cases name <;> simp only [callScalarBinop, CBinopName.reference, hunsigned, hsigned]
  case add => rw [new_eq_ofBitVec hle (BitVec.toNat_add x y)]
  case sub =>
    apply congrArg some
    apply new_eq_ofBitVec hle
    rw [BitVec.toNat_sub, Nat.add_comm]
  case mul => rw [new_eq_ofBitVec hle (BitVec.toNat_mul x y)]
  case and => rw [new_eq_ofBitVec hle (BitVec.toNat_and x y)]
  case or => rw [new_eq_ofBitVec hle (BitVec.toNat_or x y)]
  case xor => rw [new_eq_ofBitVec hle (BitVec.toNat_xor x y)]
  case uDiv =>
    rw [if_neg (toNat_ne_zero hdef), new_eq_ofBitVec hle BitVec.toNat_udiv]
    rfl
  case uRem =>
    rw [if_neg (toNat_ne_zero hdef), new_eq_ofBitVec hle BitVec.toNat_umod]
    rfl
  case sDiv =>
    rw [if_neg (toInt_ne_zero hdef),
      ofInt_eq_ofBitVec hle, sdiv_eq]
  case sRem =>
    rw [if_neg (toInt_ne_zero hdef),
      ofInt_eq_ofBitVec hle, srem_eq]
  case shl =>
    have hy : y.toNat < w := hdef
    rw [if_pos hy, ← Nat.shiftLeft_eq, new_eq_ofBitVec hle BitVec.toNat_shiftLeft]
  case aShr =>
    have hy : y.toNat < w := hdef
    rw [toInt_of_lt h8 hy, if_pos (by omega), ofInt_eq_ofBitVec hle, sshiftRight_eq,
      Int.toNat_natCast]
  all_goals cases hname

theorem callScalarICmp_new (hw : w ∈ scalarWidths) (predicate : CIntPredicate) (a b : ℕ) :
    callScalarICmp predicate (.new w a) (.new w b) =
      some (.ofBool (predicate.reference (BitVec.ofNat w a) (BitVec.ofNat w b))) := by
  have hunsigned := callScalarBinopUnsigned_new hw a b
  have hsigned := callScalarBinopSigned_new hw a b
  generalize BitVec.ofNat w a = x at *
  generalize BitVec.ofNat w b = y at *
  have heq : (x.toNat == y.toNat) = (x == y) := by
    rw [Bool.eq_iff_iff, beq_iff_eq, beq_iff_eq, BitVec.toNat_inj]
  cases predicate <;> simp only [callScalarICmp, CIntPredicate.reference, hunsigned, hsigned]
  case eq => rw [heq]
  case ne => rw [bne, bne, heq]
  all_goals rfl

theorem callScalarLShr_eq {v₁ v₂ : Value} (hv : v₁.ZeroPadded) (hlt : v₁.bits < 2 ^ 64)
    (hle : v₂.number ≤ v₁.bits) :
    callScalarLShr v₁ v₂ = some (.ofNumber v₁.bits (v₁.number >>> v₂.number)) := by
  rw [callScalarLShr, asU64_eq_number (by omega), if_pos hle]
  apply congrArg some
  apply eq_ofNumber _ (bits_ofBits _ _)
  · intro i hi
    rw [bit_imp_ofBits hi, Nat.testBit_shiftRight, testBit_number]
    by_cases h : i < v₁.bits - v₂.number
    · simp [h]
    · simp [h, hv (v₂.number + i) (by omega)]
  · apply zeroPadded_ofBits
    intro i hi
    rw [decide_eq_false (by omega), Bool.false_and]

theorem ucast_eq {v : Value} (hv : v.ZeroPadded) (layout : Layout) :
    v.ucast layout = .ofNumber layout.bits v.number := by
  obtain ⟨hbits, hpad⟩ := exact_ucast v layout
  apply eq_ofNumber hpad hbits
  intro i hi
  rw [ucast, bit_imp_ofBits hi, testBit_number]
  by_cases h : i < min v.bits layout.bits
  · simp [h]
  · simp [h, hv i (by omega)]

/-- The pairs of widths that `call_scalar_sext` has a case for. -/
def SextSupported (a b : ℕ) : Prop :=
  a = b ∨ (a, b) ∈ [(8, 16), (8, 32), (8, 64), (16, 32), (16, 64), (32, 64)]

theorem callScalarSext_eq {v : Value} {bits : ℕ} (hv : v.ZeroPadded)
    (h : SextSupported v.bits bits) :
    callScalarSext v bits = some (.ofBitVec (v.toBitVec.signExtend bits)) := by
  by_cases heq : v.bits = bits
  · rw [callScalarSext, if_pos heq, ← heq, BitVec.signExtend_eq, ofBitVec, toBitVec,
      BitVec.toNat_ofNat, Nat.mod_eq_of_lt (number_lt hv), ofNumber_number hv]
  · have hmem := h.resolve_left heq
    have hsizes : v.bits ≤ bits ∧ bits ≤ 128 := by
      simp only [List.mem_cons, Prod.mk.injEq, List.not_mem_nil, or_false] at hmem
      omega
    obtain ⟨hle, h128⟩ := hsizes
    have hsigned : v.unwrapSigned v.bits = some v.toBitVec.toInt := by
      rw [unwrapSigned, unwrapInt, if_pos rfl, asU128_eq_number (by omega),
        BitVec.toInt_eq_toNat_bmod, toBitVec, BitVec.toNat_ofNat, Nat.mod_eq_of_lt (number_lt hv)]
      rfl
    rw [callScalarSext, if_neg heq, if_pos hmem, hsigned, Option.map_some,
      ofInt_eq_ofBitVec h128, ← BitVec.toInt_signExtend_of_le hle, BitVec.ofInt_toInt]

theorem callScalar_bitVectors :
    (∀ w ∈ scalarWidths, ∀ (a b : ℕ) (name : CBinopName), name.IsInteger →
      name.Defined (BitVec.ofNat w b) →
      callScalar (.binop name) [.new w a, .new w b] =
        some (.ofBitVec (name.reference (BitVec.ofNat w a) (BitVec.ofNat w b)))) ∧
    (∀ w ∈ scalarWidths, ∀ (a b : ℕ) (predicate : CIntPredicate),
      callScalar (.iCmp predicate) [.new w a, .new w b] =
        some (.ofBool (predicate.reference (BitVec.ofNat w a) (BitVec.ofNat w b)))) ∧
    (∀ v₁ v₂ : Value, v₁.ZeroPadded → v₁.bits < 2 ^ 64 → v₂.number ≤ v₁.bits →
      callScalar (.binop .lShr) [v₁, v₂] =
        some (.ofNumber v₁.bits (v₁.number >>> v₂.number))) ∧
    (∀ (v : Value) (output : Class), v.ZeroPadded →
      callScalar (.cast .zExt output) [v] = some (.ofNumber output.layout.bits v.number) ∧
      callScalar (.cast .trunc output) [v] = some (.ofNumber output.layout.bits v.number)) ∧
    (∀ (v : Value) (output : Class), v.ZeroPadded → SextSupported v.bits output.layout.bits →
      callScalar (.cast .sExt output) [v] =
        some (.ofBitVec (v.toBitVec.signExtend output.layout.bits))) ∧
    (∀ bits n : ℕ, (ofNumber bits n).bits = bits ∧ (ofNumber bits n).number = n % 2 ^ bits ∧
      (ofNumber bits n).ZeroPadded) ∧
    (∀ v : Value, v.bits ≤ 128 → v.number = v.asU128) ∧
    ∀ bits x : ℕ, bits ≤ 128 → (Value.new bits x).asU128 = x % 2 ^ bits := by
  refine ⟨?_, ?_, ?_, ?_, ?_, ?_, ?_, ?_⟩
  · intro w hw a b name hname hdef
    exact callScalarBinop_new hw hname a b hdef
  · intro w hw a b predicate
    exact callScalarICmp_new hw predicate a b
  · intro v₁ v₂ hv hlt hle
    exact callScalarLShr_eq hv hlt hle
  · intro v output hv
    rw [← ucast_eq hv]
    exact ⟨rfl, rfl⟩
  · intro v output hv h
    exact callScalarSext_eq hv h
  · intro bits n
    exact ⟨bits_ofBits _ _, number_ofNumber bits n, zeroPadded_ofNumber bits n⟩
  · intro v h
    exact (asU128_eq_number h).symm
  · intro bits x h
    exact asU128_new h x

/-- The least byte divided by minus one, and eleven bits shifted out altogether. -/
theorem callScalar_bitVectors_boundary :
    callScalar (.binop .sDiv) [.new 8 0x80, .new 8 0xFF] = some (.ofBitVec 0x80#8) ∧
      callScalar (.binop .lShr) [.new 11 0x7FF, .new 11 11] = some (.ofNumber 11 0) := by
  obtain ⟨hbinop, -, hshift, -⟩ := callScalar_bitVectors
  constructor
  · have hdef : CBinopName.sDiv.Defined (BitVec.ofNat 8 0xFF) := by
      simp [CBinopName.Defined]
    exact hbinop 8 (by decide) 0x80 0xFF .sDiv trivial hdef
  · exact hshift (.new 11 0x7FF) (.new 11 11) (zeroPadded_new _ _) (by decide) (by decide)

end COperation
end AtomicSim
