import AtomicSim.Compile.Oper

namespace AtomicSim

theorem isPowerOfTwo_two_pow (k : ℕ) : isPowerOfTwo (2 ^ k) = true := by
  rw [isPowerOfTwo, Nat.log2_two_pow]
  exact beq_self_eq_true _

theorem two_pow_dvd_alignTo {k : ℕ} (hk : k < 64) (ptr : ℕ) : 2 ^ k ∣ alignTo ptr (2 ^ k) := by
  rw [alignTo_eq_mod hk]
  exact (Nat.dvd_mod_iff (Nat.pow_dvd_pow 2 hk.le)).mpr (dvd_roundUp _ _)

namespace Layout

/-- The alignment of a class: a power of two, from a byte up. -/
def Aligned (l : Layout) : Prop := ∃ k, 3 ≤ k ∧ k ≤ 32 ∧ l.bitAlign = 2 ^ k

theorem Aligned.pos {l : Layout} (h : l.Aligned) : 0 < l.bitAlign := by
  obtain ⟨k, -, -, hk⟩ := h
  rw [hk]
  exact Nat.two_pow_pos k

theorem Aligned.le {l : Layout} (h : l.Aligned) : l.bitAlign ≤ 2 ^ 32 := by
  obtain ⟨k, -, hle, hk⟩ := h
  rw [hk]
  exact Nat.pow_le_pow_right (by omega) hle

theorem Aligned.dvd {l : Layout} (h : l.Aligned) : l.bitAlign % 8 = 0 := by
  obtain ⟨k, hge, -, hk⟩ := h
  rw [hk]
  exact Nat.mod_eq_zero_of_dvd (Nat.pow_dvd_pow 2 hge)

/-- Away from the end of `u64`, `align_to` rounds up. -/
theorem Aligned.alignTo {l : Layout} (h : l.Aligned) {ptr : ℕ} (hptr : ptr < 2 ^ 63) :
    alignTo ptr l.bitAlign = roundUp ptr l.bitAlign := by
  have hlt : roundUp ptr l.bitAlign < ptr + l.bitAlign := roundUp_lt h.pos
  have hle := h.le
  obtain ⟨k, -, hk32, hk⟩ := h
  rw [hk] at hlt hle ⊢
  apply alignTo_two_pow <;> omega

theorem Aligned.dvd_alignTo {l : Layout} (h : l.Aligned) (ptr : ℕ) :
    8 ∣ AtomicSim.alignTo ptr l.bitAlign := by
  obtain ⟨k, hge, hle, hk⟩ := h
  rw [hk]
  have hdvd : 2 ^ 3 ∣ 2 ^ k := Nat.pow_dvd_pow 2 hge
  exact hdvd.trans (two_pow_dvd_alignTo (by omega) ptr)

theorem aligned_of_bitAlign_eq {l l' : Layout} (h : l.Aligned) (he : l'.bitAlign = l.bitAlign) :
    l'.Aligned := by
  obtain ⟨k, hge, hle, hk⟩ := h
  exact ⟨k, hge, hle, he.trans hk⟩

theorem aligned_eight (bits : ℕ) : Aligned ⟨bits, 8⟩ := ⟨3, by omega, by omega, rfl⟩

theorem aligned_max {l l' : Layout} (h : l.Aligned) (h' : l'.Aligned) (bits : ℕ) :
    Aligned ⟨bits, max l.bitAlign l'.bitAlign⟩ := by
  rcases max_choice l.bitAlign l'.bitAlign with he | he
  · exact aligned_of_bitAlign_eq h he
  · exact aligned_of_bitAlign_eq h' he

theorem nextPowerOfTwo_eq {n : ℕ} (h : 8 ≤ n) (hn : n ≤ 2 ^ 32) :
    ∃ k, 3 ≤ k ∧ k ≤ 32 ∧ nextPowerOfTwo n = 2 ^ k := by
  refine ⟨(n - 1).log2 + 1, ?_, ?_, if_neg (by omega)⟩
  · have : 2 ≤ (n - 1).log2 := (Nat.le_log2 (by omega)).mpr (by omega)
    omega
  · have : (n - 1).log2 < 32 := (Nat.log2_lt (by omega)).mpr (by omega)
    omega

theorem fromBits_some {bits bitAlign : ℕ} {l : Layout} (h : fromBits bits bitAlign = some l) :
    l = ⟨bits, bitAlign⟩ := by
  unfold fromBits at h
  split_ifs at h
  exact (Option.some.inj h).symm

theorem ofInt_eq {bits : ℕ} {l : Layout} (h : ofInt bits = some l) (hb : bits ≤ 2 ^ 32) :
    l.bits = bits ∧ l.Aligned := by
  rw [fromBits_some h]
  exact ⟨rfl, nextPowerOfTwo_eq (by omega) (by omega)⟩

theorem padToAlign_eq {l l' : Layout} (h : l.padToAlign = some l') :
    l' = ⟨AtomicSim.alignTo l.bits l.bitAlign, l.bitAlign⟩ := fromBits_some h

theorem Aligned.padToAlign {l : Layout} (h : l.Aligned) :
    l.padToAlign = some ⟨AtomicSim.alignTo l.bits l.bitAlign, l.bitAlign⟩ := by
  obtain ⟨k, hge, hle, hk⟩ := h
  have h8 : 2 ^ 3 ≤ 2 ^ k := Nat.pow_le_pow_right (by omega) hge
  refine if_pos ⟨?_, ?_⟩
  · rw [hk]
    exact h8
  · rw [hk]
    exact isPowerOfTwo_two_pow k

theorem mulU64_some {a b c : ℕ} (h : mulU64 a b = some c) : a * b < 2 ^ 64 ∧ c = a * b := by
  unfold mulU64 at h
  split_ifs at h with hlt
  exact ⟨hlt, (Option.some.inj h).symm⟩

theorem repeated_bit {l l' : Layout} {n : ℕ} (h : l.repeated .bit n = some l') :
    l.bits * n < 2 ^ 64 ∧ l' = ⟨l.bits * n, 8⟩ := by
  obtain ⟨bits, hb, h⟩ := Option.bind_eq_some_iff.mp h
  obtain ⟨hlt, rfl⟩ := mulU64_some hb
  exact ⟨hlt, fromBits_some h⟩

theorem repeated_none {l l' : Layout} {n : ℕ} (h : l.repeated .none n = some l') :
    AtomicSim.alignTo l.bits l.bitAlign * n < 2 ^ 64 ∧
      l' = ⟨AtomicSim.alignTo l.bits l.bitAlign * n, l.bitAlign⟩ := by
  unfold repeated at h
  split_ifs at h
  obtain ⟨bits, hb, h⟩ := Option.bind_eq_some_iff.mp h
  obtain ⟨hlt, rfl⟩ := mulU64_some hb
  exact ⟨hlt, fromBits_some h⟩

end Layout

/-- The classes that a class holds by value. -/
def Class.parts (c : Class) : List Class :=
  match c.kind with
  | .vector element _ => [element]
  | .array element _ => [element]
  | .struc fields _ => fields.map Element.cls
  | _ => []

theorem Class.sizeOf_parts {c d : Class} (h : d ∈ c.parts) : sizeOf d < sizeOf c := by
  cases c with
  | mk typ kind layout =>
    cases kind with
    | vector element len | array element len =>
      rw [List.mem_singleton.mp h]
      simp
      omega
    | struc fields l =>
      obtain ⟨f, hf, rfl⟩ := List.mem_map.mp h
      have hlt := List.sizeOf_lt_of_mem hf
      cases f with
      | mk cls offset =>
        simp only [Class.mk.sizeOf_spec, ClassKind.struc.sizeOf_spec, Element.cls,
          Element.mk.sizeOf_spec] at *
        omega
    | _ => exact absurd h List.not_mem_nil

namespace TypeMap

variable {tm : TypeMap} {c d : Class} {isPacked : Bool} {cs : List Class}
  {start last : Layout} {before fields : List Element}

theorem strucField_some {acc : Layout × List Element} {l : Layout} {fs : List Element}
    (h : strucField isPacked acc c = some (l, fs)) :
    ∃ offset, acc.1.extendU64 (Packing.ofBool isPacked) c.layout = some (l, offset) ∧
      fs = acc.2 ++ [.mk c offset] := by
  obtain ⟨⟨l', offset⟩, hl, h⟩ := Option.bind_eq_some_iff.mp h
  cases h
  exact ⟨offset, hl, rfl⟩

theorem map_cls_foldlM
    (h : cs.foldlM (strucField isPacked) (start, before) = some (last, fields)) :
    fields.map Element.cls = before.map Element.cls ++ cs := by
  induction cs generalizing start before with
  | nil =>
    cases h
    rw [List.append_nil]
  | cons c cs ih =>
    obtain ⟨⟨l, fs⟩, hstep, hrest⟩ := Option.bind_eq_some_iff.mp h
    obtain ⟨offset, -, rfl⟩ := strucField_some hstep
    rw [ih hrest, List.map_append, List.append_assoc]
    rfl

theorem Built.of_parts (h : tm.Built c) (hd : d ∈ c.parts) : tm.Built d := by
  cases h.made with
  | vector he _ | array he _ =>
    rw [List.mem_singleton.mp hd]
    exact built_of_get he
  | struc hc hf _ =>
    have hcls : List.map Element.cls _ = _ := map_cls_foldlM hf
    rw [List.map_nil, List.nil_append] at hcls
    have hd' : d ∈ List.map Element.cls _ := hd
    rw [hcls] at hd'
    exact built_of_getList hc d hd'
  | _ => exact absurd hd List.not_mem_nil

theorem Built.induction {P : Class → Prop}
    (h : ∀ c, tm.Built c → (∀ d ∈ c.parts, tm.Built d → P d) → P c) (c : Class)
    (hc : tm.Built c) : P c :=
  h c hc fun d hd hb =>
    have := Class.sizeOf_parts hd
    Built.induction h d hb
termination_by sizeOf c

theorem extendU64_eq {l l' other : Layout} {packing : Packing} {offset : ℤ}
    (h : l.extendU64 packing other = some (l', offset)) :
    l' = (l.extend packing other).1 ∧ offset = asI64 (l.extend packing other).2.toNat := by
  rw [Layout.extendU64] at h
  cases hext : l.extend packing other with
  | mk layout o =>
    simp only [hext] at h
    split_ifs at h
    cases h
    exact ⟨rfl, rfl⟩

theorem extendU64_some {l l' other : Layout} {offset : ℤ}
    (h : l.extendU64 (Packing.ofBool isPacked) other = some (l', offset)) :
    ∃ o : ℕ, o = alignTo l.bits (if isPacked then 8 else other.bitAlign) ∧ offset = asI64 o ∧
      l'.bits = o + other.bits ∧
      l'.bitAlign = if isPacked then 8 else max l.bitAlign other.bitAlign := by
  obtain ⟨hl, ho⟩ := extendU64_eq h
  rw [hl, ho]
  cases isPacked with
  | false | true => exact ⟨_, rfl, congrArg asI64 (Int.toNat_natCast _), rfl, rfl⟩

theorem aligned_foldlM (hcs : ∀ c ∈ cs, c.layout.Aligned) (hs : start.Aligned)
    (h : cs.foldlM (strucField isPacked) (start, before) = some (last, fields)) :
    last.Aligned := by
  induction cs generalizing start before with
  | nil =>
    cases h
    exact hs
  | cons c cs ih =>
    obtain ⟨⟨l, fs⟩, hstep, hrest⟩ := Option.bind_eq_some_iff.mp h
    obtain ⟨offset, hext, rfl⟩ := strucField_some hstep
    obtain ⟨o, -, -, -, hal⟩ := extendU64_some hext
    apply ih (fun c' hc' => hcs c' (List.mem_cons_of_mem c hc')) _ hrest
    cases isPacked with
    | true => exact Layout.aligned_of_bitAlign_eq (Layout.aligned_eight 0) hal
    | false =>
      exact Layout.aligned_of_bitAlign_eq
        (Layout.aligned_max hs (hcs c List.mem_cons_self) 0) hal

theorem fpLayout_spec {t : FPType} {l : Layout} (h : fpLayout t = some l) :
    l.bits ≤ 128 ∧ l.Aligned := by
  cases t with
  | x86FP80 =>
    rw [Layout.fromBits_some h]
    exact ⟨by decide, 7, by omega, by omega, rfl⟩
  | _ =>
    obtain ⟨hbits, hal⟩ := Layout.ofInt_eq h (by omega)
    exact ⟨by omega, hal⟩

theorem Built.aligned (h : tm.Built c) : c.layout.Aligned := by
  apply Built.induction (P := fun c => c.layout.Aligned) _ c h
  intro c hc ih
  cases hc.made with
  | void | metadata | func => exact Layout.aligned_eight _
  | pointer => exact ⟨6, by omega, by omega, rfl⟩
  | integer bits hl => exact (Layout.ofInt_eq hl bits.toNat_lt.le).2
  | fp t hl => exact (fpLayout_spec hl).2
  | vector he hl =>
    rw [Class.layout, (Layout.repeated_bit hl).2]
    exact Layout.aligned_eight _
  | array he hl =>
    rw [Class.layout, (Layout.repeated_none hl).2]
    exact Layout.aligned_of_bitAlign_eq (ih _ List.mem_cons_self (built_of_get he)) rfl
  | struc hts hf hl =>
    have hcls : List.map Element.cls _ = _ := map_cls_foldlM hf
    rw [List.map_nil, List.nil_append] at hcls
    have hlast := aligned_foldlM (fun d hd => ih d ?_ (built_of_getList hts d hd))
      (Layout.aligned_eight 0) hf
    · rw [Class.layout, Layout.padToAlign_eq hl]
      exact Layout.aligned_of_bitAlign_eq hlast rfl
    · show d ∈ List.map Element.cls _
      rw [hcls]
      exact hd

theorem Built.bits_lt (h : tm.Built c) : c.layout.bits < 2 ^ 64 := by
  cases h.made with
  | void | metadata => exact (by decide : 0 < 2 ^ 64)
  | func => exact (by decide : 2048 < 2 ^ 64)
  | pointer => exact (by decide : 64 < 2 ^ 64)
  | integer bits hl =>
    have hlt := bits.toNat_lt
    rw [Class.layout, (Layout.ofInt_eq hl hlt.le).1]
    omega
  | fp t hl => exact lt_of_le_of_lt (fpLayout_spec hl).1 (by decide)
  | vector he hl =>
    obtain ⟨hlt, hlayout⟩ := Layout.repeated_bit hl
    rw [Class.layout, hlayout]
    exact hlt
  | array he hl =>
    obtain ⟨hlt, hlayout⟩ := Layout.repeated_none hl
    rw [Class.layout, hlayout]
    exact hlt
  | struc hts hf hl =>
    rw [Class.layout, Layout.padToAlign_eq hl]
    exact Nat.mod_lt _ (by decide)

end TypeMap

mutual

/-- The size of a class in unbounded arithmetic. `align_to` wraps around, so the bits of a
layout can be few although its fields fill `u64` more than once. -/
def Class.totalSize : Class → ℕ
  | .mk typ kind layout => kind.totalSize typ layout

def ClassKind.totalSize (typ : TypeRef) (layout : Layout) : ClassKind → ℕ
  | .vector element len =>
    match typ with
    | .arrayType _ _ => roundUp element.totalSize element.layout.bitAlign * len
    | _ => element.totalSize * len
  | .array element len => roundUp element.totalSize element.layout.bitAlign * len
  | .struc fields _ =>
    match typ with
    | .structType _ isPacked => roundUp (fieldsEnd isPacked 0 fields) layout.bitAlign
    | _ => layout.bits
  | _ => layout.bits

/-- Where fields laid out from `start` on come to an end. -/
def fieldsEnd (isPacked : Bool) (start : ℕ) : List Element → ℕ
  | [] => start
  | .mk cls _ :: fields =>
    fieldsEnd isPacked
      (roundUp start (if isPacked then 8 else cls.layout.bitAlign) + cls.totalSize) fields

end

/-- `fieldsEnd`, on the classes of the fields. -/
def classesEnd (isPacked : Bool) : ℕ → List Class → ℕ
  | start, [] => start
  | start, c :: cs =>
    classesEnd isPacked
      (roundUp start (if isPacked then 8 else c.layout.bitAlign) + c.totalSize) cs

theorem fieldsEnd_eq (isPacked : Bool) (start : ℕ) (fields : List Element) :
    fieldsEnd isPacked start fields = classesEnd isPacked start (fields.map Element.cls) := by
  induction fields generalizing start with
  | nil => rfl
  | cons f fields ih =>
    cases f with
    | mk cls offset => exact ih _

theorem le_classesEnd (isPacked : Bool) {cs : List Class}
    (h : ∀ c ∈ cs, c.layout.Aligned) (start : ℕ) : start ≤ classesEnd isPacked start cs := by
  induction cs generalizing start with
  | nil => exact le_rfl
  | cons c cs ih =>
    have hpos : 0 < if isPacked then 8 else c.layout.bitAlign := by
      split_ifs
      · omega
      · exact (h c List.mem_cons_self).pos
    have hle : start ≤ roundUp start _ := le_roundUp hpos
    have hrest := ih (fun d hd => h d (List.mem_cons_of_mem c hd))
      (roundUp start (if isPacked then 8 else c.layout.bitAlign) + c.totalSize)
    rw [classesEnd]
    omega

theorem totalSize_le_classesEnd (isPacked : Bool) {cs : List Class}
    (h : ∀ c ∈ cs, c.layout.Aligned) (start : ℕ) {c : Class} (hc : c ∈ cs) :
    c.totalSize ≤ classesEnd isPacked start cs := by
  induction cs generalizing start with
  | nil => exact absurd hc List.not_mem_nil
  | cons d cs ih =>
    have hcs : ∀ d ∈ cs, d.layout.Aligned := fun e he => h e (List.mem_cons_of_mem d he)
    rw [classesEnd]
    rcases List.mem_cons.mp hc with rfl | hc
    · have hle := le_classesEnd isPacked hcs
        (roundUp start (if isPacked then 8 else c.layout.bitAlign) + c.totalSize)
      omega
    · exact ih hcs _ hc

/-- The fields follow one another from `start` on and end by `stop`. -/
def Placed : ℕ → List Element → ℕ → Prop
  | start, [], stop => start ≤ stop
  | start, f :: fields, stop =>
    ∃ o : ℕ, f.bitOffset = o ∧ start ≤ o ∧ Placed (o + f.cls.layout.bits) fields stop

theorem Placed.le {start stop : ℕ} {fields : List Element} (h : Placed start fields stop) :
    start ≤ stop := by
  induction fields generalizing start with
  | nil => exact h
  | cons f fields ih =>
    obtain ⟨o, -, hle, hrest⟩ := h
    have := ih hrest
    omega

theorem Placed.mono {start stop stop' : ℕ} {fields : List Element} (h : Placed start fields stop)
    (hs : stop ≤ stop') : Placed start fields stop' := by
  induction fields generalizing start with
  | nil => exact le_trans h hs
  | cons f fields ih =>
    obtain ⟨o, ho, hle, hrest⟩ := h
    exact ⟨o, ho, hle, ih hrest⟩

theorem Placed.inside {start stop : ℕ} {fields : List Element} (h : Placed start fields stop)
    {i : ℕ} {f : Element} (hf : fields[i]? = some f) :
    ∃ o : ℕ, f.bitOffset = o ∧ start ≤ o ∧ o + f.cls.layout.bits ≤ stop := by
  induction fields generalizing start i with
  | nil => cases hf
  | cons g fields ih =>
    obtain ⟨o, ho, hle, hrest⟩ := h
    cases i with
    | zero =>
      cases hf
      exact ⟨o, ho, hle, hrest.le⟩
    | succ i =>
      obtain ⟨o', ho', hle', hstop⟩ := ih hrest hf
      exact ⟨o', ho', by omega, hstop⟩

theorem Placed.ordered {start stop : ℕ} {fields : List Element} (h : Placed start fields stop)
    {i j : ℕ} (hij : i < j) {f g : Element} (hf : fields[i]? = some f)
    (hg : fields[j]? = some g) : f.bitOffset + f.cls.layout.bits ≤ g.bitOffset := by
  induction fields generalizing start i j with
  | nil => cases hf
  | cons e fields ih =>
    obtain ⟨o, ho, -, hrest⟩ := h
    cases j with
    | zero => omega
    | succ j =>
      cases i with
      | zero =>
        cases hf
        obtain ⟨o', ho', hle', -⟩ := hrest.inside hg
        omega
      | succ i => exact ih hrest (by omega) hf hg

theorem asI64_eq {n : ℕ} (h : n < 2 ^ 63) : asI64 n = n := by
  apply Int.bmod_eq_of_le <;> omega

theorem asI64_eq_sub {n : ℕ} (h : 2 ^ 63 ≤ n) (h' : n < 2 ^ 64) :
    asI64 n = (n : ℤ) - 2 ^ 64 := by
  unfold asI64
  rw [Int.bmod_eq_emod]
  split_ifs <;> omega

theorem asI64_nonneg {n : ℕ} (h' : n < 2 ^ 64) (h : 0 ≤ asI64 n) : n < 2 ^ 63 := by
  by_contra hge
  rw [asI64_eq_sub (by omega) h'] at h
  omega

theorem checkI64_some {z z' : ℤ} (h : checkI64 z = some z') :
    z' = z ∧ -2 ^ 63 ≤ z ∧ z < 2 ^ 63 := by
  unfold checkI64 at h
  split_ifs at h with hr
  exact ⟨(Option.some.inj h).symm, hr⟩

theorem checkI64_eq {z : ℤ} (h : -2 ^ 63 ≤ z) (h' : z < 2 ^ 63) : checkI64 z = some z :=
  if_pos ⟨h, h'⟩

namespace TypeMap

variable {tm : TypeMap} {c d : Class} {isPacked : Bool} {cs : List Class}
  {start last : Layout} {before fields : List Element}

/-- The loop over the element types, as long as the sizes stay below `2 ^ 63`. -/
theorem placed_foldlM (hal : ∀ c ∈ cs, c.layout.Aligned)
    (hbits : ∀ c ∈ cs, c.totalSize < 2 ^ 63 → c.layout.bits = c.totalSize)
    (h : cs.foldlM (strucField isPacked) (start, before) = some (last, fields))
    (hend : classesEnd isPacked start.bits cs < 2 ^ 63) :
    last.bits = classesEnd isPacked start.bits cs ∧
      ∃ news, fields = before ++ news ∧ Placed start.bits news last.bits := by
  induction cs generalizing start before with
  | nil =>
    cases h
    exact ⟨rfl, [], (List.append_nil _).symm, le_rfl⟩
  | cons c cs ih =>
    have halcs : ∀ d ∈ cs, d.layout.Aligned := fun d hd => hal d (List.mem_cons_of_mem c hd)
    have halc : Layout.Aligned ⟨0, if isPacked then 8 else c.layout.bitAlign⟩ := by
      split_ifs
      · exact Layout.aligned_eight 0
      · exact Layout.aligned_of_bitAlign_eq (hal c List.mem_cons_self) rfl
    obtain ⟨⟨l, fs⟩, hstep, hrest⟩ := Option.bind_eq_some_iff.mp h
    obtain ⟨offset, hext, rfl⟩ := strucField_some hstep
    obtain ⟨o, ho, hoff, hl, -⟩ := extendU64_some hext
    have hstart := le_classesEnd isPacked hal start.bits
    have hsize := totalSize_le_classesEnd isPacked hal start.bits List.mem_cons_self
    have hlt : start.bits < 2 ^ 63 := by omega
    have hround : o = roundUp start.bits (if isPacked then 8 else c.layout.bitAlign) := by
      rw [ho]
      exact halc.alignTo hlt
    have hc := hbits c List.mem_cons_self (by omega)
    have hnext : l.bits =
        roundUp start.bits (if isPacked then 8 else c.layout.bitAlign) + c.totalSize := by
      rw [hl, hround, hc]
    rw [classesEnd, ← hnext] at hend ⊢
    obtain ⟨hlast, news, hnews, hplaced⟩ :=
      ih halcs (fun d hd => hbits d (List.mem_cons_of_mem c hd)) hrest hend
    have hle := le_classesEnd isPacked halcs l.bits
    refine ⟨hlast, .mk c offset :: news, ?_, o, ?_, ?_, ?_⟩
    · rw [hnews, List.append_assoc]
      rfl
    · show offset = o
      rw [hoff, asI64_eq (by omega)]
    · rw [hround]
      exact le_roundUp halc.pos
    · show Placed (o + c.layout.bits) news last.bits
      rw [← hl]
      exact hplaced

theorem totalSize_vector (t : TypeRef) (n : ℕ) (e : Class) (layout : Layout) :
    (Class.mk (.vectorType t n) (.vector e n) layout).totalSize = e.totalSize * n := rfl

theorem totalSize_array (t : TypeRef) (n : ℕ) (e : Class) (layout : Layout) :
    (Class.mk (.arrayType t n) (.vector e n) layout).totalSize =
      roundUp e.totalSize e.layout.bitAlign * n := rfl

theorem totalSize_struc (ts : List TypeRef) (isPacked : Bool) (fields : List Element)
    (layout : Layout) :
    (Class.mk (.structType ts isPacked) (.struc fields layout) layout).totalSize =
      roundUp (classesEnd isPacked 0 (fields.map Element.cls)) layout.bitAlign := by
  rw [← fieldsEnd_eq]
  rfl

/-- The struct arm, as long as the size stays below `2 ^ 63`. -/
theorem placed_struc (hal : ∀ c ∈ cs, c.layout.Aligned)
    (hbits : ∀ c ∈ cs, c.totalSize < 2 ^ 63 → c.layout.bits = c.totalSize)
    (hf : cs.foldlM (strucField isPacked) (⟨0, 8⟩, []) = some (last, fields))
    {layout : Layout} (hl : last.padToAlign = some layout)
    (hs : roundUp (classesEnd isPacked 0 cs) layout.bitAlign < 2 ^ 63) :
    layout.bits = roundUp (classesEnd isPacked 0 cs) layout.bitAlign ∧
      Placed 0 fields layout.bits := by
  have hlast := aligned_foldlM hal (Layout.aligned_eight 0) hf
  have hpad := Layout.padToAlign_eq hl
  have halign : layout.bitAlign = last.bitAlign := by rw [hpad]
  have hround : classesEnd isPacked 0 cs ≤ roundUp (classesEnd isPacked 0 cs) layout.bitAlign :=
    le_roundUp (by rw [halign]; exact hlast.pos)
  have hend : classesEnd isPacked (Layout.mk 0 8).bits cs < 2 ^ 63 :=
    lt_of_le_of_lt hround hs
  obtain ⟨hend, news, hnews, hplaced⟩ := placed_foldlM hal hbits hf hend
  have hlt : last.bits < 2 ^ 63 := by
    rw [hend]
    exact lt_of_le_of_lt hround hs
  have hbits : layout.bits = roundUp (classesEnd isPacked 0 cs) layout.bitAlign := by
    rw [halign, ← hend, ← hlast.alignTo hlt, hpad]
  rw [List.nil_append] at hnews
  rw [hnews]
  refine ⟨hbits, hplaced.mono ?_⟩
  rw [hbits, hend]
  exact hround

theorem array_bits {e : Class} {n : ℕ} (hal : e.layout.Aligned)
    (hbits : e.totalSize < 2 ^ 63 → e.layout.bits = e.totalSize)
    (hs : roundUp e.totalSize e.layout.bitAlign * n < 2 ^ 63) :
    alignTo e.layout.bits e.layout.bitAlign * n =
      roundUp e.totalSize e.layout.bitAlign * n := by
  rcases Nat.eq_zero_or_pos n with rfl | hn
  · rw [Nat.mul_zero, Nat.mul_zero]
  · have hle := Nat.le_mul_of_pos_right (roundUp e.totalSize e.layout.bitAlign) hn
    have hround : e.totalSize ≤ roundUp e.totalSize _ := le_roundUp hal.pos
    have hlt : e.totalSize < 2 ^ 63 := lt_of_le_of_lt (hround.trans hle) hs
    have heq := hbits hlt
    rw [← heq] at hlt ⊢
    rw [hal.alignTo hlt]

theorem Built.bits_eq (h : tm.Built c) : c.totalSize < 2 ^ 63 → c.layout.bits = c.totalSize := by
  apply Built.induction (P := fun c => c.totalSize < 2 ^ 63 → c.layout.bits = c.totalSize) _ c h
  intro c hc ih hs
  cases hc.made with
  | @vector t n e layout he hl =>
    rw [totalSize_vector] at hs ⊢
    rw [Class.layout, (Layout.repeated_bit hl).2]
    rcases Nat.eq_zero_or_pos n with rfl | hn
    · rfl
    · have hle := Nat.le_mul_of_pos_right e.totalSize hn
      have hbits := ih e List.mem_cons_self (built_of_get he) (lt_of_le_of_lt hle hs)
      exact congrArg (· * n) hbits
  | @array t n e layout he hl =>
    rw [totalSize_array] at hs ⊢
    rw [Class.layout, (Layout.repeated_none hl).2]
    exact array_bits (built_of_get he).aligned (ih e List.mem_cons_self (built_of_get he)) hs
  | @struc ts isPacked classes fields last layout hts hf hl =>
    have hcls : fields.map Element.cls = classes := map_cls_foldlM hf
    rw [totalSize_struc, hcls] at hs ⊢
    have hal : ∀ d ∈ classes, d.layout.Aligned := fun d hd => (built_of_getList hts d hd).aligned
    refine (placed_struc hal (fun d hd => ih d ?_ (built_of_getList hts d hd)) hf hl hs).1
    show d ∈ fields.map Element.cls
    rwa [hcls]
  | _ => rfl

end TypeMap

def Class.count (c : Class) : ℕ :=
  match c.kind with
  | .vector _ len => len
  | .array _ len => len
  | .struc fields _ => fields.length
  | _ => 0

def Class.HasIndex (c : Class) (index : ℤ) : Prop := 0 ≤ index ∧ index < c.count

theorem Class.count_vector {c e : Class} {n : ℕ} (hk : c.kind = .vector e n) : c.count = n := by
  rw [Class.count, hk]

theorem Class.count_struc {c : Class} {fields : List Element} {l : Layout}
    (hk : c.kind = .struc fields l) : c.count = fields.length := by
  rw [Class.count, hk]

theorem Element.eta (e : Element) : .mk e.cls e.bitOffset = e := by
  cases e
  rfl

theorem Class.element_vector {tm : TypeMap} {c e : Class} {n : ℕ} (hk : c.kind = .vector e n)
    (hal : e.layout.Aligned) (index : ℤ) :
    c.element tm index =
      (mulI64 (asI64 e.layout.bits) index).map fun bitOffset => .mk e bitOffset := by
  unfold Class.element
  rw [hk]
  show (if e.layout.bitAlign % 8 = 0 then _ else _) = _
  rw [if_pos hal.dvd]
  cases mulI64 (asI64 e.layout.bits) index with
  | none => rfl
  | some bitOffset => rfl

theorem mul_lt_of_lt {b i n : ℕ} (hi : i < n) : b * i + b ≤ b * n := by
  rw [← Nat.mul_succ]
  exact Nat.mul_le_mul_left b hi

namespace TypeMap

variable {tm : TypeMap} {c e e' : Class} {i j : ℤ} {n o o' : ℕ}

theorem mulI64_natCast {b k : ℕ} (h : b * k < 2 ^ 63) : mulI64 b k = some ((b * k : ℕ) : ℤ) := by
  have hcast : (b : ℤ) * k = ((b * k : ℕ) : ℤ) := (Nat.cast_mul b k).symm
  rw [mulI64, hcast]
  exact checkI64_eq (by omega) (by omega)

theorem mulI64_asI64 {b k : ℕ} (h : b * k < 2 ^ 63) :
    mulI64 (asI64 b) k = some ((b * k : ℕ) : ℤ) := by
  rcases Nat.eq_zero_or_pos k with rfl | hpos
  · rw [Nat.mul_zero, mulI64, Nat.cast_zero, Int.mul_zero]
    rfl
  · rw [asI64_eq (lt_of_le_of_lt (Nat.le_mul_of_pos_right b hpos) h), mulI64_natCast h]

theorem element_vector_eq (hk : c.kind = .vector e n) (hal : e.layout.Aligned) {k : ℕ}
    (hfit : e.layout.bits * k < 2 ^ 63) :
    c.element tm k = some (.mk e ((e.layout.bits * k : ℕ) : ℤ)) := by
  rw [Class.element_vector hk hal, mulI64_asI64 hfit]
  rfl

theorem element_vector_some (hk : c.kind = .vector e n) (he : tm.Built e) {k : ℕ}
    {element : Element} (h : c.element tm k = some element) (hpos : 0 ≤ element.bitOffset) :
    element = .mk e ((e.layout.bits * k : ℕ) : ℤ) ∧ e.layout.bits * k < 2 ^ 63 := by
  rw [Class.element_vector hk he.aligned] at h
  obtain ⟨o, ho, rfl⟩ := Option.map_eq_some_iff.mp h
  obtain ⟨hval, -, hmax⟩ := checkI64_some ho
  rw [Element.bitOffset] at hpos
  rcases Nat.eq_zero_or_pos k with rfl | h0
  · rw [Nat.cast_zero, Int.mul_zero] at hval
    rw [Nat.mul_zero, hval]
    exact ⟨rfl, by decide⟩
  · have hcast : (0 : ℤ) < k := Int.natCast_pos.mpr h0
    have hnonneg : 0 ≤ asI64 e.layout.bits := by
      by_contra hneg
      have := Int.mul_neg_of_neg_of_pos (not_le.mp hneg) hcast
      omega
    rw [asI64_eq (asI64_nonneg he.bits_lt hnonneg), ← Nat.cast_mul] at hval hmax
    rw [hval]
    exact ⟨rfl, by omega⟩

theorem Built.vector_fits (h : tm.Built c) (hs : c.totalSize < 2 ^ 63)
    (hk : c.kind = .vector e n) :
    tm.Built e ∧ (0 < n → e.totalSize < 2 ^ 63) ∧ e.layout.bits * n ≤ c.layout.bits := by
  have hbits := h.bits_eq hs
  cases h.made with
  | @vector t n e layout he hl =>
    cases hk
    rw [totalSize_vector] at hs
    refine ⟨built_of_get he, fun hn => ?_, ?_⟩
    · exact lt_of_le_of_lt (Nat.le_mul_of_pos_right _ hn) hs
    · rw [Class.layout, (Layout.repeated_bit hl).2]
  | @array t n e layout he hl =>
    cases hk
    have hal := (built_of_get he).aligned
    have hround : e.totalSize ≤ roundUp e.totalSize e.layout.bitAlign := le_roundUp hal.pos
    rw [totalSize_array] at hs hbits
    have hsize : 0 < n → e.totalSize < 2 ^ 63 := fun hn =>
      lt_of_le_of_lt (hround.trans (Nat.le_mul_of_pos_right _ hn)) hs
    refine ⟨built_of_get he, hsize, ?_⟩
    rcases Nat.eq_zero_or_pos n with rfl | hn
    · rw [Nat.mul_zero]
      exact Nat.zero_le _
    · rw [hbits, (built_of_get he).bits_eq (hsize hn)]
      exact Nat.mul_le_mul_right n hround
  | _ => cases hk

theorem Built.struc_fits (h : tm.Built c) (hs : c.totalSize < 2 ^ 63) {fields : List Element}
    {l : Layout} (hk : c.kind = .struc fields l) :
    Placed 0 fields c.layout.bits ∧ ∀ f ∈ fields, tm.Built f.cls ∧ f.cls.totalSize < 2 ^ 63 := by
  cases h.made with
  | @struc ts isPacked classes fields last layout hts hf hl =>
    cases hk
    have hcls : fields.map Element.cls = classes := map_cls_foldlM hf
    have hal : ∀ d ∈ classes, d.layout.Aligned := fun d hd => (built_of_getList hts d hd).aligned
    rw [totalSize_struc, hcls] at hs
    obtain ⟨hbits, hplaced⟩ :=
      placed_struc hal (fun d hd => (built_of_getList hts d hd).bits_eq) hf hl hs
    refine ⟨hplaced, fun f hfm => ?_⟩
    have hmem : f.cls ∈ classes := by
      rw [← hcls]
      exact List.mem_map_of_mem hfm
    have hle := totalSize_le_classesEnd isPacked hal 0 hmem
    refine ⟨built_of_getList hts _ hmem, lt_of_le_of_lt (hle.trans ?_) hs⟩
    exact le_roundUp h.aligned.pos
  | _ => cases hk

theorem element_struc {fields : List Element} {l : Layout} (hk : c.kind = .struc fields l)
    (hi : 0 ≤ i) : c.element tm i = fields[i.toNat]? := by
  unfold Class.element
  rw [hk]
  exact if_neg (by omega)

theorem Built.kind_of_hasIndex (h : tm.Built c) (hi : c.HasIndex i) :
    (∃ e n, c.kind = .vector e n) ∨ ∃ fields l, c.kind = .struc fields l := by
  obtain ⟨hpos, hlt⟩ := hi
  cases h.made with
  | vector => exact Or.inl ⟨_, _, rfl⟩
  | array => exact Or.inl ⟨_, _, rfl⟩
  | struc => exact Or.inr ⟨_, _, rfl⟩
  | _ =>
    have hcount : i < ((0 : ℕ) : ℤ) := hlt
    omega

theorem Built.element_eq (h : tm.Built c) (hs : c.totalSize < 2 ^ 63) (hi : c.HasIndex i) :
    ∃ (e : Class) (o : ℕ), c.element tm i = some (.mk e o) ∧ tm.Built e ∧
      e.totalSize < 2 ^ 63 ∧ o + e.layout.bits ≤ c.layout.bits := by
  have hbits := h.bits_eq hs
  have hkind := h.kind_of_hasIndex hi
  obtain ⟨hpos, hlt⟩ := hi
  obtain ⟨k, rfl⟩ := Int.eq_ofNat_of_zero_le hpos
  rcases hkind with ⟨e, n, hk⟩ | ⟨fields, l, hk⟩
  · rw [Class.count_vector hk] at hlt
    obtain ⟨hb, hsize, hfit⟩ := h.vector_fits hs hk
    have hkn : k < n := by omega
    refine ⟨e, e.layout.bits * k, ?_, hb, hsize (by omega), ?_⟩
    · have hlast : e.layout.bits * k + e.layout.bits ≤ e.layout.bits * n := mul_lt_of_lt hkn
      exact element_vector_eq hk hb.aligned (by omega)
    · exact (mul_lt_of_lt hkn).trans hfit
  · rw [Class.count_struc hk] at hlt
    obtain ⟨hplaced, hparts⟩ := h.struc_fits hs hk
    have hkn : k < fields.length := by omega
    have hget : fields[k]? = some fields[k] := List.getElem?_eq_getElem hkn
    obtain ⟨o, ho, -, hle⟩ := hplaced.inside hget
    obtain ⟨hb, hsize⟩ := hparts fields[k] (List.getElem_mem hkn)
    refine ⟨fields[k].cls, o, ?_, hb, hsize, hle⟩
    rw [element_struc hk hpos, Int.toNat_natCast, hget, ← ho, Element.eta]

theorem Built.element_ordered (h : tm.Built c) (hs : c.totalSize < 2 ^ 63) (hi : c.HasIndex i)
    (hj : c.HasIndex j) (hij : i < j) (he : c.element tm i = some (.mk e o))
    (he' : c.element tm j = some (.mk e' o')) : o + e.layout.bits ≤ o' := by
  have hbits := h.bits_eq hs
  have hkind := h.kind_of_hasIndex hi
  obtain ⟨hi, -⟩ := hi
  obtain ⟨hj, hlt⟩ := hj
  obtain ⟨k, rfl⟩ := Int.eq_ofNat_of_zero_le hi
  obtain ⟨m, rfl⟩ := Int.eq_ofNat_of_zero_le hj
  rcases hkind with ⟨d, n, hk⟩ | ⟨fields, l, hk⟩
  · rw [Class.count_vector hk] at hlt
    obtain ⟨hb, -, hfit⟩ := h.vector_fits hs hk
    have hstep : d.layout.bits * k + d.layout.bits ≤ d.layout.bits * m :=
      mul_lt_of_lt (by omega)
    have hlast : d.layout.bits * m + d.layout.bits ≤ d.layout.bits * n :=
      mul_lt_of_lt (by omega)
    rw [element_vector_eq hk hb.aligned (by omega)] at he he'
    injection Option.some.inj he with hd ho
    injection Option.some.inj he' with _ ho'
    rw [← hd]
    omega
  · obtain ⟨hplaced, -⟩ := h.struc_fits hs hk
    rw [element_struc hk hi, Int.toNat_natCast] at he
    rw [element_struc hk hj, Int.toNat_natCast] at he'
    have hord := hplaced.ordered (by omega) he he'
    simp only [Element.bitOffset, Element.cls] at hord
    omega

end TypeMap

/-- Every index of the path names an element of what the path has reached. -/
def Class.HasPath (tm : TypeMap) : Class → List ℤ → Prop
  | _, [] => True
  | c, i :: path => c.HasIndex i ∧ ∀ e, c.element tm i = some e → HasPath tm e.cls path

namespace TypeMap

variable {tm : TypeMap} {c e e' : Class} {i j : ℤ} {n o o' a : ℕ} {p q : List ℤ}

/-- One step along a path, from bit `a` on. -/
theorem Built.elementStep (h : tm.Built c) (hs : c.totalSize < 2 ^ 63) (hi : c.HasIndex i)
    (ha : a + c.layout.bits < 2 ^ 63) :
    ∃ (e : Class) (o : ℕ), c.element tm i = some (.mk e o) ∧
      Class.elementStep tm (.mk c a) i = some (.mk e ((a + o : ℕ) : ℤ)) ∧ tm.Built e ∧
      e.totalSize < 2 ^ 63 ∧ o + e.layout.bits ≤ c.layout.bits := by
  obtain ⟨e, o, hel, hb, hsize, hle⟩ := h.element_eq hs hi
  refine ⟨e, o, hel, ?_, hb, hsize, hle⟩
  have hadd : addI64 a o = some ((a + o : ℕ) : ℤ) := by
    rw [addI64, ← Nat.cast_add]
    exact checkI64_eq (by omega) (by omega)
  exact Option.bind_eq_some_iff.mpr ⟨_, hel, Option.bind_eq_some_iff.mpr ⟨_, hadd, rfl⟩⟩

theorem Built.foldlM_elementStep (h : tm.Built c) (hs : c.totalSize < 2 ^ 63)
    (hp : c.HasPath tm p) (ha : a + c.layout.bits < 2 ^ 63) :
    ∃ (e : Class) (o : ℕ), p.foldlM (Class.elementStep tm) (.mk c a) = some (.mk e o) ∧
      a ≤ o ∧ o + e.layout.bits ≤ a + c.layout.bits := by
  induction p generalizing c a with
  | nil => exact ⟨c, a, rfl, le_rfl, le_rfl⟩
  | cons i p ih =>
    obtain ⟨hi, hrest⟩ := hp
    obtain ⟨d, o, hel, hstep, hb, hsize, hle⟩ := h.elementStep hs hi ha
    obtain ⟨e, o', hfold, hge, hle'⟩ := ih hb hsize (hrest _ hel) (a := a + o) (by omega)
    refine ⟨e, o', ?_, by omega, by omega⟩
    rw [List.foldlM_cons, hstep]
    exact hfold

theorem Built.foldlM_inside (h : tm.Built c) (hs : c.totalSize < 2 ^ 63) (hp : c.HasPath tm p)
    (ha : a + c.layout.bits < 2 ^ 63)
    (he : p.foldlM (Class.elementStep tm) (.mk c a) = some (.mk e o)) :
    a ≤ o ∧ o + e.layout.bits ≤ a + c.layout.bits := by
  obtain ⟨e', o', he', hge, hle⟩ := h.foldlM_elementStep hs hp ha
  rw [he'] at he
  injection Option.some.inj he with hd ho
  rw [← hd]
  omega

theorem Built.foldlM_ordered (h : tm.Built c) (hs : c.totalSize < 2 ^ 63)
    (hp : c.HasPath tm (i :: p)) (hq : c.HasPath tm (j :: q)) (ha : a + c.layout.bits < 2 ^ 63)
    (hij : i < j) (he : (i :: p).foldlM (Class.elementStep tm) (.mk c a) = some (.mk e o))
    (he' : (j :: q).foldlM (Class.elementStep tm) (.mk c a) = some (.mk e' o')) :
    o + e.layout.bits ≤ o' := by
  obtain ⟨hi, hrest⟩ := hp
  obtain ⟨hj, hrest'⟩ := hq
  obtain ⟨d, k, hel, hstep, hb, hsize, hle⟩ := h.elementStep hs hi ha
  obtain ⟨d', k', hel', hstep', hb', hsize', hle'⟩ := h.elementStep hs hj ha
  rw [List.foldlM_cons, hstep] at he
  rw [List.foldlM_cons, hstep'] at he'
  have hlast := hb.foldlM_inside hsize (hrest _ hel) (by omega) he
  have hfirst := hb'.foldlM_inside hsize' (hrest' _ hel') (by omega) he'
  have hord := h.element_ordered hs hi hj hij hel hel'
  omega

theorem Built.foldlM_apart (h : tm.Built c) (hs : c.totalSize < 2 ^ 63) (hp : c.HasPath tm p)
    (hq : c.HasPath tm q) (ha : a + c.layout.bits < 2 ^ 63) (hpq : ¬ p <+: q) (hqp : ¬ q <+: p)
    (he : p.foldlM (Class.elementStep tm) (.mk c a) = some (.mk e o))
    (he' : q.foldlM (Class.elementStep tm) (.mk c a) = some (.mk e' o')) :
    Value.Apart o e.layout.bits o' e'.layout.bits := by
  induction p generalizing c a q with
  | nil => exact absurd List.nil_prefix hpq
  | cons i p ih =>
    cases q with
    | nil => exact absurd List.nil_prefix hqp
    | cons j q =>
      rcases lt_trichotomy i j with hij | rfl | hij
      · exact Or.inl (h.foldlM_ordered hs hp hq ha hij he he')
      · obtain ⟨hi, hrest⟩ := hp
        obtain ⟨-, hrest'⟩ := hq
        obtain ⟨d, k, hel, hstep, hb, hsize, hle⟩ := h.elementStep hs hi ha
        rw [List.foldlM_cons, hstep] at he he'
        rw [List.prefix_cons_inj] at hpq hqp
        exact ih hb hsize (hrest _ hel) (hrest' _ hel) (by omega) hpq hqp he he'
      · exact Or.inr (h.foldlM_ordered hs hq hp ha hij he' he)

end TypeMap

/-- `ExtractValue`, compiled for a class and called on a value. -/
def extractValue (tm : TypeMap) (c : Class) (path : List ℤ) (v : Value) : Option Value := do
  let op ← OperCompiler.compileOperation tm (.extractValue path) [c]
  op.callOperation tm [v]

/-- `InsertValue` of a value of class `d`. -/
def insertValue (tm : TypeMap) (c d : Class) (path : List ℤ) (v x : Value) : Option Value := do
  let op ← OperCompiler.compileOperation tm (.insertValue path) [c, d]
  op.callOperation tm [v, x]

section

variable {tm : TypeMap} {c d e : Class} {o : ℕ} {p q : List ℤ} {v w x r : Value}

theorem compile_extractValue (he : c.elementRec tm p = some (.mk e o)) :
    OperCompiler.compileOperation tm (.extractValue p) [c] = some ⟨.extractValue p, [c], e⟩ := by
  have hout : OperCompiler.output tm (.extractValue p) [c] = some e := by
    show (c.elementRec tm p).bind _ = some e
    rw [he]
    rfl
  rw [OperCompiler.compileOperation, hout]
  rfl

theorem extractValue_eq (he : c.elementRec tm p = some (.mk e o))
    (hle : o + e.layout.bits ≤ v.bits) :
    extractValue tm c p v = some (v.window o e.layout.bits) := by
  rw [extractValue, compile_extractValue he]
  show (c.elementRec tm p).bind _ = _
  rw [he]
  exact Value.extractBits_eq hle

theorem insertValue_eq (he : c.elementRec tm p = some (.mk e o)) :
    insertValue tm c d p v x = v.insertBits o x := by
  show (c.elementRec tm p).bind _ = _
  rw [he]
  rfl

namespace TypeMap

theorem Built.elementRec_eq (h : tm.Built c) (hs : c.totalSize < 2 ^ 63)
    (hp : c.HasPath tm p) :
    ∃ (e : Class) (o : ℕ), c.elementRec tm p = some (.mk e o) ∧
      o + e.layout.bits ≤ c.layout.bits := by
  have hbits := h.bits_eq hs
  obtain ⟨e, o, he, -, hle⟩ := h.foldlM_elementStep hs hp (a := 0) (by omega)
  exact ⟨e, o, he, by omega⟩

theorem Built.elementRec_apart (h : tm.Built c) (hs : c.totalSize < 2 ^ 63)
    (hp : c.HasPath tm p) (hq : c.HasPath tm q) (hpq : ¬ p <+: q) (hqp : ¬ q <+: p)
    {e' : Class} {o' : ℕ} (he : c.elementRec tm p = some (.mk e o))
    (he' : c.elementRec tm q = some (.mk e' o')) :
    Value.Apart o e.layout.bits o' e'.layout.bits := by
  have hbits := h.bits_eq hs
  exact h.foldlM_apart hs hp hq (a := 0) (by omega) hpq hqp he he'

theorem Built.extractValue_insertValue (h : tm.Built c) (hs : c.totalSize < 2 ^ 63)
    (hp : c.HasPath tm p) (hv : v.bits = c.layout.bits)
    (he : c.elementRec tm p = some (.mk e o)) (hx : x.bits = e.layout.bits)
    (hpad : x.ZeroPadded) :
    ∃ r, insertValue tm c d p v x = some r ∧ r.bits = c.layout.bits ∧
      extractValue tm c p r = some x ∧
      ∀ q, c.HasPath tm q → ¬ p <+: q → ¬ q <+: p →
        extractValue tm c q r = extractValue tm c q v := by
  obtain ⟨e₁, o₁, he₁, hle⟩ := h.elementRec_eq hs hp
  rw [he₁] at he
  injection Option.some.inj he with hcls ho
  have hoff : o₁ = o := Int.ofNat.inj ho
  subst hcls hoff
  have hfit : o₁ + x.bits ≤ v.bits := by omega
  obtain ⟨r, hr⟩ : ∃ r, v.insertBits o₁ x = some r := ⟨_, Value.insertBits_eq hfit⟩
  have hrbits := (Value.insertBits_some hr).2.2
  refine ⟨r, ?_, hrbits.trans hv, ?_, ?_⟩
  · rw [insertValue_eq he₁]
    exact hr
  · rw [extractValue_eq he₁ (by omega), ← hx, Value.window_insertBits_self hpad hr]
  · intro q hq hpq hqp
    obtain ⟨e₂, o₂, he₂, hle₂⟩ := h.elementRec_eq hs hq
    have hapart := h.elementRec_apart hs hp hq hpq hqp he₁ he₂
    rw [extractValue_eq he₂ (by omega), extractValue_eq he₂ (by omega)]
    rw [← hx] at hapart
    rw [Value.window_insertBits_apart hr (by omega) hapart]

theorem aggregateOf_eq {vs : List Value} {cls : ℕ → Class} {off : ℕ → ℕ} (k : ℕ)
    (hel : ∀ i, k ≤ i → i < k + vs.length → c.element tm (i : ℤ) = some (.mk (cls i) (off i)))
    (v : Value) :
    (vs.zipIdx k).foldlM (fun result e => do
      let element ← c.element tm e.2
      result.insertBits element.bitOffset e.1) v =
      v.insertAll ((vs.zipIdx k).map fun e => (off e.2, e.1)) := by
  induction vs generalizing k v with
  | nil => rfl
  | cons x vs ih =>
    have he := hel k le_rfl (Nat.lt_add_of_pos_right (Nat.succ_pos _))
    rw [List.zipIdx_cons, List.foldlM_cons, List.map_cons, Value.insertAll, List.foldlM_cons, he]
    show (v.insertBits (off k) x).bind _ = (v.insertBits (off k) x).bind _
    cases v.insertBits (off k) x with
    | none => rfl
    | some w =>
      refine ih (k + 1) (fun i hi hlt => hel i (by omega) ?_) w
      rw [List.length_cons]
      omega

theorem aggregateOf_some {vs : List Value} {k : ℕ} {v r : Value}
    (h : (vs.zipIdx k).foldlM (fun result e => do
      let element ← c.element tm e.2
      result.insertBits element.bitOffset e.1) v = some r) :
    ∀ (i : ℕ) (hi : i < vs.length), ∃ element, c.element tm ((k + i : ℕ) : ℤ) = some element ∧
      0 ≤ element.bitOffset ∧ element.bitOffset.toNat + vs[i].bits ≤ v.bits := by
  induction vs generalizing k v with
  | nil => exact fun i hi => absurd hi (Nat.not_lt_zero i)
  | cons x vs ih =>
    rw [List.zipIdx_cons] at h
    obtain ⟨w, hw, hrest⟩ := Option.bind_eq_some_iff.mp h
    obtain ⟨element, hel, hins⟩ := Option.bind_eq_some_iff.mp hw
    obtain ⟨hpos, hle, hbits⟩ := Value.insertBits_some hins
    intro i hi
    cases i with
    | zero => exact ⟨element, hel, hpos, hle⟩
    | succ i =>
      obtain ⟨element', hel', hpos', hle'⟩ := ih hrest i (Nat.lt_of_succ_lt_succ hi)
      refine ⟨element', ?_, hpos', hbits ▸ hle'⟩
      rw [← hel', Nat.add_assoc, Nat.add_comm 1 i]

theorem aggregateOf_windows {vs : List Value} {cls : ℕ → Class} {off : ℕ → ℕ}
    (hel : ∀ i < vs.length, c.element tm (i : ℤ) = some (.mk (cls i) (off i)))
    (hin : ∀ (i : ℕ) (hi : i < vs.length), off i + vs[i].bits ≤ c.layout.bits)
    (hord : ∀ (i j : ℕ) (hi : i < vs.length), i < j → j < vs.length →
      off i + vs[i].bits ≤ off j) :
    ∃ r, Value.aggregateOf tm c vs = some r ∧ r.bits = c.layout.bits ∧
      (∀ (i : ℕ) (hi : i < vs.length), vs[i].ZeroPadded →
        r.window (off i) vs[i].bits = vs[i]) ∧
      ∀ o len, o + len ≤ c.layout.bits →
        (∀ (i : ℕ) (hi : i < vs.length), Value.Apart (off i) vs[i].bits o len) →
        r.window o len = (Value.zero c.layout.bits).window o len := by
  have hlen : (vs.zipIdx.map fun e => (off e.2, e.1)).length = vs.length := by simp
  have hget : ∀ (i : ℕ) (hi : i < vs.length)
      (hi' : i < (vs.zipIdx.map fun e => (off e.2, e.1)).length),
      (vs.zipIdx.map fun e => (off e.2, e.1))[i] = (off i, vs[i]) := by
    intro i hi hi'
    simp
  have hfit : ∀ f ∈ vs.zipIdx.map fun e => (off e.2, e.1),
      f.1 + f.2.bits ≤ (Value.zero c.layout.bits).bits := by
    intro f hf
    obtain ⟨i, hi, rfl⟩ := List.mem_iff_getElem.mp hf
    rw [hget i (hlen ▸ hi) hi]
    exact hin i (hlen ▸ hi)
  have hapart : (vs.zipIdx.map fun e => (off e.2, e.1)).Pairwise
      fun f g => Value.Apart f.1 f.2.bits g.1 g.2.bits := by
    rw [List.pairwise_iff_getElem]
    intro i j hi hj hij
    rw [hget i (hlen ▸ hi) hi, hget j (hlen ▸ hj) hj]
    exact Or.inl (hord i j (hlen ▸ hi) hij (hlen ▸ hj))
  obtain ⟨r, hr, hrbits⟩ := Value.insertAll_eq_some hfit
  refine ⟨r, ?_, hrbits, fun i hi hpad => ?_, fun o len hle ha => ?_⟩
  · rw [← hr]
    exact aggregateOf_eq 0 (fun i _ hi => hel i (by omega)) _
  · have hmem : (off i, vs[i]) ∈ vs.zipIdx.map fun e => (off e.2, e.1) := by
      rw [← hget i hi (hlen.symm ▸ hi)]
      exact List.getElem_mem _
    exact Value.window_insertAll hr hfit hapart _ hmem hpad
  · apply Value.window_insertAll_apart hr hle
    intro f hf
    obtain ⟨i, hi, rfl⟩ := List.mem_iff_getElem.mp hf
    rw [hget i (hlen ▸ hi) hi]
    exact ha i (hlen ▸ hi)

theorem Built.elementRec_singleton (h : tm.Built c) (hs : c.totalSize < 2 ^ 63) {i : ℤ}
    (hi : c.HasIndex i) :
    ∃ (e : Class) (o : ℕ), c.element tm i = some (.mk e o) ∧
      c.elementRec tm [i] = some (.mk e o) ∧ o + e.layout.bits ≤ c.layout.bits := by
  have hbits := h.bits_eq hs
  obtain ⟨e, o, he, hstep, -, -, hle⟩ := h.elementStep hs hi (a := 0) (by omega)
  rw [Nat.zero_add] at hstep
  refine ⟨e, o, he, ?_, hle⟩
  exact Option.bind_eq_some_iff.mpr ⟨_, hstep, rfl⟩

theorem Built.extractValue_aggregateOf (h : tm.Built c) (hs : c.totalSize < 2 ^ 63)
    {vs : List Value} (hvs : ∀ (i : ℕ) (hi : i < vs.length), c.HasIndex i ∧
      ∀ e, c.element tm i = some e → vs[i].bits = e.cls.layout.bits ∧ vs[i].ZeroPadded) :
    ∃ r, Value.aggregateOf tm c vs = some r ∧
      ∀ (i : ℕ) (hi : i < vs.length), extractValue tm c [(i : ℤ)] r = some vs[i] := by
  have hspec : ∀ i : ℕ, ∃ (e : Class) (o : ℕ), ∀ hi : i < vs.length,
      c.element tm i = some (.mk e o) ∧ c.elementRec tm [(i : ℤ)] = some (.mk e o) ∧
      vs[i].bits = e.layout.bits ∧ o + e.layout.bits ≤ c.layout.bits := by
    intro i
    by_cases hi : i < vs.length
    · obtain ⟨e, o, he, hrec, hle⟩ := h.elementRec_singleton hs (hvs i hi).1
      exact ⟨e, o, fun _ => ⟨he, hrec, ((hvs i hi).2 _ he).1, hle⟩⟩
    · exact ⟨c, 0, fun hi' => absurd hi' hi⟩
  choose cls off hspec using hspec
  obtain ⟨r, hr, hrbits, hread, -⟩ := aggregateOf_windows (fun i hi => (hspec i hi).1)
    (fun i hi => by
      rw [(hspec i hi).2.2.1]
      exact (hspec i hi).2.2.2)
    (fun i j hi hij hj => by
      rw [(hspec i hi).2.2.1]
      exact h.element_ordered hs (hvs i hi).1 (hvs j hj).1 (Int.ofNat_lt.mpr hij)
        (hspec i hi).1 (hspec j hj).1)
  refine ⟨r, hr, fun i hi => ?_⟩
  obtain ⟨he, hrec, hbits, hle⟩ := hspec i hi
  have hwindow := hread i hi ((hvs i hi).2 _ he).2
  rw [extractValue_eq hrec (hrbits ▸ hle), ← hbits, hwindow]

/-- Paths into a class of less than `2 ^ 63` bits end in extents inside it, and paths that
part ways end apart. So a value written along a path can be read back and leaves what other
paths reach alone, and an aggregate holds the values it was made from. -/
theorem Built.paths_separate (h : tm.Built c) (hs : c.totalSize < 2 ^ 63) :
    (∀ p, c.HasPath tm p → ∃ (e : Class) (o : ℕ), c.elementRec tm p = some (.mk e o) ∧
      o + e.layout.bits ≤ c.layout.bits) ∧
    (∀ p q, c.HasPath tm p → c.HasPath tm q → ¬ p <+: q → ¬ q <+: p →
      ∀ (e e' : Class) (o o' : ℕ), c.elementRec tm p = some (.mk e o) →
        c.elementRec tm q = some (.mk e' o') →
        o + e.layout.bits ≤ o' ∨ o' + e'.layout.bits ≤ o) ∧
    (∀ p, c.HasPath tm p → ∀ (d : Class) (v x : Value) (e : Element), v.bits = c.layout.bits →
      c.elementRec tm p = some e → x.bits = e.cls.layout.bits → x.ZeroPadded →
      ∃ r, insertValue tm c d p v x = some r ∧ extractValue tm c p r = some x ∧
        ∀ q, c.HasPath tm q → ¬ p <+: q → ¬ q <+: p →
          extractValue tm c q r = extractValue tm c q v) ∧
    (∀ vs : List Value, (∀ (i : ℕ) (hi : i < vs.length), c.HasIndex i ∧
        ∀ e, c.element tm i = some e → vs[i].bits = e.cls.layout.bits ∧ vs[i].ZeroPadded) →
      ∃ r, Value.aggregateOf tm c vs = some r ∧
        ∀ (i : ℕ) (hi : i < vs.length), extractValue tm c [(i : ℤ)] r = some vs[i]) := by
  refine ⟨fun p hp => h.elementRec_eq hs hp, ?_, ?_, fun vs hvs =>
    h.extractValue_aggregateOf hs hvs⟩
  · intro p q hp hq hpq hqp e e' o o' he he'
    exact h.elementRec_apart hs hp hq hpq hqp he he'
  · intro p hp d v x el hv hel hx hpad
    obtain ⟨e, o, he, -⟩ := h.elementRec_eq hs hp
    rw [he] at hel
    cases hel
    obtain ⟨r, hr, -, hread, hframe⟩ := h.extractValue_insertValue (d := d) hs hp hv he hx hpad
    exact ⟨r, hr, hread, hframe⟩

/-- The fields of the packed struct of three bits and a byte. -/
theorem Built.paths_separate_packed :
    ∃ c, (TypeMap.mk []).get
        (.structType [.vectorType (.integerType 1) 3, .integerType 8] true) = some c ∧
      c.totalSize < 2 ^ 63 ∧
      ∃ (e e' : Class) (o o' : ℕ), c.elementRec ⟨[]⟩ [0] = some (.mk e o) ∧
        c.elementRec ⟨[]⟩ [1] = some (.mk e' o') ∧
        (o + e.layout.bits ≤ o' ∨ o' + e'.layout.bits ≤ o) := by
  have hsome : (((TypeMap.mk []).get
      (.structType [.vectorType (.integerType 1) 3, .integerType 8] true)).map fun c =>
        (c.totalSize, c.count)) = some (16, 2) := by decide
  obtain ⟨c, hc, hval⟩ := Option.map_eq_some_iff.mp hsome
  injection hval with hsize hcount
  have hs : c.totalSize < 2 ^ 63 := by omega
  have hsep := (built_of_get hc).paths_separate hs
  have hpath : ∀ i : ℤ, 0 ≤ i → i < 2 → c.HasPath ⟨[]⟩ [i] := by
    intro i h0 h2
    refine ⟨⟨h0, ?_⟩, fun _ _ => trivial⟩
    rw [hcount]
    exact h2
  have hp := hpath 0 (by decide) (by decide)
  have hq := hpath 1 (by decide) (by decide)
  obtain ⟨e, o, he, -⟩ := hsep.1 [0] hp
  obtain ⟨e', o', he', -⟩ := hsep.1 [1] hq
  refine ⟨c, hc, hs, e, e', o, o', he, he', ?_⟩
  exact hsep.2.1 [0] [1] hp hq (by decide) (by decide) e e' o o' he he'

end TypeMap
end
end AtomicSim
