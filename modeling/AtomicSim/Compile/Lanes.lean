import AtomicSim.Compile.Widths

namespace AtomicSim

variable {tm : TypeMap} {c e : Class} {n m k : ℕ} {v x z r r' : Value} {f : ℕ → Option Value}

theorem extract_lane (hk : c.kind = .vector e n) (he : tm.Built e)
    (hfit : e.layout.bits * k < 2 ^ 63) (hle : e.layout.bits * k + e.layout.bits ≤ v.bits) :
    v.extract tm c k = some (v.window (e.layout.bits * k) e.layout.bits) := by
  rw [Value.extract, TypeMap.element_vector_eq hk he.aligned hfit]
  exact Value.extractBits_eq hle

theorem lt_of_extract_lane (hk : c.kind = .vector e n) (he : tm.Built e)
    (h : v.extract tm c k = some x) : e.layout.bits * k < 2 ^ 63 := by
  obtain ⟨element, hel, h⟩ := Option.bind_eq_some_iff.mp h
  apply (TypeMap.element_vector_some hk he hel _).2
  by_contra hneg
  rw [Value.extractBits, if_pos (by omega)] at h
  cases h

theorem insert_lane (hk : c.kind = .vector e n) (he : tm.Built e)
    (hfit : e.layout.bits * k < 2 ^ 63) (hz : z.bits = e.layout.bits) :
    v.insert tm c k z = v.insertBits ((e.layout.bits * k : ℕ) : ℤ) z := by
  rw [Value.insert, TypeMap.element_vector_eq hk he.aligned hfit]
  exact if_pos hz.symm

theorem insert_lane_some (hk : c.kind = .vector e n) (he : tm.Built e)
    (h : v.insert tm c k z = some r) :
    z.bits = e.layout.bits ∧ e.layout.bits * k < 2 ^ 63 ∧
      v.insertBits ((e.layout.bits * k : ℕ) : ℤ) z = some r := by
  obtain ⟨element, hel, h⟩ := Option.bind_eq_some_iff.mp h
  split_ifs at h with hbits
  obtain ⟨heq, hfit⟩ := TypeMap.element_vector_some hk he hel (Value.insertBits_some h).1
  rw [heq] at h hbits
  exact ⟨hbits.symm, hfit, h⟩

def fillLanes (tm : TypeMap) (out : Class) (f : ℕ → Option Value) (m : ℕ) : Option Value :=
  (List.range m).foldlM (fun r i => (f i).bind fun z => r.insert tm out i z)
    (Value.zero out.layout.bits)

theorem fillLanes_succ (out : Class) (f : ℕ → Option Value) (m : ℕ) :
    fillLanes tm out f (m + 1) =
      (fillLanes tm out f m).bind fun r => (f m).bind fun z => r.insert tm out m z := by
  simp [fillLanes, List.range_succ, List.foldlM_append]

/-- The value of a lane has a place in the result. -/
def LaneFits (e : Class) (bits : ℕ) (f : ℕ → Option Value) (i : ℕ) : Prop :=
  ∃ z, f i = some z ∧ z.bits = e.layout.bits ∧ e.layout.bits * i < 2 ^ 63 ∧
    e.layout.bits * i + e.layout.bits ≤ bits

theorem fillLanes_some (hk : c.kind = .vector e n) (he : tm.Built e)
    (h : fillLanes tm c f m = some r) :
    r.bits = c.layout.bits ∧ ∀ i < m, LaneFits e c.layout.bits f i ∧
      ∀ z, f i = some z → z.ZeroPadded → r.window (e.layout.bits * i) e.layout.bits = z := by
  induction m generalizing r with
  | zero =>
    cases h
    exact ⟨rfl, fun i hi => absurd hi (Nat.not_lt_zero i)⟩
  | succ m ih =>
    rw [fillLanes_succ] at h
    obtain ⟨w, hw, h⟩ := Option.bind_eq_some_iff.mp h
    obtain ⟨z, hz, h⟩ := Option.bind_eq_some_iff.mp h
    obtain ⟨hbits, hlanes⟩ := ih hw
    obtain ⟨hwidth, hfit, hins⟩ := insert_lane_some hk he h
    obtain ⟨-, hle, hrbits⟩ := Value.insertBits_some hins
    rw [Int.toNat_natCast, hwidth, hbits] at hle
    refine ⟨hrbits.trans hbits, fun i hi => ?_⟩
    rcases Nat.lt_succ_iff_lt_or_eq.mp hi with hlt | rfl
    · obtain ⟨hl, hread⟩ := hlanes i hlt
      refine ⟨hl, fun y hy hpad => ?_⟩
      obtain ⟨y', hy', hywidth, -, hyle⟩ := hl
      have hstep : e.layout.bits * i + e.layout.bits ≤ e.layout.bits * m := mul_lt_of_lt hlt
      rw [← hread y hy hpad]
      exact Value.window_insertBits_apart hins (by omega) (Or.inr hstep)
    · refine ⟨⟨z, hz, hwidth, hfit, hle⟩, fun y hy hpad => ?_⟩
      rw [hz] at hy
      rw [← Option.some.inj hy] at hpad ⊢
      rw [← hwidth]
      exact Value.window_insertBits_self hpad (hwidth ▸ hins)

theorem fillLanes_of_fits (hk : c.kind = .vector e n) (he : tm.Built e)
    (h : ∀ i < m, LaneFits e c.layout.bits f i) : ∃ r, fillLanes tm c f m = some r := by
  induction m with
  | zero => exact ⟨_, rfl⟩
  | succ m ih =>
    obtain ⟨w, hw⟩ := ih fun i hi => h i (Nat.lt_succ_of_lt hi)
    obtain ⟨z, hz, hwidth, hfit, hle⟩ := h m (Nat.lt_succ_self m)
    have hbits := (fillLanes_some hk he hw).1
    have hin : e.layout.bits * m + z.bits ≤ w.bits := by omega
    obtain ⟨r, hr⟩ : ∃ r, w.insertBits ((e.layout.bits * m : ℕ) : ℤ) z = some r :=
      ⟨_, Value.insertBits_eq hin⟩
    refine ⟨r, ?_⟩
    rw [fillLanes_succ, hw, Option.bind_some, hz, Option.bind_some, insert_lane hk he hfit hwidth,
      hr]

namespace COperation

/-- What the scalar operation gives on lane `i`. -/
def scalarLane (tm : TypeMap) (op : COperation) (inputs : List Value) (i : ℕ) : Option Value :=
  (op.lanes tm inputs i).bind (callScalar op.name)

variable {op : COperation} {inputs : List Value}

theorem callSimple_vector (hk : op.output.kind = .vector e n) (hn : n < 2 ^ 63) :
    op.callSimple tm inputs = fillLanes tm op.output (op.scalarLane tm inputs) n := by
  have hstep : op.callLane tm inputs =
      fun r i => (op.scalarLane tm inputs i).bind fun z => r.insert tm op.output i z := by
    funext r i
    rw [scalarLane, Option.bind_assoc]
    rfl
  rw [callSimple, hk, fillLanes, ← hstep]
  simp only [asI64_eq hn, Int.toNat_natCast]

theorem lanes_pair {name : Name} {out : Class} {v₁ v₂ : Value} (i : ℤ) :
    lanes tm ⟨name, [c, c], out⟩ [v₁, v₂] i =
      (v₁.extract tm c i).bind fun x => (v₂.extract tm c i).bind fun y => some [x, y] := by
  rw [lanes, List.zip_cons_cons, List.zip_cons_cons, List.zip_nil_right, List.mapM_cons,
    List.mapM_cons, List.mapM_nil]
  simp only [Option.bind_eq_bind, Option.bind_assoc, Option.pure_def, Option.bind_some]

/-- The names with one scalar meaning for each pair of lanes. -/
def Name.IsLanewise : Name → Prop
  | .binop _ => True
  | .iCmp _ => True
  | _ => False

def Name.laneBits (width : ℕ) : Name → ℕ
  | .iCmp _ => 1
  | _ => width

theorem isSimple_of_isLanewise {name : Name} (h : name.IsLanewise) : name.IsSimple := by
  cases name with
  | binop | iCmp => trivial
  | _ => cases h

theorem exact_callScalar {name : Name} (h : name.IsLanewise) {y : Value} (hxy : y.bits = x.bits)
    (hy : y.ZeroPadded) (hz : callScalar name [x, y] = some z) :
    Exact (name.laneBits x.bits) z := by
  cases name with
  | binop name => exact ⟨bits_callScalarBinop hxy hz, zeroPadded_callScalarBinop hy hz⟩
  | iCmp predicate => exact exact_callScalarICmp hz
  | _ => cases h

theorem vector_of_get {t : TypeRef} (h : tm.get (.vectorType t n) = some c) :
    ∃ e, tm.get t = some e ∧ c.kind = .vector e n ∧ c.layout.bits = e.layout.bits * n ∧
      e.layout.bits * n < 2 ^ 64 := by
  obtain ⟨e, he, hc⟩ := Option.bind_eq_some_iff.mp h
  obtain ⟨-, hk, hl⟩ := TypeMap.typ_vectorClass hc
  obtain ⟨hlt, hlayout⟩ := Layout.repeated_bit hl
  exact ⟨e, he, hk, congrArg Layout.bits hlayout, hlt⟩

theorem get_vector_of_lt {t : TypeRef} (he : tm.get t = some e)
    (hlt : e.layout.bits * n < 2 ^ 64) :
    ∃ c, tm.get (.vectorType t n) = some c := by
  have hrep : e.layout.repeated .bit n = some ⟨e.layout.bits * n, 8⟩ := by
    rw [Layout.repeated, mulU64, if_pos hlt]
    rfl
  refine ⟨.mk (.vectorType t n) (.vector e n) ⟨e.layout.bits * n, 8⟩, ?_⟩
  rw [TypeMap.get_vectorType, he, Option.bind_some, TypeMap.vectorClass, hrep]
  rfl

theorem bits_integer {w : UInt32} (h : tm.get (.integerType w) = some e) :
    e.layout.bits = w.toNat := by
  obtain ⟨l, hl, he⟩ := Option.bind_eq_some_iff.mp h
  cases he
  exact (Layout.ofInt_eq hl w.toNat_lt.le).1

theorem compile_lanewise {w : UInt32} {name : Name}
    (hc : tm.get (.vectorType (.integerType w) n) = some c) (hn : n < 2 ^ 63)
    (hname : name.IsLanewise) :
    ∃ out e, OperCompiler.compileOperation tm name [c, c] = some ⟨name, [c, c], out⟩ ∧
      out.kind = .vector e n ∧ tm.Built e ∧ e.layout.bits = name.laneBits w.toNat ∧
      out.layout.bits = name.laneBits w.toNat * n := by
  obtain ⟨e, he, hk, hbits, hlt⟩ := vector_of_get hc
  have hw := bits_integer he
  cases name with
  | binop name =>
    refine ⟨c, e, ?_, hk, TypeMap.built_of_get he, hw, hw ▸ hbits⟩
    have hall : OperCompiler.output tm (.binop name) [c, c] = some c :=
      if_pos (List.all_eq_true.mpr fun d hd => by
        rw [List.mem_singleton.mp hd]
        exact beq_self_eq_true _)
    rw [OperCompiler.compileOperation, hall]
    rfl
  | iCmp predicate =>
    obtain ⟨b, hb⟩ : ∃ b, tm.bool = some b := ⟨_, rfl⟩
    have hone := bits_bool hb
    have htyp : b.typ = .integerType (UInt32.ofNat 1) := TypeMap.typ_get hb
    have hlt : b.layout.bits * n < 2 ^ 64 := by
      rw [hone, Nat.one_mul]
      omega
    obtain ⟨out, hout⟩ := get_vector_of_lt hb hlt
    obtain ⟨b', hb', hk', hbits', -⟩ := vector_of_get hout
    have hbb : b' = b := Option.some.inj (hb'.symm.trans hb)
    rw [hbb] at hk' hbits'
    refine ⟨out, b, ?_, hk', TypeMap.built_of_get hb, hone, by rw [hbits', hone]; rfl⟩
    have htarget : OperCompiler.targetOf tm c b = some out := by
      rw [OperCompiler.targetOf, hk]
      show tm.get (.vectorType b.typ n) = some out
      rw [htyp]
      exact hout
    have hcmp : OperCompiler.output tm (.iCmp predicate) [c, c] = some out := by
      calc OperCompiler.output tm (.iCmp predicate) [c, c]
          = tm.bool.bind (OperCompiler.targetOf tm c) := rfl
        _ = some out := Option.bind_eq_some_iff.mpr ⟨b, hb, htarget⟩
    rw [OperCompiler.compileOperation, hcmp]
    rfl
  | _ => cases hname

theorem scalarLane_pair {name : Name} {out : Class} {v₁ v₂ z : Value} (i : ℕ) :
    scalarLane tm ⟨name, [c, c], out⟩ [v₁, v₂] i = some z ↔
      ∃ x y, v₁.extract tm c i = some x ∧ v₂.extract tm c i = some y ∧
        callScalar name [x, y] = some z := by
  rw [scalarLane, lanes_pair]
  simp only [Option.bind_eq_some_iff, Option.some.injEq]
  constructor
  · rintro ⟨l, ⟨x, hx, y, hy, rfl⟩, hz⟩
    exact ⟨x, y, hx, hy, hz⟩
  · rintro ⟨x, y, hx, hy, hz⟩
    exact ⟨[x, y], ⟨x, hx, y, hy, rfl⟩, hz⟩

theorem exact_lane {w : UInt32} {name : Name} {d : Class} {v₁ v₂ x y z : Value} {i : ℕ}
    (hk : c.kind = .vector d n) (hd : tm.get (.integerType w) = some d) (hname : name.IsLanewise)
    (hv₁ : d.layout.bits * i + d.layout.bits ≤ v₁.bits)
    (hv₂ : d.layout.bits * i + d.layout.bits ≤ v₂.bits)
    (hx : v₁.extract tm c i = some x) (hy : v₂.extract tm c i = some y)
    (hz : callScalar name [x, y] = some z) : Exact (name.laneBits w.toNat) z := by
  have hbd := TypeMap.built_of_get hd
  have hfit := lt_of_extract_lane hk hbd hx
  rw [extract_lane hk hbd hfit hv₁] at hx
  rw [extract_lane hk hbd hfit hv₂] at hy
  cases hx
  cases hy
  have hexact := exact_callScalar hname (Value.bits_window _ _ _)
    (Value.zeroPadded_window _ _ _) hz
  rwa [Value.bits_window, bits_integer hd] at hexact

/-- Integer operations and comparisons act on each lane by itself: the operation returns
exactly when the scalar operation returns on every pair of lanes, and each lane of the result
is then what the scalar operation gives on the lanes of the operands. The lanes lie side by
side, for a comparison at the bits `0` to `n - 1`. The index of a lane is an `i64`. -/
theorem callOperation_lanewise {w : UInt32} {name : Name} {v₁ v₂ : Value}
    (hc : tm.get (.vectorType (.integerType w) n) = some c) (hn : n < 2 ^ 63)
    (hname : name.IsLanewise) (hv₁ : v₁.bits = c.layout.bits) (hv₂ : v₂.bits = c.layout.bits) :
    ∃ op, OperCompiler.compileOperation tm name [c, c] = some op ∧
      ((op.callOperation tm [v₁, v₂]).isSome ↔ ∀ i < n, ∃ x y z,
        v₁.extract tm c i = some x ∧ v₂.extract tm c i = some y ∧
          callScalar name [x, y] = some z) ∧
      ∀ r, op.callOperation tm [v₁, v₂] = some r →
        r.bits = name.laneBits w.toNat * n ∧ ∀ i < n, ∃ x y z,
          v₁.extract tm c i = some x ∧ v₂.extract tm c i = some y ∧
          callScalar name [x, y] = some z ∧ r.extract tm op.output i = some z ∧
          r.window (name.laneBits w.toNat * i) (name.laneBits w.toNat) = z := by
  obtain ⟨out, e, hop, hk, he, hebits, hobits⟩ := compile_lanewise hc hn hname
  obtain ⟨d, hd, hkc, hcbits, hlt⟩ := vector_of_get hc
  have hbd := TypeMap.built_of_get hd
  have hw := bits_integer hd
  have hcall : callOperation tm ⟨name, [c, c], out⟩ [v₁, v₂] =
      fillLanes tm out (scalarLane tm ⟨name, [c, c], out⟩ [v₁, v₂]) n := by
    rw [callOperation_simple (isSimple_of_isLanewise hname)]
    exact callSimple_vector hk hn
  have hin : ∀ i < n, d.layout.bits * i + d.layout.bits ≤ c.layout.bits := fun i hi => by
    rw [hcbits]
    exact mul_lt_of_lt hi
  -- what the scalar operation gives is as wide as a lane of the result
  have hlane : ∀ i < n, ∀ x y z, v₁.extract tm c i = some x → v₂.extract tm c i = some y →
      callScalar name [x, y] = some z → Exact (name.laneBits w.toNat) z := fun i hi x y z =>
    exact_lane hkc hd hname ((hin i hi).trans_eq hv₁.symm) ((hin i hi).trans_eq hv₂.symm)
  have hone : ∀ i < n, name.laneBits w.toNat * i + name.laneBits w.toNat ≤ out.layout.bits := by
    intro i hi
    rw [hobits]
    exact mul_lt_of_lt hi
  refine ⟨_, hop, ⟨fun hsome => ?_, fun h => ?_⟩, fun r hr => ?_⟩
  · obtain ⟨r, hr⟩ := Option.isSome_iff_exists.mp hsome
    rw [hcall] at hr
    intro i hi
    obtain ⟨⟨z, hz, -⟩, -⟩ := (fillLanes_some hk he hr).2 i hi
    obtain ⟨x, y, hx, hy, hxy⟩ := (scalarLane_pair i).mp hz
    exact ⟨x, y, z, hx, hy, hxy⟩
  · rw [hcall]
    apply Option.isSome_iff_exists.mpr
    apply fillLanes_of_fits hk he
    intro i hi
    obtain ⟨x, y, z, hx, hy, hz⟩ := h i hi
    have hexact := hlane i hi x y z hx hy hz
    have hfit := lt_of_extract_lane hkc hbd hx
    rw [hw] at hfit
    refine ⟨z, (scalarLane_pair i).mpr ⟨x, y, hx, hy, hz⟩, hexact.1.trans hebits.symm, ?_, ?_⟩
    · rw [hebits]
      cases name with
      | binop name => exact hfit
      | iCmp predicate =>
        show 1 * i < 2 ^ 63
        omega
      | _ => cases hname
    · rw [hebits]
      exact hone i hi
  · rw [hcall] at hr
    obtain ⟨hrbits, hlanes⟩ := fillLanes_some hk he hr
    refine ⟨hrbits.trans hobits, fun i hi => ?_⟩
    obtain ⟨⟨z, hz, -, hfit, hle⟩, hread⟩ := hlanes i hi
    obtain ⟨x, y, hx, hy, hxy⟩ := (scalarLane_pair i).mp hz
    have hwin := hread z hz (hlane i hi x y z hx hy hxy).2
    refine ⟨x, y, z, hx, hy, hxy, ?_, ?_⟩
    · rw [extract_lane hk he hfit (by rw [hrbits]; exact hle), hwin]
    · rw [← hebits]
      exact hwin

/-- A comparison of two vectors of three bytes. -/
theorem callOperation_lanewise_three :
    ∃ c op r, (TypeMap.mk []).get (.vectorType (.integerType 8) 3) = some c ∧
      OperCompiler.compileOperation ⟨[]⟩ (.iCmp .ult) [c, c] = some op ∧
      op.callOperation ⟨[]⟩ [.new 24 0x010203, .new 24 0x020202] = some r ∧
      r.bits = 3 ∧ ∀ i < 3, ∃ x y z, (Value.new 24 0x010203).extract ⟨[]⟩ c (i : ℕ) = some x ∧
        (Value.new 24 0x020202).extract ⟨[]⟩ c i = some y ∧
        callScalar (.iCmp .ult) [x, y] = some z ∧ r.window i 1 = z := by
  have hsome : (((TypeMap.mk []).get (.vectorType (.integerType 8) 3)).bind fun c =>
      (OperCompiler.compileOperation ⟨[]⟩ (.iCmp .ult) [c, c]).bind fun op =>
        (op.callOperation ⟨[]⟩ [.new 24 0x010203, .new 24 0x020202]).map fun _ =>
          c.layout.bits) = some 24 := by decide +kernel
  obtain ⟨c, hc, hrest⟩ := Option.bind_eq_some_iff.mp hsome
  obtain ⟨op, hop, hrest⟩ := Option.bind_eq_some_iff.mp hrest
  obtain ⟨r, hr, hbits⟩ := Option.map_eq_some_iff.mp hrest
  have hname : (Name.iCmp .ult).IsLanewise := trivial
  have hfirst : (Value.new 24 0x010203).bits = c.layout.bits := hbits.symm
  have hsecond : (Value.new 24 0x020202).bits = c.layout.bits := hbits.symm
  obtain ⟨op', hop', -, hlanes⟩ :=
    callOperation_lanewise hc (by decide) hname hfirst hsecond
  rw [hop] at hop'
  cases hop'
  obtain ⟨hrbits, hlane⟩ := hlanes r hr
  refine ⟨c, op, r, hc, hop, hr, hrbits, fun i hi => ?_⟩
  obtain ⟨x, y, z, hx, hy, hz, -, hwin⟩ := hlane i hi
  refine ⟨x, y, z, hx, hy, hz, ?_⟩
  rw [← Nat.one_mul i]
  exact hwin

theorem lane_single {name : Name} {out : Class} (i : ℤ) :
    (lanes tm ⟨name, [c], out⟩ [v] i).bind (callScalar name) =
      (v.extract tm c i).bind fun x => callScalar name [x] := by
  rw [lanes, List.zip_cons_cons, List.zip_nil_right, List.mapM_cons, List.mapM_nil]
  simp only [Option.bind_eq_bind, Option.bind_assoc, Option.pure_def, Option.bind_some]

/-- The widths between which a scalar cast is implemented. -/
def CastSupported (a b : ℕ) : CCastName → Prop
  | .zExt => True
  | .trunc => True
  | .sExt => a = b ∨ (a, b) ∈ [(8, 16), (8, 32), (8, 64), (16, 32), (16, 64), (32, 64)]
  | _ => False

theorem callScalar_cast {name : CCastName} (h : CastSupported x.bits e.layout.bits name) :
    ∃ z, callScalar (.cast name e) [x] = some z ∧ z.bits = e.layout.bits ∧
      (x.ZeroPadded → z.ZeroPadded) := by
  cases name with
  | zExt | trunc =>
    exact ⟨_, rfl, (exact_ucast x e.layout).1, fun _ => (exact_ucast x e.layout).2⟩
  | sExt =>
    obtain ⟨z, hz⟩ : ∃ z, callScalarSext x e.layout.bits = some z := by
      by_cases heq : x.bits = e.layout.bits
      · exact ⟨x, if_pos heq⟩
      · have hmem := h.resolve_left heq
        rw [callScalarSext, if_neg heq, if_pos hmem, Value.unwrapSigned, Value.unwrapInt,
          if_pos rfl]
        exact ⟨_, rfl⟩
    exact ⟨z, hz, (callScalarSext_some hz).1, (callScalarSext_some hz).2⟩
  | _ => cases h

theorem callScalar_cast_congr {name : CCastName} (h : c.layout.bits = e.layout.bits) :
    callScalar (.cast name c) [x] = callScalar (.cast name e) [x] := by
  cases name with
  | sExt =>
    show callScalarSext x c.layout.bits = callScalarSext x e.layout.bits
    rw [h]
  | zExt | trunc =>
    show some (x.ucast c.layout) = some (x.ucast e.layout)
    rw [Value.ucast, h]
    rfl
  | _ => rfl

/-- A cast of a vector `v` of class `c` to `to_type` returns a value as wide as the class of
`to_type`, whose lanes are the scalar casts of the lanes of `v`. -/
def CastsLanes (tm : TypeMap) (name : CCastName) (toType : TypeRef) (c : Class) (v : Value) :
    Prop :=
  ∃ d b n op r, tm.get toType = some d ∧ d.kind = .vector b n ∧
    OperCompiler.compileCast tm name toType c = some op ∧
    op.callOperation tm [v] = some r ∧ r.bits = d.layout.bits ∧
    ∀ i < n, ∃ x z, v.extract tm c i = some x ∧ callScalar (.cast name b) [x] = some z ∧
      r.extract tm d i = some z

/-- The operation that is made for the cast: its result is a vector of the vectors that
`to_type` already is. -/
theorem compileCast_vector {name : CCastName} {t : TypeRef} {d : Class} {op : COperation}
    (hk : c.kind = .vector e n) (hd : tm.get t = some d)
    (hop : OperCompiler.compileCast tm name t c = some op) :
    ∃ out, op = ⟨.cast name d, [c], out⟩ ∧ out.kind = .vector d n ∧
      out.layout.bits = d.layout.bits * n := by
  obtain ⟨d', hd', hop⟩ := Option.bind_eq_some_iff.mp hop
  rw [Option.some.inj (hd'.symm.trans hd)] at hop
  obtain ⟨out, hout, hop⟩ := Option.bind_eq_some_iff.mp hop
  have hvec : tm.get (.vectorType d.typ n) = some out := by
    rw [← show OperCompiler.output tm (.cast name d) [c] = tm.get (.vectorType d.typ n) by
      show OperCompiler.targetOf tm c d = _
      rw [OperCompiler.targetOf, hk]
      rfl]
    exact hout
  obtain ⟨d'', hd'', hkout, hbits, -⟩ := vector_of_get hvec
  have hsame : d'' = d := Option.some.inj (hd''.symm.trans (TypeMap.built_of_get hd))
  rw [hsame] at hkout hbits
  exact ⟨out, (Option.some.inj hop).symm, hkout, hbits⟩

theorem compileCast_of_lt {name : CCastName} {t : TypeRef} {d : Class}
    (hk : c.kind = .vector e n) (hd : tm.get t = some d) (hlt : d.layout.bits * n < 2 ^ 64) :
    ∃ op, OperCompiler.compileCast tm name t c = some op := by
  obtain ⟨out, hout⟩ := get_vector_of_lt (TypeMap.built_of_get hd) hlt
  have htarget : OperCompiler.output tm (.cast name d) [c] = some out := by
    show OperCompiler.targetOf tm c d = _
    rw [OperCompiler.targetOf, hk]
    exact hout
  refine ⟨⟨.cast name d, [c], out⟩, ?_⟩
  rw [OperCompiler.compileCast, hd]
  show OperCompiler.compileOperation tm (.cast name d) [c] = _
  rw [OperCompiler.compileOperation, htarget]
  rfl

theorem castsLanes_of_le {a b : UInt32} {name : CCastName} {d : Class}
    (hc : tm.get (.vectorType (.integerType a) n) = some c)
    (hd : tm.get (.vectorType (.integerType b) n) = some d) (hn : n ≤ 1)
    (hname : CastSupported a.toNat b.toNat name) (hv : v.bits = c.layout.bits) :
    CastsLanes tm name (.vectorType (.integerType b) n) c v := by
  obtain ⟨eb, heb, hkd, hdbits, hlt⟩ := vector_of_get hd
  obtain ⟨ea, hea, hkc, hcbits, -⟩ := vector_of_get hc
  have hbuilt := TypeMap.built_of_get hd
  have hsquare : d.layout.bits * n = d.layout.bits := by
    rcases Nat.le_one_iff_eq_zero_or_eq_one.mp hn with h0 | h1
    · rw [hdbits, h0, Nat.mul_zero, Nat.mul_zero]
    · rw [h1, Nat.mul_one]
  obtain ⟨op, hop⟩ := compileCast_of_lt hkc hd (by rw [hsquare, hdbits]; exact hlt)
  obtain ⟨out, rfl, hkout, houtbits⟩ := compileCast_vector hkc hd hop
  rw [hsquare] at houtbits
  have hsimple : (Name.cast name d).IsSimple := trivial
  have hcall : callOperation tm ⟨.cast name d, [c], out⟩ [v] =
      fillLanes tm out (scalarLane tm ⟨.cast name d, [c], out⟩ [v]) n := by
    rw [callOperation_simple hsimple]
    exact callSimple_vector hkout (by omega)
  have hfirst : ∀ b i : ℕ, i < n → b * i < 2 ^ 63 := fun b i hi => by
    rw [show i = 0 by omega, Nat.mul_zero]
    decide
  have hlane : ∀ i < n, ∃ x z, v.extract tm c i = some x ∧
      callScalar (.cast name d) [x] = some z ∧ Exact d.layout.bits z := by
    intro i hi
    have hi0 : i = 0 := by omega
    have hn1 : n = 1 := by omega
    have hle : ea.layout.bits * i + ea.layout.bits ≤ v.bits := by
      rw [hv, hcbits]
      exact mul_lt_of_lt hi
    have hx := extract_lane hkc (TypeMap.built_of_get hea) (hfirst _ i hi) hle
    have hsupported : CastSupported (v.window (ea.layout.bits * i) ea.layout.bits).bits
        d.layout.bits name := by
      rw [Value.bits_window, bits_integer hea, hdbits, hn1, Nat.mul_one, bits_integer heb]
      exact hname
    obtain ⟨z, hz, hzbits, hpad⟩ := callScalar_cast hsupported
    exact ⟨_, z, hx, hz, hzbits, hpad (Value.zeroPadded_window _ _ _)⟩
  have hscalar : ∀ i : ℕ, scalarLane tm ⟨.cast name d, [c], out⟩ [v] i =
      (v.extract tm c i).bind fun x => callScalar (.cast name d) [x] :=
    fun i => lane_single i
  -- the one lane, if any, is at the index 0 and fills the whole result
  obtain ⟨r, hr⟩ : ∃ r,
      fillLanes tm out (scalarLane tm ⟨.cast name d, [c], out⟩ [v]) n = some r := by
    apply fillLanes_of_fits hkout hbuilt
    intro i hi
    have hi0 : i = 0 := by omega
    obtain ⟨x, z, hx, hz, hexact⟩ := hlane i hi
    refine ⟨z, ?_, hexact.1, hfirst _ i hi, ?_⟩
    · rw [hscalar, hx]
      exact hz
    · rw [houtbits, hi0, Nat.mul_zero, Nat.zero_add]
  obtain ⟨hrbits, hlanes⟩ := fillLanes_some hkout hbuilt hr
  refine ⟨d, eb, n, _, r, hd, hkd, hop, hcall.trans hr, hrbits.trans houtbits, fun i hi => ?_⟩
  have hi0 : i = 0 := by omega
  have hn1 : n = 1 := by omega
  obtain ⟨x, z, hx, hz, hexact⟩ := hlane i hi
  have hsame : d.layout.bits = eb.layout.bits := by rw [hdbits, hn1, Nat.mul_one]
  have hwin := (hlanes i hi).2 z (by rw [hscalar, hx]; exact hz) hexact.2
  refine ⟨x, z, hx, (callScalar_cast_congr hsame).symm.trans hz, ?_⟩
  rw [extract_lane hkd (TypeMap.built_of_get heb) (hfirst _ i hi), ← hsame, hwin]
  rw [hrbits, houtbits, hi0, hsame, Nat.mul_zero, Nat.zero_add]

/-- Casts act lane by lane on vectors of at most one lane only: the target class of the
operation on a lane is the class of the whole result. -/
theorem castsLanes_iff {a b : UInt32} {name : CCastName} {d : Class}
    (hc : tm.get (.vectorType (.integerType a) n) = some c)
    (hd : tm.get (.vectorType (.integerType b) n) = some d) (hn : n < 2 ^ 63) (hb : 0 < b.toNat)
    (hname : CastSupported a.toNat b.toNat name) (hv : v.bits = c.layout.bits) :
    CastsLanes tm name (.vectorType (.integerType b) n) c v ↔ n ≤ 1 := by
  refine ⟨fun h => ?_, fun hle => castsLanes_of_le hc hd hle hname hv⟩
  obtain ⟨d', b', n', op, r, hd', -, hop, hr, hbits, -⟩ := h
  rw [Option.some.inj (hd'.symm.trans hd)] at hbits
  obtain ⟨eb, heb, -, hdbits, -⟩ := vector_of_get hd
  obtain ⟨ea, hea, hkc, -, -⟩ := vector_of_get hc
  obtain ⟨out, rfl, hkout, houtbits⟩ := compileCast_vector hkc hd hop
  have hsimple : (Name.cast name d).IsSimple := trivial
  rw [callOperation_simple hsimple, callSimple_vector hkout hn] at hr
  rw [(fillLanes_some hkout (TypeMap.built_of_get hd) hr).1, houtbits] at hbits
  rw [bits_integer heb] at hdbits
  by_contra hlt
  have hpos : 0 < d.layout.bits := by
    rw [hdbits]
    exact Nat.mul_pos hb (by omega)
  have hone : n = 1 := (Nat.mul_eq_left hpos.ne').mp hbits
  omega

/-- One byte, zero-extended to one half-word. -/
theorem castsLanes_iff_one :
    ∃ c d, (TypeMap.mk []).get (.vectorType (.integerType 8) 1) = some c ∧
      (TypeMap.mk []).get (.vectorType (.integerType 16) 1) = some d ∧
      CastsLanes ⟨[]⟩ .zExt (.vectorType (.integerType 16) 1) c (.new 8 0x81) := by
  have hname : CastSupported (UInt32.toNat 8) (UInt32.toNat 16) .zExt := trivial
  exact ⟨_, _, rfl, rfl,
    (castsLanes_iff rfl rfl (by decide) (by decide) hname rfl).mpr le_rfl⟩

/-- Two bytes, zero-extended to two half-words, give a value of two times the width. -/
theorem not_castsLanes_two :
    ∃ c d, (TypeMap.mk []).get (.vectorType (.integerType 8) 2) = some c ∧
      (TypeMap.mk []).get (.vectorType (.integerType 16) 2) = some d ∧ d.layout.bits = 32 ∧
      ¬ CastsLanes ⟨[]⟩ .zExt (.vectorType (.integerType 16) 2) c (.new 16 0x8180) := by
  have hsome : (((TypeMap.mk []).get (.vectorType (.integerType 8) 2)).bind fun c =>
      (OperCompiler.compileCast ⟨[]⟩ .zExt (.vectorType (.integerType 16) 2) c).bind fun op =>
        (op.callOperation ⟨[]⟩ [.new 16 0x8180]).map Value.bits) = some 64 := by decide +kernel
  obtain ⟨c, hc, hrest⟩ := Option.bind_eq_some_iff.mp hsome
  refine ⟨c, _, hc, rfl, rfl, ?_⟩
  rintro ⟨d, b, n, op, r, hd, -, hop, hr, hbits, -⟩
  rw [hop, Option.bind_some, hr, Option.map_some, Option.some.injEq] at hrest
  cases hd
  rw [hrest] at hbits
  exact absurd hbits (by decide)

variable {mask : List ℤ} {v₁ v₂ : Value}

/-- The value that `call_operation` puts into lane `j` of a shuffle. -/
def picked (tm : TypeMap) (c : Class) (n : ℕ) (v₁ : Value) (mask : List ℤ) (j : ℕ) :
    Option Value :=
  (mask[j]?).bind fun m => if m < n then v₁.extract tm c m else v₁.extract tm c (m - n)

theorem shuffleLane_eq {out : Class} {j : ℕ} {x : ℤ} (hn : n < 2 ^ 63) (hj : mask[j]? = some x)
    (r : Value) :
    shuffleLane tm ⟨.shuffle mask, [c, c], out⟩ n [v₁, v₂] r (x, j) =
      (picked tm c n v₁ mask j).bind fun z => r.insert tm out j z := by
  rw [picked, hj, Option.bind_some, shuffleLane]
  simp only [asI64_eq hn]
  split_ifs with hx <;> rfl

theorem foldlM_shuffleLane {out : Class} (hn : n < 2 ^ 63) (hm : m ≤ mask.length) :
    (mask.take m).zipIdx.foldlM
        (shuffleLane tm ⟨.shuffle mask, [c, c], out⟩ n [v₁, v₂]) (Value.zero out.layout.bits) =
      fillLanes tm out (picked tm c n v₁ mask) m := by
  induction m with
  | zero => rfl
  | succ m ih =>
    have hlt : m < mask.length := by omega
    have hget : mask[m]? = some mask[m] := List.getElem?_eq_getElem hlt
    have hlen : 0 + (mask.take m).length = m := by
      rw [List.length_take, Nat.min_eq_left hlt.le, Nat.zero_add]
    have hlast : ∀ r, [(mask[m], m)].foldlM
        (shuffleLane tm ⟨.shuffle mask, [c, c], out⟩ n [v₁, v₂]) r =
        (picked tm c n v₁ mask m).bind fun z => r.insert tm out m z := by
      intro r
      rw [List.foldlM_cons, shuffleLane_eq hn hget]
      exact bind_pure _
    rw [fillLanes_succ, ← ih hlt.le, List.take_add_one, hget, Option.toList_some,
      List.zipIdx_append, List.foldlM_append, hlen, List.zipIdx_singleton]
    exact congrArg _ (funext hlast)

/-- A shuffle of two vectors of class `c`, with `n` lanes, returns a vector whose lanes are the
ones that the mask selects from the lanes of both. -/
def ShufflesLanes (tm : TypeMap) (c : Class) (n : ℕ) (mask : List ℤ) (v₁ v₂ : Value) : Prop :=
  ∃ op r, OperCompiler.compileOperation tm (.shuffle mask) [c, c] = some op ∧
    op.callOperation tm [v₁, v₂] = some r ∧
    ∀ (j : ℕ) (m : ℤ), mask[j]? = some m → ∃ z,
      (if m < n then v₁.extract tm c m else v₂.extract tm c (m - n)) = some z ∧
        r.extract tm op.output j = some z

theorem lane_of_entry {i : ℤ} (h : 0 ≤ i ∧ i < 2 * n) :
    ∃ k < n, (i % n).toNat = k ∧ (i < n → i = k) ∧ (n ≤ i → i - n = k) := by
  by_cases hi : i < n
  · refine ⟨i.toNat, by omega, ?_, fun _ => by omega, fun _ => by omega⟩
    rw [Int.emod_eq_of_lt h.1 hi]
  · refine ⟨(i - n).toNat, by omega, ?_, fun _ => by omega, fun _ => by omega⟩
    rw [← Int.sub_emod_right, Int.emod_eq_of_lt (by omega) (by omega)]

theorem picked_eq {i : ℤ} {j : ℕ} (hj : mask[j]? = some i) (hlt : i < n → i = k)
    (hge : n ≤ i → i - n = k) : picked tm c n v₁ mask j = v₁.extract tm c k := by
  rw [picked, hj, Option.bind_some]
  split_ifs with hi
  · rw [hlt hi]
  · rw [hge (by omega)]

theorem asVector_eq (hk : c.kind = .vector e n) : c.asVector = some (e, n) := by
  rw [Class.asVector, hk]

theorem compileShuffle_eq (hk : c.kind = .vector e n) :
    OperCompiler.compileOperation tm (.shuffle mask) [c, c] =
      (tm.get (.vectorType e.typ mask.length)).bind fun out =>
        some ⟨.shuffle mask, [c, c], out⟩ := by
  show (c.asVector.bind fun l => tm.vector l.1 mask.length).bind _ = _
  rw [asVector_eq hk]
  rfl

theorem callShuffle {out : Class} (hk : c.kind = .vector e n) (hn : n < 2 ^ 63) :
    callOperation tm ⟨.shuffle mask, [c, c], out⟩ [v₁, v₂] =
      fillLanes tm out (picked tm c n v₁ mask) mask.length := by
  rw [← foldlM_shuffleLane hn le_rfl, List.take_length]
  show (c.asVector.bind fun l₁ => c.asVector.bind fun _ => _) = _
  rw [asVector_eq hk]
  rfl

/-- The lanes of the output class of a shuffle are those of the inputs. -/
theorem vector_of_typ {out : Class} (he : tm.Built e)
    (h : tm.get (.vectorType e.typ m) = some out) :
    out.kind = .vector e m ∧ out.layout.bits = e.layout.bits * m := by
  obtain ⟨e', he', hk, hbits, -⟩ := vector_of_get h
  rw [Option.some.inj (he'.symm.trans he)] at hk hbits
  exact ⟨hk, hbits⟩

theorem lt_of_last_lt {b : ℕ} (hb : b < 2 ^ 64) (h : ∀ j < m, b * j < 2 ^ 63) :
    b * m < 2 ^ 64 := by
  cases m with
  | zero =>
    rw [Nat.mul_zero]
    decide
  | succ m =>
    have hlast : b * m < 2 ^ 63 := h m (Nat.lt_succ_self m)
    rw [Nat.mul_succ]
    rcases Nat.eq_zero_or_pos m with h0 | hpos
    · rwa [h0, Nat.mul_zero, Nat.zero_add]
    · have hle : b ≤ b * m := Nat.le_mul_of_pos_right b hpos
      omega

theorem extract_of_fits (hk : c.kind = .vector e n) (he : tm.Built e)
    (hcbits : c.layout.bits = e.layout.bits * n) (hv : v.bits = c.layout.bits) (hkn : k < n)
    (hfit : e.layout.bits * k < 2 ^ 63) :
    v.extract tm c k = some (v.window (e.layout.bits * k) e.layout.bits) := by
  apply extract_lane hk he hfit
  rw [hv, hcbits]
  exact mul_lt_of_lt hkn

theorem extract_shuffled {out : Class} {j : ℕ} (hk : c.kind = .vector e n) (he : tm.Built e)
    (hcbits : c.layout.bits = e.layout.bits * n) (hv : v.bits = c.layout.bits)
    (hout : out.kind = .vector e m) (hr : fillLanes tm out f m = some r) (hj : j < m)
    (hkn : k < n) (hf : f j = v.extract tm c k) :
    e.layout.bits * j < 2 ^ 63 ∧ e.layout.bits * k < 2 ^ 63 ∧
      r.extract tm out j = v.extract tm c k := by
  obtain ⟨hrbits, hfilled⟩ := fillLanes_some hout he hr
  obtain ⟨⟨z, hz, -, hjfit, hle⟩, hwin⟩ := hfilled j hj
  have hkfit := lt_of_extract_lane hk he (hf ▸ hz)
  have hread := extract_of_fits hk he hcbits hv hkn hkfit
  refine ⟨hjfit, hkfit, ?_⟩
  rw [extract_lane hout he hjfit (by rw [hrbits]; exact hle), hread]
  exact congrArg some (hwin _ (hf.trans hread) (Value.zeroPadded_window _ _ _))

/-- A shuffle that returns the selected lanes counts their offsets, and the lanes of the second
vector that it selects are those of the first. -/
theorem ShufflesLanes.counted (h : ShufflesLanes tm c n mask v₁ v₂) (hk : c.kind = .vector e n)
    (he : tm.Built e) (hcbits : c.layout.bits = e.layout.bits * n) (hn : n < 2 ^ 63)
    (hmask : ∀ i ∈ mask, 0 ≤ i ∧ i < 2 * n) (hv₁ : v₁.bits = c.layout.bits) (j : ℕ) (i : ℤ)
    (hj : mask[j]? = some i) :
    e.layout.bits * j < 2 ^ 63 ∧ e.layout.bits * (i % n).toNat < 2 ^ 63 ∧
      (n ≤ i → v₁.extract tm c (i - n) = v₂.extract tm c (i - n)) := by
  obtain ⟨op, r, hop, hr, hlanes⟩ := h
  rw [compileShuffle_eq hk] at hop
  obtain ⟨out, hout, hop⟩ := Option.bind_eq_some_iff.mp hop
  rw [← Option.some.inj hop, callShuffle hk hn] at hr
  rw [← Option.some.inj hop] at hlanes
  obtain ⟨hjlen, -⟩ := List.getElem?_eq_some_iff.mp hj
  obtain ⟨k, hkn, hmod, hlt, hge⟩ := lane_of_entry (hmask i (List.mem_of_getElem? hj))
  obtain ⟨hjfit, hkfit, heq⟩ := extract_shuffled hk he hcbits hv₁ (vector_of_typ he hout).1 hr
    hjlen hkn (picked_eq hj hlt hge)
  rw [hmod]
  refine ⟨hjfit, hkfit, fun hni => ?_⟩
  obtain ⟨z, hz, hread⟩ := hlanes j i hj
  rw [if_neg (by omega)] at hz
  rw [hz, ← hread, heq, hge hni]

theorem shufflesLanes_of_counted (hk : c.kind = .vector e n) (he : tm.Built e)
    (hcbits : c.layout.bits = e.layout.bits * n) (hn : n < 2 ^ 63)
    (hmask : ∀ i ∈ mask, 0 ≤ i ∧ i < 2 * n) (hv₁ : v₁.bits = c.layout.bits)
    (h : ∀ (j : ℕ) (i : ℤ), mask[j]? = some i →
      e.layout.bits * j < 2 ^ 63 ∧ e.layout.bits * (i % n).toNat < 2 ^ 63 ∧
        (n ≤ i → v₁.extract tm c (i - n) = v₂.extract tm c (i - n))) :
    ShufflesLanes tm c n mask v₁ v₂ := by
  have hlast : e.layout.bits * mask.length < 2 ^ 64 :=
    lt_of_last_lt he.bits_lt fun j hj => (h j _ (List.getElem?_eq_getElem hj)).1
  obtain ⟨out, hout⟩ := get_vector_of_lt he hlast
  obtain ⟨hkout, houtbits⟩ := vector_of_typ he hout
  have hpick : ∀ (j : ℕ) (i : ℤ), mask[j]? = some i → ∃ k < n, (i % n).toNat = k ∧
      picked tm c n v₁ mask j = v₁.extract tm c k ∧ (i < n → i = k) ∧ (n ≤ i → i - n = k) := by
    intro j i hj
    obtain ⟨k, hkn, hmod, hlt, hge⟩ := lane_of_entry (hmask i (List.mem_of_getElem? hj))
    exact ⟨k, hkn, hmod, picked_eq hj hlt hge, hlt, hge⟩
  obtain ⟨r, hr⟩ : ∃ r, fillLanes tm out (picked tm c n v₁ mask) mask.length = some r := by
    apply fillLanes_of_fits hkout he
    intro j hj
    have hget := List.getElem?_eq_getElem hj
    obtain ⟨k, hkn, hmod, hp, -⟩ := hpick j _ hget
    obtain ⟨hjfit, hkfit, -⟩ := h j _ hget
    rw [hmod] at hkfit
    refine ⟨_, hp.trans (extract_of_fits hk he hcbits hv₁ hkn hkfit), rfl, hjfit, ?_⟩
    rw [houtbits]
    exact mul_lt_of_lt hj
  refine ⟨⟨.shuffle mask, [c, c], out⟩, r, ?_, (callShuffle hk hn).trans hr, ?_⟩
  · rw [compileShuffle_eq hk, hout]
    rfl
  · intro j i hj
    obtain ⟨hjlen, -⟩ := List.getElem?_eq_some_iff.mp hj
    obtain ⟨k, hkn, hmod, hp, hlt, hge⟩ := hpick j i hj
    obtain ⟨-, hkfit, hsame⟩ := h j i hj
    rw [hmod] at hkfit
    have hread := extract_of_fits hk he hcbits hv₁ hkn hkfit
    obtain ⟨-, -, heq⟩ := extract_shuffled hk he hcbits hv₁ hkout hr hjlen hkn hp
    refine ⟨_, ?_, heq.trans hread⟩
    split_ifs with hi
    · rw [hlt hi, hread]
    · rw [← hsame (by omega), hge (by omega), hread]

/-- A shuffle returns the selected lanes exactly when the offsets of the lanes are counted and
every lane that is selected from the second vector is the same in the first one. -/
theorem shufflesLanes_iff {t : TypeRef} (hc : tm.get (.vectorType t n) = some c)
    (hk : c.kind = .vector e n) (hn : n < 2 ^ 63) (hmask : ∀ i ∈ mask, 0 ≤ i ∧ i < 2 * n)
    (hv₁ : v₁.bits = c.layout.bits) :
    ShufflesLanes tm c n mask v₁ v₂ ↔ ∀ (j : ℕ) (i : ℤ), mask[j]? = some i →
      e.layout.bits * j < 2 ^ 63 ∧ e.layout.bits * (i % n).toNat < 2 ^ 63 ∧
        (n ≤ i → v₁.extract tm c (i - n) = v₂.extract tm c (i - n)) := by
  obtain ⟨e', he', hk', hcbits, -⟩ := vector_of_get hc
  have hsame : e' = e := (ClassKind.vector.inj (hk'.symm.trans hk)).1
  rw [hsame] at he' hcbits
  have he : tm.Built e := TypeMap.built_of_get he'
  exact ⟨fun h => h.counted hk he hcbits hn hmask hv₁,
    shufflesLanes_of_counted hk he hcbits hn hmask hv₁⟩

/-- The two bytes of the first vector, swapped. -/
theorem shufflesLanes_iff_swap :
    ∃ c, (TypeMap.mk []).get (.vectorType (.integerType 8) 2) = some c ∧
      ShufflesLanes ⟨[]⟩ c 2 [1, 0] (.new 16 0x0201) (.new 16 0x0403) := by
  refine ⟨_, rfl, (shufflesLanes_iff (t := .integerType 8) rfl rfl (by decide) (by decide)
    rfl).mpr ?_⟩
  intro j i hj
  match j, hj with
  | 0, rfl => exact ⟨by decide, by decide, fun h => absurd h (by decide)⟩
  | 1, rfl => exact ⟨by decide, by decide, fun h => absurd h (by decide)⟩

/-- The first byte of the second vector is asked for, and that of the first one comes. -/
theorem not_shufflesLanes_second :
    ∃ c, (TypeMap.mk []).get (.vectorType (.integerType 8) 2) = some c ∧
      ¬ ShufflesLanes ⟨[]⟩ c 2 [2] (.new 16 0x0201) (.new 16 0x0403) := by
  have hsome : (((TypeMap.mk []).get (.vectorType (.integerType 8) 2)).bind fun c =>
      (OperCompiler.compileOperation ⟨[]⟩ (.shuffle [2]) [c, c]).bind fun op =>
        (op.callOperation ⟨[]⟩ [.new 16 0x0201, .new 16 0x0403]).bind fun r =>
          (r.extract ⟨[]⟩ op.output 0).bind fun lane =>
            ((Value.new 16 0x0403).extract ⟨[]⟩ c 0).map fun z => (lane.asU128, z.asU128)) =
      some (1, 3) := by decide +kernel
  obtain ⟨c, hc, hrest⟩ := Option.bind_eq_some_iff.mp hsome
  refine ⟨c, hc, ?_⟩
  rintro ⟨op, r, hop, hr, hlanes⟩
  obtain ⟨z, hz, hread⟩ := hlanes 0 2 rfl
  have hzero : (Value.new 16 0x0403).extract ⟨[]⟩ c 0 = some z := hz
  have hlane : r.extract ⟨[]⟩ op.output 0 = some z := hread
  rw [hop, Option.bind_some, hr, Option.bind_some, hlane, Option.bind_some, hzero,
    Option.map_some, Option.some.injEq, Prod.mk.injEq] at hrest
  obtain ⟨hone, hthree⟩ := hrest
  omega

end COperation
end AtomicSim
