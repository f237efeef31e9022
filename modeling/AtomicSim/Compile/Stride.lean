import AtomicSim.Compile.Aggregate
import AtomicSim.Memory

namespace AtomicSim

open LittleEndian (bit)

/-- `GetElementPtr` with constant indices, compiled and called. -/
def gep (tm : TypeMap) (address : Class) (indices : List (Class × Value)) (p : Value) :
    Option Value := do
  let op ← OperCompiler.compileGetElementPtr tm address
    (indices.map fun index => (index.1, some index.2))
  op.callOperation tm (p :: indices.map Prod.snd)

variable {tm : TypeMap} {t : TypeRef} {n i : ℕ} {e c q a : Class} {o : ℤ}

theorem elementStep_some {f : Element} {g : Element} {index : ℤ}
    (h : Class.elementStep tm f index = some g) :
    ∃ o, f.cls.element tm index = some (.mk g.cls o) ∧ addI64 f.bitOffset o = some g.bitOffset := by
  obtain ⟨elem, helem, h⟩ := Option.bind_eq_some_iff.mp h
  obtain ⟨bitOffset, hadd, h⟩ := Option.bind_eq_some_iff.mp h
  cases h
  exact ⟨elem.bitOffset, by rw [helem, Element.cls, Element.eta], hadd⟩

/-- One turn of the loop over the indices, for an index that is a constant. -/
def gepClassStep (tm : TypeMap) (output : Class) (index : Class × Option Value) :
    Option Class := do
  let i ← match index.2 with
    | some v => v.asI64
    | none => some (-1)
  let element ← output.element tm i
  some element.cls

theorem foldlM_gepClassStep {indices : List (Class × Value)} {ks : List ℤ} {f g : Element}
    (hks : (indices.map Prod.snd).mapM Value.asI64 = some ks)
    (h : ks.foldlM (Class.elementStep tm) f = some g) :
    (indices.map fun index => (index.1, some index.2)).foldlM (gepClassStep tm) f.cls =
      some g.cls := by
  induction indices generalizing ks f with
  | nil =>
    cases hks
    cases h
    rfl
  | cons index indices ih =>
    rw [List.map_cons, List.mapM_cons] at hks
    obtain ⟨k, hk, hks⟩ := Option.bind_eq_some_iff.mp hks
    obtain ⟨ks', hks', hcons⟩ := Option.bind_eq_some_iff.mp hks
    cases hcons
    obtain ⟨f', hstep, hrest⟩ := Option.bind_eq_some_iff.mp h
    obtain ⟨o, hel, -⟩ := elementStep_some hstep
    have hclass : gepClassStep tm f.cls (index.1, some index.2) = some f'.cls :=
      Option.bind_eq_some_iff.mpr ⟨k, hk, Option.bind_eq_some_iff.mpr ⟨_, hel, rfl⟩⟩
    rw [List.map_cons, List.foldlM_cons, hclass]
    exact ih hks' hrest

/-- What a `GetElementPtr` whose indices reach a class computes. -/
theorem gep_eq {indices : List (Class × Value)} {ks : List ℤ} {out : Class}
    (hks : (indices.map Prod.snd).mapM Value.asI64 = some ks)
    (hrec : a.elementRec tm ks = some (.mk e o)) (hout : tm.ptr e = some out) (p : Value) :
    gep tm a indices p = if o % 8 = 0 then
      (addU64I64 p.asU64 (o / 8)).map fun ptr => Value.new out.layout.bits ptr else none := by
  have hcompile : OperCompiler.compileGetElementPtr tm a
      (indices.map fun index => (index.1, some index.2)) =
      some ⟨.getElementPtr,
        a :: (indices.map fun index => (index.1, some index.2)).map Prod.fst, out⟩ :=
    Option.bind_eq_some_iff.mpr ⟨e, foldlM_gepClassStep hks hrec,
      Option.bind_eq_some_iff.mpr ⟨out, hout, rfl⟩⟩
  rw [gep, hcompile]
  show ((indices.map Prod.snd).mapM Value.asI64).bind _ = _
  rw [hks, Option.bind_some, hrec]
  show (if o % 8 = 0 then _ else none) = _
  split_ifs with h8
  · rw [Option.map_eq_bind]
    rfl
  · rfl

/-- The distance of two elements, seen through a pointer. -/
def stride (e : Class) : ℕ := alignTo e.layout.bits e.layout.bitAlign

theorem pointer_of_get {s : ℕ} (hq : tm.get (.pointerType t s) = some q) :
    q = .mk (.pointerType t s) (.pointer t) ⟨64, 64⟩ := by
  cases hq
  rfl

theorem element_of_pointer (hk : c.kind = .pointer t) (he : tm.get t = some e) (index : ℤ) :
    c.element tm index = (mulI64 (asI64 (stride e)) index).map fun o => .mk e o := by
  have hpointer : c.element tm index =
      (tm.get t).bind fun d => d.layout.padToAlign.bind fun padded =>
        (mulI64 (asI64 padded.bits) index).bind fun o => some (.mk d o) := by
    rw [Class.element, hk]
    rfl
  rw [hpointer, he, Option.bind_some, (TypeMap.built_of_get he).aligned.padToAlign,
    Option.bind_some, Option.map_eq_bind, stride]
  rfl

theorem element_pointer (he : tm.get t = some e) (hq : tm.get (.pointerType t 0) = some q)
    (index : ℤ) :
    q.element tm index = (mulI64 (asI64 (stride e)) index).map fun o => .mk e o := by
  apply element_of_pointer _ he
  rw [pointer_of_get hq]
  rfl

theorem array_of_get (he : tm.get t = some e) (hc : tm.get (.arrayType t n) = some c) :
    c.kind = .vector e n ∧ c.layout.bits = stride e * n ∧ stride e * n < 2 ^ 64 := by
  rw [TypeMap.get_arrayType, he] at hc
  obtain ⟨-, hk, hl⟩ := TypeMap.typ_vectorClass hc
  obtain ⟨hlt, hlayout⟩ := Layout.repeated_none hl
  exact ⟨hk, congrArg Layout.bits hlayout, hlt⟩

theorem elementRec_single {o : ℤ} (h : c.element tm i = some (.mk e o))
    (ho : -2 ^ 63 ≤ o ∧ o < 2 ^ 63) : c.elementRec tm [(i : ℤ)] = some (.mk e o) := by
  have hadd : addI64 0 o = some o := by
    rw [addI64, Int.zero_add]
    exact if_pos ho
  exact Option.bind_eq_some_iff.mpr ⟨_, Option.bind_eq_some_iff.mpr
    ⟨_, h, Option.bind_eq_some_iff.mpr ⟨_, hadd, rfl⟩⟩, rfl⟩

theorem load_store (m : Memory) {ptr k : ℕ} {v : Value} {layout : Layout}
    (hfit : ptr + v.imp.length < 2 ^ 64) (hin : k + layout.bytes ≤ v.imp.length) :
    ∃ m' w, m.storeImpl ptr v = some m' ∧ m'.loadImpl (ptr + k) layout = some w ∧
      w.bits = layout.bits ∧ ∀ j < 8 * layout.bytes, bit w.imp j = bit v.imp (8 * k + j) := by
  refine ⟨m.write ptr v.imp, (m.write ptr v.imp).read (ptr + k) layout, ?_, ?_, rfl, ?_⟩
  · rw [Memory.storeImpl_eq, if_pos hfit]
  · rw [Memory.loadImpl_eq, if_pos (by omega)]
  · intro j hj
    have hdiv : (8 * k + j) / 8 = k + j / 8 := by omega
    have hmod : (8 * k + j) % 8 = j % 8 := by omega
    have hlt : j / 8 < layout.bytes := by omega
    have hbyte : ((m.write ptr v.imp).read (ptr + k) layout).imp.getD (j / 8) 0 =
        v.imp.getD (k + j / 8) 0 := by
      have hread : ((m.write ptr v.imp).read (ptr + k) layout).imp.getD (j / 8) 0 =
          (m.write ptr v.imp).byteAt (ptr + k + j / 8) := by
        show ((List.range layout.bytes).map fun i =>
          (m.write ptr v.imp).byteAt (ptr + k + i)).getD (j / 8) 0 = _
        rw [List.getD_eq_getElem?_getD, List.getElem?_map, List.getElem?_range hlt]
        rfl
      rw [hread, Memory.byteAt_write, if_pos (by omega)]
      congr 1
      omega
    rw [bit, bit, hbyte, hdiv, hmod]

/-- The three readings of "the stride of an array is the stride of a pointer", at index `i`
of `[n x T]`: `e` is the class of `T`, `c` of `[n x T]`, `q` of `T*` and `a` of `[n x T]*`. -/
structure StrideAgrees (tm : TypeMap) (e c q a : Class) (n i : ℕ) : Prop where
  offset : ∃ o, c.element tm i = some (.mk e o) ∧ q.element tm i = some (.mk e o)
  gep : ∀ (p z k : Value) (d d' : Class), z.asI64 = some 0 → k.asI64 = some (i : ℤ) →
    gep tm a [(d, z), (d', k)] p = gep tm q [(d', k)] p
  load : ∀ vs : List Value, vs.length = n →
    (∀ v ∈ vs, v.bits = e.layout.bits ∧ v.ZeroPadded) →
    ∃ v, Value.aggregateOf tm c vs = some v ∧
      ∀ (m m' : Memory) (ptr : ℕ) (ptr' : ℕ) (o : ℤ), m.storeImpl ptr v = some m' →
        q.element tm i = some (.mk e o) → addU64I64 ptr (o / 8) = some ptr' →
        m'.loadImpl ptr' e.layout = vs[i]?

theorem gep_of_offset (hc : tm.get (.arrayType t n) = some c)
    (ha : tm.get (.pointerType (.arrayType t n) 0) = some a)
    (hel : c.element tm i = some (.mk e o)) (hel' : q.element tm i = some (.mk e o))
    (ho : -2 ^ 63 ≤ o ∧ o < 2 ^ 63) (p z k : Value) (d d' : Class) (hz : z.asI64 = some 0)
    (hk : k.asI64 = some (i : ℤ)) : gep tm a [(d, z), (d', k)] p = gep tm q [(d', k)] p := by
  obtain ⟨out, hout⟩ : ∃ out, tm.ptr e = some out := ⟨_, rfl⟩
  have hadd : addI64 0 o = some o := by
    rw [addI64, Int.zero_add]
    exact if_pos ho
  have hzero : a.element tm 0 = some (.mk c 0) := by
    rw [element_pointer hc ha, mulI64, Int.mul_zero]
    rfl
  have hrec : q.elementRec tm [(i : ℤ)] = some (.mk e o) := elementRec_single hel' ho
  have hrec' : a.elementRec tm [0, (i : ℤ)] = some (.mk e o) := by
    refine Option.bind_eq_some_iff.mpr ⟨.mk c 0, ?_, ?_⟩
    · exact Option.bind_eq_some_iff.mpr ⟨_, hzero, rfl⟩
    · exact elementRec_single hel ho
  have hks : ([(d', k)].map Prod.snd).mapM Value.asI64 = some [(i : ℤ)] := by
    rw [List.map_cons, List.map_nil, List.mapM_cons, hk]
    rfl
  have hks' : ([(d, z), (d', k)].map Prod.snd).mapM Value.asI64 = some [0, (i : ℤ)] := by
    rw [List.map_cons, List.mapM_cons, hz, hks]
    rfl
  rw [gep_eq hks' hrec' hout, gep_eq hks hrec hout]

/-- The arrays that agree: the code's offsets hold all elements, and the elements need no
padding, or only the first one is asked for and is read back clean. -/
def StrideFits (e : Class) (n i : ℕ) : Prop :=
  e.layout.bits * (n - 1) < 2 ^ 63 ∧
    (stride e = e.layout.bits ∨
      e.layout.bits ≤ stride e ∧ i = 0 ∧ (8 ∣ e.layout.bits ∨ n = 1))

theorem StrideFits.le (h : StrideFits e n i) : e.layout.bits ≤ stride e := by
  obtain ⟨-, heq | ⟨hle, -, -⟩⟩ := h
  · exact heq.ge
  · exact hle

theorem mul_lt_of_last {b k : ℕ} (h : b * (n - 1) < 2 ^ 63) (hk : k < n) : b * k < 2 ^ 63 :=
  lt_of_le_of_lt (Nat.mul_le_mul_left b (by omega)) h

theorem aggregateOf_array (he : tm.get t = some e) (hc : tm.get (.arrayType t n) = some c)
    (hfit : e.layout.bits * (n - 1) < 2 ^ 63) (hle : e.layout.bits ≤ stride e) {vs : List Value}
    (hn : vs.length = n) (hvs : ∀ v ∈ vs, v.bits = e.layout.bits ∧ v.ZeroPadded) :
    ∃ v, Value.aggregateOf tm c vs = some v ∧ v.bits = stride e * n ∧
      (∀ (k : ℕ) (hk : k < vs.length),
        v.window (e.layout.bits * k) e.layout.bits = vs[k]) ∧
      ∀ j, e.layout.bits * n ≤ j → j < stride e * n → bit v.imp j = false := by
  obtain ⟨hkind, hbits, -⟩ := array_of_get he hc
  have hal := (TypeMap.built_of_get he).aligned
  have hwidth : ∀ (k : ℕ) (hk : k < vs.length), vs[k].bits = e.layout.bits :=
    fun k hk => (hvs _ (List.getElem_mem hk)).1
  have hel : ∀ k < vs.length,
      c.element tm (k : ℤ) = some (.mk e ((e.layout.bits * k : ℕ) : ℤ)) :=
    fun k hk => TypeMap.element_vector_eq hkind hal (mul_lt_of_last hfit (hn ▸ hk))
  have hmul : e.layout.bits * n ≤ stride e * n := Nat.mul_le_mul_right n hle
  have hlast : ∀ k < vs.length, e.layout.bits * k + e.layout.bits ≤ e.layout.bits * n :=
    fun k hk => mul_lt_of_lt (hn ▸ hk)
  obtain ⟨v, hv, hvbits, hread, hframe⟩ := TypeMap.aggregateOf_windows hel
    (fun k hk => by
      rw [hwidth k hk, hbits]
      exact (hlast k hk).trans hmul)
    (fun k m hk hkm _ => by
      rw [hwidth k hk]
      exact mul_lt_of_lt hkm)
  refine ⟨v, hv, hvbits.trans hbits, fun k hk => ?_, fun j hj hjs => ?_⟩
  · rw [← hread k hk (hvs _ (List.getElem_mem hk)).2, hwidth k hk]
  · have hclear := hframe j 1 (by omega) fun k hk => by
      rw [hwidth k hk]
      exact Or.inl ((hlast k hk).trans hj)
    have hbit := congrArg (fun w => bit w.imp 0) hclear
    simp only [Value.bit_window Nat.one_pos, Nat.add_zero] at hbit
    rw [hbit, Value.bit_zero]

theorem strideAgrees_load (he : tm.get t = some e) (hc : tm.get (.arrayType t n) = some c)
    (hi : i < n) (h : StrideFits e n i) (hel : q.element tm i =
      some (.mk e ((e.layout.bits * i : ℕ) : ℤ))) (vs : List Value) (hn : vs.length = n)
    (hvs : ∀ v ∈ vs, v.bits = e.layout.bits ∧ v.ZeroPadded) :
    ∃ v, Value.aggregateOf tm c vs = some v ∧
      ∀ (m m' : Memory) (ptr : ℕ) (ptr' : ℕ) (o : ℤ), m.storeImpl ptr v = some m' →
        q.element tm i = some (.mk e o) → addU64I64 ptr (o / 8) = some ptr' →
        m'.loadImpl ptr' e.layout = vs[i]? := by
  obtain ⟨v, hv, hbits, hread, hclear⟩ := aggregateOf_array he hc h.1 h.le hn hvs
  refine ⟨v, hv, fun m m' ptr ptr' o hstore ho hptr => ?_⟩
  rw [hel] at ho
  injection Option.some.inj ho with _ ho
  have hal := (TypeMap.built_of_get he).aligned
  have hdvd : 8 ∣ stride e := hal.dvd_alignTo _
  have hmul : e.layout.bits * n ≤ stride e * n := Nat.mul_le_mul_right n h.le
  have hlast : e.layout.bits * i + e.layout.bits ≤ e.layout.bits * n := mul_lt_of_lt hi
  have hlen := v.length_imp
  obtain ⟨w, hw⟩ : 8 ∣ stride e * n := hdvd.mul_right n
  have h8 : 8 ∣ e.layout.bits * i := by
    obtain ⟨-, heq | ⟨-, rfl, -⟩⟩ := h
    · exact (heq ▸ hdvd).mul_right i
    · rw [Nat.mul_zero]
      exact Nat.dvd_zero 8
  obtain ⟨k, hk⟩ := h8
  have hptr' : ptr' = ptr + k := by
    have hdiv : o / 8 = (k : ℤ) := by omega
    rw [hdiv, addU64I64, if_neg (by omega), Int.toNat_natCast] at hptr
    exact (addU64_eq_some.mp hptr).2.symm
  rw [Memory.storeImpl_eq] at hstore
  split_ifs at hstore with hfit
  have hin : k + e.layout.bytes ≤ v.imp.length := by
    unfold Layout.bytes
    omega
  obtain ⟨m'', x, hm'', hload, hxbits, hx⟩ := load_store m hfit hin
  rw [Memory.storeImpl_eq, if_pos hfit, hstore] at hm''
  have hlt : i < vs.length := hn ▸ hi
  rw [hptr', Option.some.inj hm'', hload, List.getElem?_eq_getElem hlt]
  obtain ⟨hwidth, hpad⟩ := hvs _ (List.getElem_mem hlt)
  -- bit by bit, the bytes that are loaded are the element that was put there
  have hbit : ∀ j < e.layout.bits, bit x.imp j = bit vs[i].imp j := by
    intro j hj
    rw [hx j (by unfold Layout.bytes; omega), ← hread i hlt, Value.bit_window hj, hk]
  refine congrArg some (Value.ext_bits (hxbits.trans hwidth.symm) ?_ hpad ?_)
  · intro j hj
    rw [hxbits] at hj
    by_cases hj8 : 8 * ((x.bits + 7) / 8) ≤ j
    · exact Value.bit_eq_false_of_le hj8
    · -- only the one element of a one-element array can have bits left in its last byte
      rw [hxbits] at hj8
      obtain ⟨p, hp⟩ := hdvd
      obtain ⟨-, heq | ⟨hle, rfl, h8 | rfl⟩⟩ := h
      · omega
      · omega
      · rw [hx j (by unfold Layout.bytes; omega)]
        exact hclear _ (by omega) (by omega)
  · intro j hj
    exact hbit j (hxbits ▸ hj)

theorem strideAgrees_of_fits (he : tm.get t = some e) (hc : tm.get (.arrayType t n) = some c)
    (hq : tm.get (.pointerType t 0) = some q)
    (ha : tm.get (.pointerType (.arrayType t n) 0) = some a) (hi : i < n)
    (h : StrideFits e n i) : StrideAgrees tm e c q a n i := by
  have hlt := mul_lt_of_last h.1 hi
  have hel : c.element tm i = some (.mk e ((e.layout.bits * i : ℕ) : ℤ)) :=
    TypeMap.element_vector_eq (array_of_get he hc).1 (TypeMap.built_of_get he).aligned hlt
  have hel' : q.element tm i = some (.mk e ((e.layout.bits * i : ℕ) : ℤ)) := by
    rw [element_pointer he hq]
    obtain ⟨-, heq | ⟨-, rfl, -⟩⟩ := h
    · rw [heq, TypeMap.mulI64_asI64 hlt]
      rfl
    · rw [Nat.mul_zero, mulI64, Nat.cast_zero, Int.mul_zero]
      rfl
  refine ⟨⟨_, hel, hel'⟩, fun p z k d d' hz hk => ?_, fun vs hn hvs => ?_⟩
  · exact gep_of_offset hc ha hel hel' (by omega) p z k d d' hz hk
  · exact strideAgrees_load he hc hi h hel' vs hn hvs

theorem le_stride_of_aggregateOf (he : tm.get t = some e) (hc : tm.get (.arrayType t n) = some c)
    (hn : 0 < n) {vs : List Value} {v : Value} (hlen : vs.length = n)
    (hvs : ∀ v ∈ vs, v.bits = e.layout.bits) (hv : Value.aggregateOf tm c vs = some v) :
    e.layout.bits * (n - 1) < 2 ^ 63 ∧ e.layout.bits ≤ stride e := by
  obtain ⟨hkind, hbits, -⟩ := array_of_get he hc
  have hlast : n - 1 < vs.length := by omega
  obtain ⟨element, hel, hpos, hle⟩ := TypeMap.aggregateOf_some hv (n - 1) hlast
  rw [Nat.zero_add] at hel
  obtain ⟨heq, hfit⟩ := TypeMap.element_vector_some hkind (TypeMap.built_of_get he) hel hpos
  rw [hvs _ (List.getElem_mem hlast), Value.bits_zero, hbits, heq, Element.bitOffset,
    Int.toNat_natCast] at hle
  have hmul := Nat.mul_succ e.layout.bits (n - 1)
  rw [Nat.succ_eq_add_one, Nat.sub_add_cancel hn] at hmul
  rw [← hmul] at hle
  exact ⟨hfit, Nat.le_of_mul_le_mul_right hle hn⟩

theorem bit_new_one {bits : ℕ} (h : 0 < bits) : bit (Value.new bits 1).imp 0 = true := by
  rw [Value.new, Value.bit_imp_ofBits h]
  have hmin : 0 < min bits 128 := by omega
  rw [decide_eq_true hmin]
  rfl

theorem dvd_of_load (he : tm.get t = some e) (hc : tm.get (.arrayType t n) = some c)
    (hq : tm.get (.pointerType t 0) = some q) (hn : 1 < n)
    (hfit : e.layout.bits * (n - 1) < 2 ^ 63) (hle : e.layout.bits ≤ stride e)
    (h : StrideAgrees tm e c q a n 0) : 8 ∣ e.layout.bits := by
  by_contra h8
  have hpos : 0 < e.layout.bits := by omega
  let vs := Value.zero e.layout.bits :: Value.new e.layout.bits 1 ::
    List.replicate (n - 2) (Value.zero e.layout.bits)
  have hlen : vs.length = n := by
    simp only [vs, List.length_cons, List.length_replicate]
    omega
  have hvs : ∀ v ∈ vs, v.bits = e.layout.bits ∧ v.ZeroPadded := by
    intro v hv
    rcases List.mem_cons.mp hv with rfl | hv
    · exact ⟨rfl, Value.zeroPadded_zero _⟩
    rcases List.mem_cons.mp hv with rfl | hv
    · exact ⟨rfl, Value.zeroPadded_new _ _⟩
    · rw [List.eq_of_mem_replicate hv]
      exact ⟨rfl, Value.zeroPadded_zero _⟩
  obtain ⟨v, hv, hload⟩ := h.load vs hlen hvs
  obtain ⟨v', hv', hbits, hread, -⟩ := aggregateOf_array he hc hfit hle hlen hvs
  rw [hv, Option.some.injEq] at hv'
  rw [← hv'] at hbits hread
  have hsize := (array_of_get he hc).2.2
  have hlenv := v.length_imp
  have hmul : stride e * 1 ≤ stride e * n := Nat.mul_le_mul_left _ hn.le
  -- side by side, the second element starts in the last byte of the first
  have hone : bit v.imp e.layout.bits = true := by
    have hlt : 1 < vs.length := by omega
    have hsecond := congrArg (fun w => bit w.imp 0) (hread 1 hlt)
    simp only [Value.bit_window hpos, Nat.mul_one, Nat.add_zero] at hsecond
    rw [hsecond]
    exact bit_new_one hpos
  have hroom : 128 + v.imp.length < 2 ^ 64 := by omega
  have hin : 0 + e.layout.bytes ≤ v.imp.length := by
    unfold Layout.bytes
    omega
  obtain ⟨m', x, hstore, hx, -, hbit⟩ := load_store .new hroom hin
  have hel : q.element tm (0 : ℕ) = some (.mk e 0) := by
    rw [element_pointer he hq, mulI64, Nat.cast_zero, Int.mul_zero]
    rfl
  have hfirst := hload .new m' 128 128 0 hstore hel (by decide)
  rw [Nat.add_zero] at hx
  rw [hx] at hfirst
  have hzero : x = Value.zero e.layout.bits := Option.some.inj hfirst
  have hcontra := hbit e.layout.bits (by unfold Layout.bytes; omega)
  rw [Nat.mul_zero, Nat.zero_add, hone, hzero, Value.bit_zero] at hcontra
  cases hcontra

theorem first_of_offset (he : tm.get t = some e) (hc : tm.get (.arrayType t n) = some c)
    (hq : tm.get (.pointerType t 0) = some q) (hi : i < n) (hfit : e.layout.bits * (n - 1) < 2 ^ 63)
    (h : StrideAgrees tm e c q a n i) (hne : stride e ≠ e.layout.bits) : i = 0 := by
  by_contra hzero
  obtain ⟨o, ho, ho'⟩ := h.offset
  have hlt := mul_lt_of_last hfit hi
  rw [TypeMap.element_vector_eq (array_of_get he hc).1 (TypeMap.built_of_get he).aligned hlt]
    at ho
  rw [element_pointer he hq] at ho'
  obtain ⟨o', hmul, ho'⟩ := Option.map_eq_some_iff.mp ho'
  injection Option.some.inj ho with _ ho
  injection ho' with _ ho'
  obtain ⟨hval, -⟩ := checkI64_some hmul
  have hstride : stride e < 2 ^ 63 := by
    have hsize := (array_of_get he hc).2.2
    have : stride e * 2 ≤ stride e * n := Nat.mul_le_mul_left _ (by omega)
    omega
  rw [asI64_eq hstride, ho', ← ho, ← Nat.cast_mul] at hval
  exact hne (Nat.eq_of_mul_eq_mul_right (Nat.pos_of_ne_zero hzero) (Int.ofNat.inj hval)).symm

/-- The stride of an array is the stride of a pointer exactly where the code's offsets hold
all elements and either the elements need no padding, or the first one is asked for and its
last byte is its own. -/
theorem strideAgrees_iff (he : tm.get t = some e) (hc : tm.get (.arrayType t n) = some c)
    (hq : tm.get (.pointerType t 0) = some q)
    (ha : tm.get (.pointerType (.arrayType t n) 0) = some a) (hi : i < n) :
    StrideAgrees tm e c q a n i ↔ StrideFits e n i := by
  refine ⟨fun h => ?_, strideAgrees_of_fits he hc hq ha hi⟩
  have hzeros : ∀ v ∈ List.replicate n (Value.zero e.layout.bits),
      v.bits = e.layout.bits ∧ v.ZeroPadded := by
    intro v hv
    rw [List.eq_of_mem_replicate hv]
    exact ⟨rfl, Value.zeroPadded_zero _⟩
  obtain ⟨v, hv, -⟩ := h.load _ List.length_replicate hzeros
  obtain ⟨hfit, hle⟩ := le_stride_of_aggregateOf he hc (Nat.zero_lt_of_lt hi)
    List.length_replicate (fun v hv => (hzeros v hv).1) hv
  refine ⟨hfit, ?_⟩
  by_cases heq : stride e = e.layout.bits
  · exact Or.inl heq
  refine Or.inr ⟨hle, ?_⟩
  have hzero := first_of_offset he hc hq hi hfit h heq
  subst hzero
  refine ⟨rfl, ?_⟩
  by_cases hone : n = 1
  · exact Or.inr hone
  · exact Or.inl (dvd_of_load he hc hq (by omega) hfit hle h)

/-- In `[3 x i32]` the elements need no padding. -/
theorem strideAgrees_iff_i32 :
    ∃ e c q a, (TypeMap.mk []).get (.integerType 32) = some e ∧
      (TypeMap.mk []).get (.arrayType (.integerType 32) 3) = some c ∧
      (TypeMap.mk []).get (.pointerType (.integerType 32) 0) = some q ∧
      (TypeMap.mk []).get (.pointerType (.arrayType (.integerType 32) 3) 0) = some a ∧
      1 < 3 ∧ StrideAgrees ⟨[]⟩ e c q a 3 1 := by
  refine ⟨_, _, _, _, rfl, rfl, rfl, rfl, by decide, ?_⟩
  exact (strideAgrees_iff rfl rfl rfl rfl (by decide)).mpr ⟨by decide, Or.inl (by decide)⟩

/-- In `[2 x i1]` the second element is one bit from the first, and a pointer to it is a byte
away. -/
theorem not_strideAgrees_i1 :
    ∃ e c q a, (TypeMap.mk []).get (.integerType 1) = some e ∧
      (TypeMap.mk []).get (.arrayType (.integerType 1) 2) = some c ∧
      (TypeMap.mk []).get (.pointerType (.integerType 1) 0) = some q ∧
      (TypeMap.mk []).get (.pointerType (.arrayType (.integerType 1) 2) 0) = some a ∧
      1 < 2 ∧ ¬ StrideAgrees ⟨[]⟩ e c q a 2 1 := by
  refine ⟨_, _, _, _, rfl, rfl, rfl, rfl, by decide, fun h => ?_⟩
  obtain ⟨o, ho, ho'⟩ := h.offset
  have hone := congrArg (Option.map Element.bitOffset) ho
  have height := congrArg (Option.map Element.bitOffset) ho'
  rw [Option.map_some, Element.bitOffset] at hone height
  have hdiff := hone.trans height.symm
  revert hdiff
  decide

end AtomicSim
