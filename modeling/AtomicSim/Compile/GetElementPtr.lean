import AtomicSim.Compile.Stride
import AtomicSim.Compile.Widths

namespace AtomicSim

/-- An integer that an `i64` can hold. -/
def FitsI64 (z : ℤ) : Prop := -2 ^ 63 ≤ z ∧ z < 2 ^ 63

instance (z : ℤ) : Decidable (FitsI64 z) := inferInstanceAs (Decidable (_ ∧ _))

@[simp] theorem Element.cls_mk (c : Class) (o : ℤ) : (Element.mk c o).cls = c := rfl

@[simp] theorem Element.bitOffset_mk (c : Class) (o : ℤ) : (Element.mk c o).bitOffset = o := rfl

theorem mulI64_eq {x y : ℤ} (h : FitsI64 (x * y)) : mulI64 x y = some (x * y) :=
  checkI64_eq h.1 h.2

theorem addI64_eq {x y : ℤ} (h : FitsI64 (x + y)) : addI64 x y = some (x + y) :=
  checkI64_eq h.1 h.2

/-- `element` where no multiplication overflows: any index of a pointer, a vector or an array,
and a field that is there. -/
def Class.elementAt (tm : TypeMap) (c : Class) (index : ℤ) : Option Element :=
  match c.kind with
  | .pointer pointee => (tm.get pointee).map fun d => .mk d (asI64 (stride d) * index)
  | .vector element _ => some (.mk element (asI64 element.layout.bits * index))
  | .struc fields _ => if index < 0 then none else fields[index.toNat]?
  | _ => none

/-- The indices lead from one element to another, and the offset of each step and the sum so far
fit in an `i64` and are whole bytes. -/
inductive Leads (tm : TypeMap) : Element → List ℤ → Element → Prop
  | nil (e : Element) : Leads tm e [] e
  | cons {e g f : Element} {k : ℤ} {ks : List ℤ} (hg : e.cls.elementAt tm k = some g)
    (hstep : FitsI64 g.bitOffset) (hsum : FitsI64 (e.bitOffset + g.bitOffset))
    (h8 : (e.bitOffset + g.bitOffset) % 8 = 0)
    (hrest : Leads tm (.mk g.cls (e.bitOffset + g.bitOffset)) ks f) : Leads tm e (k :: ks) f

variable {tm : TypeMap} {a b c d e f : Class} {k o o' o₂ : ℤ} {ks ls : List ℤ}

theorem elementAt_zero {t : TypeRef} {s : ℕ} (he : tm.get t = some e)
    (hb : tm.get (.pointerType t s) = some b) : b.elementAt tm 0 = some (.mk e 0) := by
  rw [pointer_of_get hb]
  simp [Class.elementAt, Class.kind, he]

theorem TypeMap.Built.elementAt (h : tm.Built c) {g : Element} (hg : c.elementAt tm k = some g) :
    tm.Built g.cls := by
  unfold Class.elementAt at hg
  cases hk : c.kind <;> simp only [hk, reduceCtorEq] at hg
  case pointer pointee =>
    obtain ⟨d, hd, rfl⟩ := Option.map_eq_some_iff.mp hg
    exact TypeMap.built_of_get hd
  case vector element n =>
    rw [← Option.some.inj hg]
    apply h.of_parts
    simp [Class.parts, hk, Element.cls]
  case struc fields l =>
    split_ifs at hg
    apply h.of_parts
    simp only [Class.parts, hk]
    exact List.mem_map_of_mem (List.mem_of_getElem? hg)

theorem TypeMap.Built.element_of_elementAt (h : tm.Built c) {g : Element}
    (hg : c.elementAt tm k = some g) (hfit : FitsI64 g.bitOffset) :
    c.element tm k = some g := by
  have hpart := h.elementAt hg
  unfold Class.elementAt at hg
  cases hk : c.kind <;> simp only [hk, reduceCtorEq] at hg
  case pointer pointee =>
    obtain ⟨d, hd, rfl⟩ := Option.map_eq_some_iff.mp hg
    rw [Element.bitOffset_mk] at hfit
    rw [element_of_pointer hk hd, mulI64_eq hfit, Option.map_some]
  case vector element n =>
    cases Option.some.inj hg
    rw [Element.cls_mk] at hpart
    rw [Element.bitOffset_mk] at hfit
    simp [Class.element, hk, hpart.aligned.dvd, mulI64_eq hfit]
  case struc fields l =>
    unfold Class.element
    rw [hk]
    exact hg

/-- The loop of `element_rec`, where everything fits. -/
theorem Leads.foldlM {e f : Element} (h : Leads tm e ks f) (hb : tm.Built e.cls) :
    ks.foldlM (Class.elementStep tm) e = some f := by
  induction h with
  | nil e => rfl
  | @cons e g f k ks hg hstep hsum h8 hrest ih =>
    have hel := hb.element_of_elementAt hg hstep
    have hadd : addI64 e.bitOffset g.bitOffset = some (e.bitOffset + g.bitOffset) :=
      addI64_eq hsum
    have hturn : Class.elementStep tm e k = some (.mk g.cls (e.bitOffset + g.bitOffset)) := by
      rw [Class.elementStep, hel]
      show (addI64 e.bitOffset g.bitOffset).bind _ = _
      rw [hadd]
      rfl
    have hpart : tm.Built g.cls := hb.elementAt hg
    rw [List.foldlM_cons, hturn]
    exact ih hpart

theorem Leads.elementRec (h : Leads tm (.mk a 0) ks (.mk e o)) (ha : tm.Built a) :
    a.elementRec tm ks = some (.mk e o) := h.foldlM ha

theorem Leads.built {e f : Element} (h : Leads tm e ks f) (hb : tm.Built e.cls) :
    tm.Built f.cls := by
  induction h with
  | nil e => exact hb
  | @cons e g f k ks hg _ _ _ _ ih =>
    have hpart : tm.Built g.cls := hb.elementAt hg
    exact ih hpart

theorem Leads.mod_eight {e f : Element} (h : Leads tm e ks f) (he : e.bitOffset % 8 = 0) :
    f.bitOffset % 8 = 0 := by
  induction h with
  | nil e => exact he
  | cons _ _ _ h8 _ ih => exact ih h8

theorem Leads.append {e f g : Element} (h : Leads tm e ks f) (h' : Leads tm f ls g) :
    Leads tm e (ks ++ ls) g := by
  induction h with
  | nil e => exact h'
  | cons hg hstep hsum h8 _ ih => exact .cons hg hstep hsum h8 (ih h')

/-- The classes reached do not depend on the offset, and the offsets add up. -/
theorem Leads.shift {e e' f f' : Element} (h : Leads tm e ks f) (h' : Leads tm e' ks f')
    (hcls : e.cls = e'.cls) :
    f.cls = f'.cls ∧ f.bitOffset - e.bitOffset = f'.bitOffset - e'.bitOffset := by
  induction h generalizing e' with
  | nil e =>
    cases h'
    exact ⟨hcls, by omega⟩
  | @cons e g f k ks hg _ _ _ _ ih =>
    cases h' with
    | @cons _ g' _ _ _ hg' _ _ _ hrest' =>
      rw [← hcls, hg] at hg'
      cases Option.some.inj hg'
      obtain ⟨hf, hoff⟩ := ih hrest' rfl
      refine ⟨hf, ?_⟩
      simp only [Element.bitOffset] at hoff
      simp only [Element.bitOffset]
      omega

theorem addU64I64_eq {x : ℕ} {y : ℤ} (h0 : 0 ≤ (x : ℤ) + y) (h : (x : ℤ) + y < 2 ^ 64) :
    addU64I64 x y = some ((x : ℤ) + y).toNat := by
  by_cases hneg : y < 0
  · rw [addU64I64, if_pos hneg, if_pos (by omega)]
    congr 1
    omega
  · have hfit : x + y.toNat < 2 ^ 64 := by omega
    rw [addU64I64, if_neg hneg, addU64, if_pos hfit]
    congr 1
    omega

theorem asU64_new {x : ℕ} (h : x < 2 ^ 64) : (Value.new 64 x).asU64 = x := by
  rw [Value.asU64, Value.asU128_new (by omega)]
  omega

theorem gep_of_leads {indices : List (Class × Value)} (ha : tm.Built a)
    (hks : (indices.map Prod.snd).mapM Value.asI64 = some ks)
    (h : Leads tm (.mk a 0) ks (.mk e o)) {p : Value} (h0 : 0 ≤ (p.asU64 : ℤ) + o / 8)
    (hlt : (p.asU64 : ℤ) + o / 8 < 2 ^ 64) :
    gep tm a indices p = some (.new 64 ((p.asU64 : ℤ) + o / 8).toNat) := by
  obtain ⟨out, hout⟩ : ∃ out, tm.ptr e = some out := ⟨_, rfl⟩
  have hbits : out.layout.bits = 64 := by rw [pointer_of_get hout]; rfl
  have h8 : o % 8 = 0 := h.mod_eight rfl
  rw [gep_eq hks (h.elementRec ha) hout, if_pos h8, addU64I64_eq h0 hlt, Option.map_some, hbits]

/-- Stepping from the pointer that a first `GetElementPtr` returns is stepping on. -/
theorem gep_gep {t : TypeRef} {s : ℕ} {is js : List (Class × Value)} {z p : Value} {d : Class}
    (ha : tm.get (.pointerType t s) = some a)
    (his : (is.map Prod.snd).mapM Value.asI64 = some ks)
    (hjs : (js.map Prod.snd).mapM Value.asI64 = some ls) (hz : z.asI64 = some 0)
    (h : Leads tm (.mk a 0) ks (.mk e o)) (h' : Leads tm (.mk e o) ls (.mk f o'))
    (h₂ : Leads tm (.mk e 0) ls (.mk c o₂))
    (hp : 0 ≤ (p.asU64 : ℤ) + o / 8 ∧ (p.asU64 : ℤ) + o / 8 < 2 ^ 64)
    (hp' : 0 ≤ (p.asU64 : ℤ) + o' / 8 ∧ (p.asU64 : ℤ) + o' / 8 < 2 ^ 64) :
    ∃ b q r, tm.ptr e = some b ∧ gep tm a is p = some q ∧
      gep tm b ((d, z) :: js) q = some r ∧ gep tm a (is ++ js) p = some r := by
  have hbuilt : tm.Built a := TypeMap.built_of_get ha
  have he : tm.get e.typ = some e := h.built hbuilt
  obtain ⟨b, hb⟩ : ∃ b, tm.ptr e = some b := ⟨_, rfl⟩
  have hfirst : Leads tm (.mk b 0) [0] (.mk e 0) := by
    have hzero : FitsI64 0 := by unfold FitsI64; omega
    exact .cons (elementAt_zero (b := b) he hb) hzero hzero rfl (.nil _)
  have hsecond : Leads tm (.mk b 0) (0 :: ls) (.mk c o₂) := hfirst.append h₂
  have hwhole : Leads tm (.mk a 0) (ks ++ ls) (.mk f o') := h.append h'
  have hzjs : (((d, z) :: js).map Prod.snd).mapM Value.asI64 = some (0 :: ls) := by
    rw [List.map_cons, List.mapM_cons, hz, hjs]
    rfl
  have hisjs : ((is ++ js).map Prod.snd).mapM Value.asI64 = some (ks ++ ls) := by
    rw [List.map_append, List.mapM_append, his, hjs]
    rfl
  obtain ⟨-, hoff⟩ := h'.shift h₂ rfl
  simp only [Element.bitOffset] at hoff
  have ho : o % 8 = 0 := h.mod_eight rfl
  have hq : (Value.new 64 ((p.asU64 : ℤ) + o / 8).toNat).asU64 =
      ((p.asU64 : ℤ) + o / 8).toNat := by
    apply asU64_new
    omega
  refine ⟨b, _, _, hb, gep_of_leads hbuilt his h hp.1 hp.2, ?_,
    gep_of_leads hbuilt hisjs hwhole hp'.1 hp'.2⟩
  have hsum : (((p.asU64 : ℤ) + o / 8).toNat : ℤ) + o₂ / 8 = (p.asU64 : ℤ) + o' / 8 := by omega
  rw [gep_of_leads (TypeMap.built_of_get hb) hzjs hsecond] <;> rw [hq, hsum]
  · exact hp'.1
  · exact hp'.2

theorem compileGetElementPtr_eq (a : Class) (indices : List (Class × Option Value)) :
    OperCompiler.compileGetElementPtr tm a indices =
      (indices.foldlM (gepClassStep tm) a).bind fun e => (tm.ptr e).map fun out =>
        ⟨.getElementPtr, a :: indices.map Prod.fst, out⟩ := by
  simp only [Option.map_eq_bind]
  rfl

/-- The values of the indices at run time; a constant has its own. -/
def RunsWith (indices : List (Class × Option Value)) (vs : List Value) : Prop :=
  List.Forall₂ (fun index v => ∀ c ∈ index.2, v = c) indices vs

theorem gepClassStep_constant (c d : Class) (v : Value) :
    gepClassStep tm c (d, some v) =
      v.asI64.bind fun i => (c.element tm i).map Element.cls := by
  simp only [Option.map_eq_bind]
  rfl

theorem gepClassStep_unknown (c d : Class) :
    gepClassStep tm c (d, none) = (c.element tm (-1)).map Element.cls := by
  simp only [Option.map_eq_bind]
  rfl

/-- The compiler walks to the class that is reached whatever the variable indices are. -/
theorem foldlM_gepClassStep_runsWith {indices : List (Class × Option Value)} {vs : List Value}
    {g h : Element} (hvs : RunsWith indices vs) (hks : vs.mapM Value.asI64 = some ks)
    (hcls : indices.foldlM (gepClassStep tm) g.cls = some c)
    (hrun : ks.foldlM (Class.elementStep tm) g = some h) : h.cls = c := by
  induction hvs generalizing ks g with
  | nil =>
    cases hks
    cases hrun
    exact Option.some.inj hcls
  | @cons index v indices vs hv hvs ih =>
    rw [List.mapM_cons] at hks
    obtain ⟨k, hk, hks⟩ := Option.bind_eq_some_iff.mp hks
    obtain ⟨ks', hks', hcons⟩ := Option.bind_eq_some_iff.mp hks
    cases hcons
    obtain ⟨c', hstep, hrest⟩ := Option.bind_eq_some_iff.mp hcls
    obtain ⟨g', hturn, hrest'⟩ := Option.bind_eq_some_iff.mp hrun
    obtain ⟨o, hel, -⟩ := elementStep_some hturn
    have hnext : g'.cls = c' := by
      obtain ⟨d, x⟩ := index
      cases x with
      | some x =>
        -- a constant index picks the same element
        rw [gepClassStep_constant, ← hv x rfl, hk, Option.bind_some, hel, Option.map_some,
          Element.cls_mk] at hstep
        exact Option.some.inj hstep
      | none =>
        -- a variable index cannot pick a field
        rw [gepClassStep_unknown] at hstep
        obtain ⟨element, helement, rfl⟩ := Option.map_eq_some_iff.mp hstep
        have hs : ∀ fields l, g.cls.kind ≠ .struc fields l := by
          intro fields l hkind
          simp [Class.element, hkind] at helement
        have hcls := COperation.cls_element hel helement hs
        rwa [Element.cls_mk] at hcls
    rw [← hnext] at hrest
    exact ih hks' hrest hrest'

/-- What the compiler knows about the indices: a constant is itself, and a variable stands where
`-1` can be asked for. -/
inductive Known (tm : TypeMap) : Class → List (Class × Option Value) → List ℤ → Prop
  | nil (c : Class) : Known tm c [] []
  | constant {c d : Class} {g : Element} {v : Value} {k : ℤ} {indices : List (Class × Option Value)}
    {ks : List ℤ} (hv : v.asI64 = some k) (hg : c.elementAt tm k = some g)
    (hrest : Known tm g.cls indices ks) : Known tm c ((d, some v) :: indices) (k :: ks)
  | unknown {c d : Class} {g g' : Element} {k : ℤ} {indices : List (Class × Option Value)}
    {ks : List ℤ} (hg : c.elementAt tm k = some g) (hg' : c.elementAt tm (-1) = some g')
    (hfit : FitsI64 g'.bitOffset) (hrest : Known tm g.cls indices ks) :
    Known tm c ((d, none) :: indices) (k :: ks)

theorem elementAt_cls {g g' : Element} {i : ℤ} (hg : c.elementAt tm k = some g)
    (hg' : c.elementAt tm i = some g') (hs : ∀ fields l, c.kind ≠ .struc fields l) :
    g.cls = g'.cls := by
  unfold Class.elementAt at hg hg'
  cases hk : c.kind <;> simp only [hk, reduceCtorEq] at hg hg'
  case pointer pointee =>
    obtain ⟨d, hd, rfl⟩ := Option.map_eq_some_iff.mp hg
    obtain ⟨d', hd', rfl⟩ := Option.map_eq_some_iff.mp hg'
    exact Option.some.inj (hd.symm.trans hd')
  case vector element n =>
    rw [← Option.some.inj hg, ← Option.some.inj hg', Element.cls_mk, Element.cls_mk]
  case struc fields l => exact absurd hk (hs fields l)

theorem foldlM_gepClassStep_known {indices : List (Class × Option Value)} {g h : Element}
    (hk : Known tm g.cls indices ks) (hb : tm.Built g.cls) (hl : Leads tm g ks h) :
    indices.foldlM (gepClassStep tm) g.cls = some h.cls := by
  induction hl generalizing indices with
  | nil g =>
    cases hk
    rfl
  | @cons g g₁ h k ks hg hstep hsum h8 hrest ih =>
    have hpart : tm.Built g₁.cls := hb.elementAt hg
    have hnext : ∃ index indices', indices = index :: indices' ∧ Known tm g₁.cls indices' ks ∧
        gepClassStep tm g.cls index = some g₁.cls := by
      cases hk with
      | constant hv hg' hrest' =>
        rw [hg] at hg'
        cases Option.some.inj hg'
        refine ⟨_, _, rfl, hrest', ?_⟩
        have hel := hb.element_of_elementAt hg hstep
        simp [gepClassStep_constant, hv, hel]
      | @unknown _ _ _ g' _ _ _ hg₀ hg' hfit hrest' =>
        rw [hg] at hg₀
        cases Option.some.inj hg₀
        refine ⟨_, _, rfl, hrest', ?_⟩
        have hel := hb.element_of_elementAt hg' hfit
        have hs : ∀ fields l, g.cls.kind ≠ .struc fields l := by
          intro fields l hkind
          simp [Class.elementAt, hkind] at hg'
        simp [gepClassStep_unknown, hel, elementAt_cls hg hg' hs]
    obtain ⟨index, indices', rfl, hknown, hclass⟩ := hnext
    rw [List.foldlM_cons, hclass]
    exact ih hknown hpart

theorem getElementPtr_composes {t : TypeRef} {s : ℕ} (ha : tm.get (.pointerType t s) = some a) :
    (∀ (is js : List (Class × Value)) (z p : Value) (d e f c : Class) (ks ls : List ℤ)
      (o o' o₂ : ℤ), (is.map Prod.snd).mapM Value.asI64 = some ks →
      (js.map Prod.snd).mapM Value.asI64 = some ls → z.asI64 = some 0 →
      Leads tm (.mk a 0) ks (.mk e o) → Leads tm (.mk e o) ls (.mk f o') →
      Leads tm (.mk e 0) ls (.mk c o₂) →
      (0 ≤ (p.asU64 : ℤ) + o / 8 ∧ (p.asU64 : ℤ) + o / 8 < 2 ^ 64) →
      (0 ≤ (p.asU64 : ℤ) + o' / 8 ∧ (p.asU64 : ℤ) + o' / 8 < 2 ^ 64) →
      ∃ b q r, tm.ptr e = some b ∧ gep tm a is p = some q ∧
        gep tm b ((d, z) :: js) q = some r ∧ gep tm a (is ++ js) p = some r) ∧
    ∀ indices : List (Class × Option Value),
      (∀ (ks : List ℤ) (e : Class) (o : ℤ), Leads tm (.mk a 0) ks (.mk e o) →
        Known tm a indices ks →
        ∃ op, OperCompiler.compileGetElementPtr tm a indices = some op) ∧
      ∀ (op : COperation) (vs : List Value) (ks : List ℤ) (e : Class) (o : ℤ),
        OperCompiler.compileGetElementPtr tm a indices = some op → RunsWith indices vs →
        vs.mapM Value.asI64 = some ks → a.elementRec tm ks = some (.mk e o) →
        tm.ptr e = some op.output := by
  refine ⟨?_, fun indices => ⟨?_, ?_⟩⟩
  · intro is js z p d e f c ks ls o o' o₂ his hjs hz h h' h₂ hp hp'
    exact gep_gep ha his hjs hz h h' h₂ hp hp'
  · intro ks e o hl hk
    have hcls := foldlM_gepClassStep_known hk (TypeMap.built_of_get ha) hl
    obtain ⟨out, hout⟩ : ∃ out, tm.ptr e = some out := ⟨_, rfl⟩
    rw [Element.cls_mk, Element.cls_mk] at hcls
    rw [compileGetElementPtr_eq, hcls, Option.bind_some, hout]
    exact ⟨_, rfl⟩
  · intro op vs ks e o hop hvs hks hrec
    rw [compileGetElementPtr_eq] at hop
    obtain ⟨c, hcls, hop⟩ := Option.bind_eq_some_iff.mp hop
    obtain ⟨out, hout, rfl⟩ := Option.map_eq_some_iff.mp hop
    have hreached := foldlM_gepClassStep_runsWith (g := .mk a 0) hvs hks hcls hrec
    rw [Element.cls_mk] at hreached
    rw [hreached, hout]

/-- The second of two arrays of four words, and from there two words back. -/
theorem getElementPtr_composes_back :
    ∃ a b q r, (TypeMap.mk []).get (.pointerType (.arrayType (.integerType 32) 4) 0) = some a ∧
      gep ⟨[]⟩ a [(a, .new 64 1)] (.new 64 100) = some q ∧
      gep ⟨[]⟩ b [(a, .new 64 0), (a, .ofInt 64 (-2))] q = some r ∧
      gep ⟨[]⟩ a [(a, .new 64 1), (a, .ofInt 64 (-2))] (.new 64 100) = some r := by
  obtain ⟨a, ha⟩ : ∃ a, (TypeMap.mk []).get (.pointerType (.arrayType (.integerType 32) 4) 0) =
      some a := ⟨_, rfl⟩
  obtain ⟨c, hc⟩ : ∃ c, (TypeMap.mk []).get (.arrayType (.integerType 32) 4) = some c := ⟨_, rfl⟩
  obtain ⟨w, hw⟩ : ∃ w, (TypeMap.mk []).get (.integerType 32) = some w := ⟨_, rfl⟩
  have hbits : w.layout.bits = 32 := by
    cases hw
    rfl
  have hstride : stride c = 128 := by
    cases hc
    rfl
  have hwords : c.elementAt ⟨[]⟩ (-2) = some (.mk w (-64)) := by
    simp [Class.elementAt, (array_of_get hw hc).1, hbits, asI64_eq]
  have harrays : a.elementAt ⟨[]⟩ 1 = some (.mk c 128) := by
    simp [Class.elementAt, pointer_of_get ha, Class.kind, hc, hstride, asI64_eq]
  have hfirst : Leads ⟨[]⟩ (.mk a 0) [1] (.mk c 128) := by
    apply Leads.cons harrays <;> simp [FitsI64]
    exact .nil _
  have hback : Leads ⟨[]⟩ (.mk c 128) [-2] (.mk w 64) := by
    apply Leads.cons hwords <;> simp [FitsI64]
    exact .nil _
  have hback' : Leads ⟨[]⟩ (.mk c 0) [-2] (.mk w (-64)) := by
    apply Leads.cons hwords <;> simp [FitsI64]
    exact .nil _
  have hone : [Value.new 64 1].mapM Value.asI64 = some [1] := by decide
  have hminus : [Value.ofInt 64 (-2)].mapM Value.asI64 = some [-2] := by decide
  obtain ⟨b, q, r, -, hq, hr, hr'⟩ := (getElementPtr_composes ha).1 [(a, .new 64 1)]
    [(a, .ofInt 64 (-2))] (.new 64 0) (.new 64 100) a c w w [1] [-2] 128 64 (-64) hone hminus
    (by decide) hfirst hback hback' (by decide) (by decide)
  exact ⟨a, b, q, r, ha, hq, hr, hr'⟩

end AtomicSim
