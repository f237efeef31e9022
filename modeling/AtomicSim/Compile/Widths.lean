import AtomicSim.Compile.Aggregate
import AtomicSim.Data

namespace AtomicSim

theorem bits_foldlM {α : Type*} {f : Value → α → Option Value} {l : List α} {v r : Value}
    (hf : ∀ v x r, f v x = some r → r.bits = v.bits) (h : l.foldlM f v = some r) :
    r.bits = v.bits := by
  induction l generalizing v with
  | nil =>
    cases h
    rfl
  | cons x l ih =>
    obtain ⟨w, hw, hrest⟩ := Option.bind_eq_some_iff.mp h
    exact (ih hrest).trans (hf v x w hw)

namespace COperation

/-- As wide as `w`, with nothing after the last bit. -/
def Exact (w : ℕ) (v : Value) : Prop := v.bits = w ∧ v.ZeroPadded

theorem exact_new (w n : ℕ) : Exact w (.new w n) := ⟨rfl, Value.zeroPadded_new w n⟩

theorem exact_ofInt (w : ℕ) (z : ℤ) : Exact w (.ofInt w z) := exact_new w _

theorem exact_ofBool (b : Bool) : Exact 1 (.ofBool b) := exact_new 1 _

theorem exact_ite {w : ℕ} {p : Prop} [Decidable p] {x z : Value} (hx : Exact w x)
    (h : (if p then some x else none) = some z) : Exact w z := by
  split_ifs at h
  exact Option.some.inj h ▸ hx

theorem exact_ite_not {w : ℕ} {p : Prop} [Decidable p] {x z : Value} (hx : Exact w x)
    (h : (if p then none else some x) = some z) : Exact w z := by
  split_ifs at h
  exact Option.some.inj h ▸ hx

theorem exact_unsigned {x y z : Value} (w : ℕ → ℕ) (h1 : w 1 = 1)
    {f₁ : Bool → Bool → Option Value} {f : ℕ → ℕ → ℕ → Option Value}
    (hf₁ : ∀ b c z, f₁ b c = some z → Exact 1 z)
    (hf : ∀ v m n z, f v m n = some z → Exact (w v) z)
    (h : callScalarBinopUnsigned x y f₁ f = some z) : Exact (w x.bits) z := by
  unfold callScalarBinopUnsigned at h
  split_ifs at h with hb hw
  · obtain ⟨b, -, h⟩ := Option.bind_eq_some_iff.mp h
    obtain ⟨c, -, h⟩ := Option.bind_eq_some_iff.mp h
    rw [hb.1, h1]
    exact hf₁ b c z h
  · obtain ⟨m, -, h⟩ := Option.bind_eq_some_iff.mp h
    obtain ⟨n, -, h⟩ := Option.bind_eq_some_iff.mp h
    exact hf _ m n z h

theorem exact_signed {x y z : Value} (w : ℕ → ℕ) {f : ℕ → ℤ → ℤ → Option Value}
    (hf : ∀ v m n z, f v m n = some z → Exact (w v) z)
    (h : callScalarBinopSigned x y f = some z) : Exact (w x.bits) z := by
  unfold callScalarBinopSigned at h
  split_ifs at h with hw
  obtain ⟨m, -, h⟩ := Option.bind_eq_some_iff.mp h
  obtain ⟨n, -, h⟩ := Option.bind_eq_some_iff.mp h
  exact hf _ m n z h

theorem todoBool_exact (b c : Bool) (z : Value) (h : todoBool b c = some z) : Exact 1 z := by
  cases h

theorem some_exact {w : ℕ} {x z : Value} (hx : Exact w x) (h : some x = some z) : Exact w z :=
  Option.some.inj h ▸ hx

theorem exact_of_ne_xchg {name : CBinopName} {x y z : Value} (hn : name ≠ .xchg)
    (h : callScalarBinop name x y = some z) : Exact x.bits z := by
  cases name with
  | xchg => exact absurd rfl hn
  | add | sub | mul =>
    simp only [callScalarBinop] at h
    apply exact_unsigned (fun w => w) rfl todoBool_exact _ h
    exact fun w m n z hz => some_exact (exact_new _ _) hz
  | uDiv | uRem =>
    simp only [callScalarBinop] at h
    apply exact_unsigned (fun w => w) rfl todoBool_exact _ h
    exact fun w m n z hz => exact_ite_not (exact_new _ _) hz
  | sDiv | sRem =>
    simp only [callScalarBinop] at h
    apply exact_signed (fun w => w) _ h
    exact fun w m n z hz => exact_ite_not (exact_ofInt _ _) hz
  | and | or | xor =>
    simp only [callScalarBinop] at h
    apply exact_unsigned (fun w => w) rfl (fun b c z hz => some_exact (exact_ofBool _) hz) _ h
    exact fun w m n z hz => some_exact (exact_new _ _) hz
  | shl =>
    simp only [callScalarBinop] at h
    apply exact_unsigned (fun w => w) rfl todoBool_exact _ h
    exact fun w m n z hz => exact_ite (exact_new _ _) hz
  | lShr =>
    simp only [callScalarBinop, callScalarLShr] at h
    refine exact_ite ?_ h
    refine ⟨rfl, Value.zeroPadded_ofBits fun i hi => ?_⟩
    rw [decide_eq_false (by omega), Bool.false_and]
  | aShr =>
    simp only [callScalarBinop] at h
    apply exact_signed (fun w => w) _ h
    exact fun w m n z hz => exact_ite (exact_ofInt _ _) hz
  | fAdd | fSub | fMul | fDiv | fRem | fNeg => cases h

theorem bits_callScalarBinop {name : CBinopName} {x y z : Value} (hxy : y.bits = x.bits)
    (h : callScalarBinop name x y = some z) : z.bits = x.bits := by
  by_cases hn : name = .xchg
  · rw [hn] at h
    exact Option.some.inj h ▸ hxy
  · exact (exact_of_ne_xchg hn h).1

theorem zeroPadded_callScalarBinop {name : CBinopName} {x y z : Value} (hy : y.ZeroPadded)
    (h : callScalarBinop name x y = some z) : z.ZeroPadded := by
  by_cases hn : name = .xchg
  · rw [hn] at h
    exact Option.some.inj h ▸ hy
  · exact (exact_of_ne_xchg hn h).2

theorem exact_callScalarICmp {predicate : CIntPredicate} {x y z : Value}
    (h : callScalarICmp predicate x y = some z) : Exact 1 z := by
  cases predicate with
  | eq | ne | ugt | uge | ult | ule =>
    simp only [callScalarICmp] at h
    apply exact_unsigned (fun _ => 1) rfl todoBool_exact _ h
    exact fun w m n z hz => some_exact (exact_ofBool _) hz
  | sgt | sge | slt | sle =>
    simp only [callScalarICmp] at h
    apply exact_signed (fun _ => 1) _ h
    exact fun w m n z hz => some_exact (exact_ofBool _) hz

theorem callScalarSext_some {x z : Value} {w : ℕ} (h : callScalarSext x w = some z) :
    z.bits = w ∧ (x.ZeroPadded → z.ZeroPadded) := by
  unfold callScalarSext at h
  split_ifs at h with heq hmem
  · cases h
    exact ⟨heq, id⟩
  · obtain ⟨m, -, hz⟩ := Option.map_eq_some_iff.mp h
    rw [← hz]
    exact ⟨(exact_ofInt w m).1, fun _ => (exact_ofInt w m).2⟩

theorem exact_ucast (x : Value) (l : Layout) : Exact l.bits (x.ucast l) := by
  refine ⟨rfl, Value.zeroPadded_ofBits fun i hi => ?_⟩
  rw [decide_eq_false (by omega), Bool.false_and]

variable {tm : TypeMap} {op : COperation} {inputs : List Value} {v w x r : Value}
  {c : Class}

theorem bits_insert {i : ℤ} (h : v.insert tm c i x = some r) : r.bits = v.bits := by
  obtain ⟨element, -, h⟩ := Option.bind_eq_some_iff.mp h
  split_ifs at h
  exact (Value.insertBits_some h).2.2

theorem bits_extractBits {offset : ℤ} {len : ℕ} (h : v.extractBits offset len = some r) :
    r.bits = len := by
  unfold Value.extractBits at h
  split_ifs at h with hneg hdvd
  · obtain ⟨s, hs, rfl⟩ := Option.map_eq_some_iff.mp h
    unfold Value.slice at hs
    split_ifs at hs with hrange
    cases hs
    show List.length _ * 8 = len
    rw [List.length_drop, List.length_take]
    omega
  · unfold Value.fromBits at h
    split_ifs at h
    cases h
    exact Nat.add_sub_cancel_left _ _

theorem bits_extract {i : ℤ} (h : v.extract tm c i = some r) :
    ∃ element, c.element tm i = some element ∧ r.bits = element.cls.layout.bits := by
  obtain ⟨element, hel, h⟩ := Option.bind_eq_some_iff.mp h
  exact ⟨element, hel, bits_extractBits h⟩

theorem bits_callLane {i : ℕ} (h : op.callLane tm inputs v i = some r) : r.bits = v.bits := by
  obtain ⟨lane, -, h⟩ := Option.bind_eq_some_iff.mp h
  obtain ⟨scalar, -, h⟩ := Option.bind_eq_some_iff.mp h
  exact bits_insert h

/-- The names that are called lane by lane. -/
def Name.IsSimple : Name → Prop
  | .binop _ => True
  | .iCmp _ => True
  | .fCmp _ => True
  | .cast _ _ => True
  | _ => False

theorem callOperation_simple (h : op.name.IsSimple) :
    op.callOperation tm inputs = op.callSimple tm inputs := by
  unfold callOperation
  cases hn : op.name <;> rw [hn] at h <;> first | rfl | cases h

/-- The operations that the compiler makes from classes of the table. -/
inductive Compiled (tm : TypeMap) : COperation → Prop
  | operation {name : Name} {operands : List Class} {op : COperation}
    (hb : ∀ c ∈ operands, tm.Built c)
    (h : OperCompiler.compileOperation tm name operands = some op) : Compiled tm op
  | getElementPtr {address : Class} {indices : List (Class × Option Value)} {op : COperation}
    (h : OperCompiler.compileGetElementPtr tm address indices = some op) : Compiled tm op

def InputsFit (op : COperation) (inputs : List Value) : Prop :=
  List.Forall₂ (fun v (c : Class) => v.bits = c.layout.bits) inputs op.input

theorem InputsFit.get (h : op.InputsFit inputs) {i : ℕ} (hv : inputs[i]? = some v)
    (hc : op.input[i]? = some c) : v.bits = c.layout.bits := by
  obtain ⟨hi, rfl⟩ := List.getElem?_eq_some_iff.mp hv
  obtain ⟨hj, rfl⟩ := List.getElem?_eq_some_iff.mp hc
  exact List.Forall₂.get h hi hj

theorem InputsFit.get_input (h : op.InputsFit inputs) {i : ℕ} (hv : inputs[i]? = some v) :
    ∃ c, op.input[i]? = some c ∧ v.bits = c.layout.bits := by
  obtain ⟨hi, -⟩ := List.getElem?_eq_some_iff.mp hv
  have hlt : i < op.input.length := by rwa [← List.Forall₂.length_eq h]
  exact ⟨op.input[i], List.getElem?_eq_getElem hlt, h.get hv (List.getElem?_eq_getElem hlt)⟩

theorem allEqual_some {operands : List Class} (hb : ∀ c ∈ operands, tm.Built c)
    (h : OperCompiler.allEqual operands = some c) : ∀ d ∈ operands, d = c := by
  cases operands with
  | nil => cases h
  | cons c' cs =>
    have hif : (if (cs.all fun d => d.typ == c'.typ) = true then some c' else none) = some c := h
    split_ifs at hif with hall
    cases hif
    intro d hd
    rcases List.mem_cons.mp hd with rfl | hmem
    · rfl
    · have htyp := List.all_eq_true.mp hall d hmem
      exact (hb d hd).eq_of_typ (hb c List.mem_cons_self) (beq_iff_eq.mp htyp)

theorem kind_vector {e : Class} {n : ℕ} (h : tm.vector e n = some c) :
    ∃ e', c.kind = .vector e' n := by
  obtain ⟨e', -, h⟩ := Option.bind_eq_some_iff.mp h
  exact ⟨e', (TypeMap.typ_vectorClass h).2.1⟩

theorem bits_bool (h : tm.bool = some c) : c.layout.bits = 1 := by
  cases h
  rfl

theorem targetOf_scalar {output target : Class} (hs : ∀ e n, output.kind ≠ .vector e n)
    (h : OperCompiler.targetOf tm c target = some output) : output = target := by
  unfold OperCompiler.targetOf at h
  cases hk : c.kind with
  | vector e n =>
    rw [hk] at h
    obtain ⟨e', he'⟩ := kind_vector h
    exact absurd he' (hs e' n)
  | _ =>
    rw [hk] at h
    exact (Option.some.inj h).symm

theorem bits_callScalar {name : Name} {operands : List Class} {output : Class}
    (hb : ∀ c ∈ operands, tm.Built c)
    (hout : OperCompiler.output tm name operands = some output)
    (hs : ∀ e n, output.kind ≠ .vector e n)
    (hin : InputsFit ⟨name, operands, output⟩ inputs) (hv : callScalar name inputs = some v) :
    v.bits = output.layout.bits := by
  cases name with
  | binop name =>
    obtain ⟨x, hx, hv⟩ := Option.bind_eq_some_iff.mp hv
    obtain ⟨y, hy, hv⟩ := Option.bind_eq_some_iff.mp hv
    have hall := allEqual_some hb hout
    obtain ⟨c, hc, hxc⟩ := hin.get_input hx
    obtain ⟨d, hd, hyd⟩ := hin.get_input hy
    rw [hall c (List.mem_of_getElem? hc)] at hxc
    rw [hall d (List.mem_of_getElem? hd)] at hyd
    exact (bits_callScalarBinop (hyd.trans hxc.symm) hv).trans hxc
  | iCmp predicate =>
    obtain ⟨x, hx, hv⟩ := Option.bind_eq_some_iff.mp hv
    obtain ⟨y, hy, hv⟩ := Option.bind_eq_some_iff.mp hv
    obtain ⟨c, -, hout⟩ := Option.bind_eq_some_iff.mp hout
    obtain ⟨bool, hbool, hout⟩ := Option.bind_eq_some_iff.mp hout
    rw [targetOf_scalar hs hout, bits_bool hbool]
    exact (exact_callScalarICmp hv).1
  | cast name target =>
    obtain ⟨c, -, hout⟩ := Option.bind_eq_some_iff.mp hout
    rw [targetOf_scalar hs hout]
    cases name with
    | sExt =>
      obtain ⟨x, hx, hv⟩ := Option.bind_eq_some_iff.mp hv
      exact (callScalarSext_some hv).1
    | zExt | trunc =>
      obtain ⟨x, hx, hv⟩ := Option.bind_eq_some_iff.mp hv
      cases hv
      rfl
    | _ => cases hv
  | _ => cases hv

theorem bits_callSimple {name : Name} {operands : List Class} {output : Class}
    (hb : ∀ c ∈ operands, tm.Built c)
    (hout : OperCompiler.output tm name operands = some output)
    (hin : InputsFit ⟨name, operands, output⟩ inputs)
    (hv : callSimple tm ⟨name, operands, output⟩ inputs = some v) :
    v.bits = output.layout.bits := by
  unfold callSimple at hv
  cases hk : output.kind with
  | integer | pointer | fp =>
    rw [hk] at hv
    exact bits_callScalar hb hout (fun e n => by rw [hk]; exact fun h => by cases h) hin hv
  | vector e n =>
    rw [hk] at hv
    exact bits_foldlM (fun v i r hr => bits_callLane hr) hv
  | _ =>
    rw [hk] at hv
    cases hv

theorem bits_callGetElementPtr (hn : op.name = .getElementPtr)
    (hv : op.callOperation tm inputs = some v) : v.bits = op.output.layout.bits := by
  rw [callOperation, hn] at hv
  obtain ⟨c, -, hv⟩ := Option.bind_eq_some_iff.mp hv
  obtain ⟨indices, -, hv⟩ := Option.bind_eq_some_iff.mp hv
  obtain ⟨element, -, hv⟩ := Option.bind_eq_some_iff.mp hv
  obtain ⟨p, -, hv⟩ := Option.bind_eq_some_iff.mp hv
  split_ifs at hv
  obtain ⟨ptr, -, hv⟩ := Option.bind_eq_some_iff.mp hv
  cases hv
  rfl

theorem cls_element {i j : ℤ} {e e' : Element} (he : c.element tm i = some e)
    (he' : c.element tm j = some e') (hs : ∀ fields l, c.kind ≠ .struc fields l) :
    e.cls = e'.cls := by
  unfold Class.element at he he'
  cases hk : c.kind with
  | pointer p =>
    rw [hk] at he he'
    obtain ⟨d, hd, he⟩ := Option.bind_eq_some_iff.mp he
    obtain ⟨d', hd', he'⟩ := Option.bind_eq_some_iff.mp he'
    obtain ⟨l, -, he⟩ := Option.bind_eq_some_iff.mp he
    obtain ⟨l', -, he'⟩ := Option.bind_eq_some_iff.mp he'
    obtain ⟨o, -, he⟩ := Option.bind_eq_some_iff.mp he
    obtain ⟨o', -, he'⟩ := Option.bind_eq_some_iff.mp he'
    cases he
    cases he'
    rw [hd] at hd'
    exact Option.some.inj hd'
  | vector d n =>
    rw [hk] at he he'
    replace he : (if d.layout.bitAlign % 8 = 0 then _ else none) = some e := he
    replace he' : (if d.layout.bitAlign % 8 = 0 then _ else none) = some e' := he'
    split_ifs at he he'
    obtain ⟨o, -, he⟩ := Option.bind_eq_some_iff.mp he
    obtain ⟨o', -, he'⟩ := Option.bind_eq_some_iff.mp he'
    cases he
    cases he'
    rfl
  | array d n =>
    rw [hk] at he he'
    obtain ⟨l, -, he⟩ := Option.bind_eq_some_iff.mp he
    obtain ⟨l', -, he'⟩ := Option.bind_eq_some_iff.mp he'
    obtain ⟨o, -, he⟩ := Option.bind_eq_some_iff.mp he
    obtain ⟨o', -, he'⟩ := Option.bind_eq_some_iff.mp he'
    cases he
    cases he'
    rfl
  | struc fields l => exact absurd hk (hs fields l)
  | _ =>
    rw [hk] at he
    cases he

theorem target_struc {e : Class} (h : c.target tm = some e) (fields : List Element) (l : Layout) :
    c.kind ≠ .struc fields l := by
  intro hk
  obtain ⟨element, hel, -⟩ := Option.map_eq_some_iff.mp h
  unfold Class.element at hel
  rw [hk] at hel
  cases hel

theorem bits_callCompiled {name : Name} {operands : List Class} {output : Class}
    (hb : ∀ c ∈ operands, tm.Built c)
    (hout : OperCompiler.output tm name operands = some output)
    (hin : InputsFit ⟨name, operands, output⟩ inputs)
    (hv : callOperation tm ⟨name, operands, output⟩ inputs = some v) :
    v.bits = output.layout.bits := by
  cases name with
  | binop | iCmp | fCmp | cast => exact bits_callSimple hb hout hin hv
  | bitCast target =>
    obtain ⟨x, -, hv⟩ := Option.bind_eq_some_iff.mp hv
    cases hv
    cases hout
    rfl
  | getElementPtr => cases hout
  | extractElement =>
    obtain ⟨c, hc, hv⟩ := Option.bind_eq_some_iff.mp hv
    obtain ⟨x, -, hv⟩ := Option.bind_eq_some_iff.mp hv
    obtain ⟨index, -, hv⟩ := Option.bind_eq_some_iff.mp hv
    obtain ⟨element, hel, hbits⟩ := bits_extract hv
    obtain ⟨d, hd, hout⟩ := Option.bind_eq_some_iff.mp hout
    rw [Option.some.inj (hd.symm.trans hc)] at hout
    obtain ⟨element', hel', hcls⟩ := Option.map_eq_some_iff.mp hout
    rw [hbits, ← hcls, cls_element hel hel' (target_struc hout)]
  | extractValue indices =>
    obtain ⟨c, hc, hv⟩ := Option.bind_eq_some_iff.mp hv
    obtain ⟨x, -, hv⟩ := Option.bind_eq_some_iff.mp hv
    obtain ⟨element, hel, hv⟩ := Option.bind_eq_some_iff.mp hv
    obtain ⟨d, hd, hout⟩ := Option.bind_eq_some_iff.mp hout
    obtain ⟨element', hel', hcls⟩ := Option.bind_eq_some_iff.mp hout
    rw [Option.some.inj (hd.symm.trans hc), hel] at hel'
    rw [bits_extractBits hv, ← Option.some.inj hcls, Option.some.inj hel']
  -- what is inserted into keeps its width
  | insertElement =>
    obtain ⟨c, hc, hv⟩ := Option.bind_eq_some_iff.mp hv
    obtain ⟨x, hx, hv⟩ := Option.bind_eq_some_iff.mp hv
    obtain ⟨y, -, hv⟩ := Option.bind_eq_some_iff.mp hv
    obtain ⟨index, -, hv⟩ := Option.bind_eq_some_iff.mp hv
    obtain ⟨element, -, hv⟩ := Option.bind_eq_some_iff.mp hv
    rw [(Value.insertBits_some hv).2.2]
    exact hin.get hx hout
  | insertValue indices =>
    obtain ⟨c, hc, hv⟩ := Option.bind_eq_some_iff.mp hv
    obtain ⟨x, hx, hv⟩ := Option.bind_eq_some_iff.mp hv
    obtain ⟨y, -, hv⟩ := Option.bind_eq_some_iff.mp hv
    obtain ⟨element, -, hv⟩ := Option.bind_eq_some_iff.mp hv
    rw [(Value.insertBits_some hv).2.2]
    exact hin.get hx hout
  | shuffle indices =>
    obtain ⟨l, -, hv⟩ := Option.bind_eq_some_iff.mp hv
    obtain ⟨l', -, hv⟩ := Option.bind_eq_some_iff.mp hv
    apply bits_foldlM (fun v e r hr => ?_) hv
    obtain ⟨x, -, hr⟩ := Option.bind_eq_some_iff.mp hr
    obtain ⟨c, -, hr⟩ := Option.bind_eq_some_iff.mp hr
    split_ifs at hr
    all_goals
      obtain ⟨lane, -, hr⟩ := Option.bind_eq_some_iff.mp hr
      exact bits_insert hr
  | select =>
    obtain ⟨condition, -, hv⟩ := Option.bind_eq_some_iff.mp hv
    obtain ⟨c, hc, hout⟩ := Option.bind_eq_some_iff.mp hout
    obtain ⟨d, hd, hout⟩ := Option.bind_eq_some_iff.mp hout
    split_ifs at hout with htyp
    -- both values are of the class of the output
    have hcd : c = d :=
      (hb c (List.mem_of_getElem? hc)).eq_of_typ (hb d (List.mem_of_getElem? hd)) htyp
    rw [← Option.some.inj hout]
    split_ifs at hv
    · exact hin.get hv hc
    · rw [hcd]
      exact hin.get hv hd
  | aggregate target =>
    cases hout
    apply bits_foldlM (fun v e r hr => ?_) hv
    obtain ⟨element, -, hr⟩ := Option.bind_eq_some_iff.mp hr
    exact (Value.insertBits_some hr).2.2

theorem Compiled.bits (hop : Compiled tm op) (hin : op.InputsFit inputs)
    (hv : op.callOperation tm inputs = some v) : v.bits = op.output.layout.bits := by
  cases hop with
  | @operation name operands op hb h =>
    obtain ⟨output, hout, hop⟩ := Option.bind_eq_some_iff.mp h
    cases hop
    exact bits_callCompiled hb hout hin hv
  | @getElementPtr address indices op h =>
    obtain ⟨element, -, h⟩ := Option.bind_eq_some_iff.mp h
    obtain ⟨output, -, hop⟩ := Option.bind_eq_some_iff.mp h
    cases hop
    exact bits_callGetElementPtr rfl hv

/-- Operations preserve widths: whatever a compiled operation returns on operands as wide as
their classes is as wide as the class of its result. -/
theorem bits_callOperation (hop : Compiled tm op) (hin : op.InputsFit inputs)
    (hv : op.callOperation tm inputs = some v) : v.bits = op.output.layout.bits :=
  hop.bits hin hv

/-- A comparison of two vectors of three bytes. -/
theorem bits_callOperation_icmp :
    ∃ c op v, (TypeMap.mk []).get (.vectorType (.integerType 8) 3) = some c ∧
      OperCompiler.compileOperation ⟨[]⟩ (.iCmp .ult) [c, c] = some op ∧
      op.callOperation ⟨[]⟩ [.new 24 0x010203, .new 24 0x020202] = some v ∧
      v.bits = op.output.layout.bits := by
  have hsome : (((TypeMap.mk []).get (.vectorType (.integerType 8) 3)).bind fun c =>
      (OperCompiler.compileOperation ⟨[]⟩ (.iCmp .ult) [c, c]).bind fun op =>
        (op.callOperation ⟨[]⟩ [.new 24 0x010203, .new 24 0x020202]).map fun v =>
          (v, c.layout.bits)) = some (.new 3 4, 24) := by decide +kernel
  obtain ⟨c, hc, hrest⟩ := Option.bind_eq_some_iff.mp hsome
  obtain ⟨op, hop, hrest⟩ := Option.bind_eq_some_iff.mp hrest
  obtain ⟨v, hv, hval⟩ := Option.map_eq_some_iff.mp hrest
  have hbits : c.layout.bits = 24 := congrArg Prod.snd hval
  have hinput : op.input = [c, c] := by
    obtain ⟨output, -, hop⟩ := Option.bind_eq_some_iff.mp hop
    exact congrArg COperation.input (Option.some.inj hop).symm
  have hbuilt : ∀ d ∈ [c, c], (TypeMap.mk []).Built d := by
    intro d hd
    rw [List.eq_of_mem_replicate (show d ∈ List.replicate 2 c from hd)]
    exact TypeMap.built_of_get hc
  refine ⟨c, op, v, hc, hop, hv, bits_callOperation (.operation hbuilt hop) ?_ hv⟩
  rw [InputsFit, hinput]
  exact .cons hbits.symm (.cons hbits.symm .nil)

theorem isSome_debug (v : Value) : v.debug.isSome ↔ v.bits = 1 ∨ v.bits % 8 = 0 := by
  unfold Value.debug
  split_ifs with h0 h1 h8
  · simp [h0]
  · simp [h1, Value.unwrapBool, Value.unwrapInt]
  · simp [h8]
  · simp [h1, h8]

/-- The widths that the trace can print. -/
def Printable (op : COperation) : Prop :=
  op.output.layout.bits = 1 ∨ op.output.layout.bits % 8 = 0

/-- A thunk that computes the result of an operation can be stepped exactly when its result can
be printed. -/
theorem step_printable (hop : Compiled tm op) (hin : op.InputsFit inputs)
    (hv : op.callOperation tm inputs = some v) :
    (v.debug.isSome ↔ op.Printable) ∧
      ∀ (p : Process) (t : ThunkInner), t.deps.mapM (Thunk.tryGet p) = some inputs →
        p.value t.threadid t.seq = none →
        t.compute p.memory inputs = some (v, p.memory) →
        ((t.step p).isSome ↔ op.Printable) := by
  have hdebug : v.debug.isSome ↔ op.Printable := by
    rw [isSome_debug, hop.bits hin hv, Printable]
  refine ⟨hdebug, fun p t hdeps hpending hcompute => ?_⟩
  have hstep : t.step p =
      v.debug.bind fun _ => some (p.resolve t v p.memory, true) := by
    simp only [ThunkInner.step, hdeps, hpending, hcompute]
    rfl
  rw [hstep, ← hdebug, Option.isSome_bind]
  cases v.debug <;> rfl

/-- The comparison of two vectors of bytes. -/
def icmpBytes (len : ℕ) : Option (Class × COperation) := do
  let c ← (TypeMap.mk []).get (.vectorType (.integerType 8) len)
  let op ← OperCompiler.compileOperation ⟨[]⟩ (.iCmp .ult) [c, c]
  some (c, op)

theorem icmpBytes_fits {len : ℕ} {x y : Value} (h : icmpBytes len = some (c, op))
    (hx : x.bits = c.layout.bits) (hy : y.bits = c.layout.bits) :
    Compiled ⟨[]⟩ op ∧ op.InputsFit [x, y] := by
  obtain ⟨d, hd, h⟩ := Option.bind_eq_some_iff.mp h
  obtain ⟨op', hop, h⟩ := Option.bind_eq_some_iff.mp h
  cases h
  have hbuilt : ∀ d ∈ [c, c], (TypeMap.mk []).Built d := by
    simpa using TypeMap.built_of_get hd
  refine ⟨.operation hbuilt hop, ?_⟩
  obtain ⟨output, -, hop⟩ := Option.bind_eq_some_iff.mp hop
  cases hop
  exact .cons hx (.cons hy .nil)

/-- Eight lanes make a byte. -/
theorem step_printable_eight :
    ∃ c op v, icmpBytes 8 = some (c, op) ∧
      op.callOperation ⟨[]⟩ [.new 64 1, .new 64 2] = some v ∧ v.debug.isSome := by
  have hsome : ((icmpBytes 8).bind fun e =>
      (e.2.callOperation ⟨[]⟩ [.new 64 1, .new 64 2]).map fun v =>
        (v, e.1.layout.bits, e.2.output.layout.bits)) = some (.new 8 1, 64, 8) := by
    decide +kernel
  obtain ⟨⟨c, op⟩, hop, hrest⟩ := Option.bind_eq_some_iff.mp hsome
  obtain ⟨v, hv, hval⟩ := Option.map_eq_some_iff.mp hrest
  have hc : c.layout.bits = 64 := congrArg (fun x => x.2.1) hval
  have hout : op.output.layout.bits = 8 := congrArg (fun x => x.2.2) hval
  obtain ⟨hcompiled, hfit⟩ :=
    icmpBytes_fits (x := .new 64 1) (y := .new 64 2) hop hc.symm hc.symm
  refine ⟨c, op, v, hop, hv, (step_printable hcompiled hfit hv).1.mpr ?_⟩
  rw [Printable, hout]
  exact Or.inr rfl

/-- Three lanes make three bits, which cannot be printed. -/
theorem not_debug_three :
    ∃ c op v, icmpBytes 3 = some (c, op) ∧ Compiled ⟨[]⟩ op ∧
      op.InputsFit [.new 24 0x010203, .new 24 0x020202] ∧
      op.callOperation ⟨[]⟩ [.new 24 0x010203, .new 24 0x020202] = some v ∧ v.debug = none := by
  have hsome : ((icmpBytes 3).bind fun e =>
      (e.2.callOperation ⟨[]⟩ [.new 24 0x010203, .new 24 0x020202]).map fun v =>
        (v, e.1.layout.bits)) = some (.new 3 4, 24) := by decide +kernel
  obtain ⟨⟨c, op⟩, hop, hrest⟩ := Option.bind_eq_some_iff.mp hsome
  obtain ⟨v, hv, hval⟩ := Option.map_eq_some_iff.mp hrest
  have hc : c.layout.bits = 24 := congrArg Prod.snd hval
  obtain ⟨hcompiled, hfit⟩ :=
    icmpBytes_fits (x := .new 24 0x010203) (y := .new 24 0x020202) hop hc.symm hc.symm
  refine ⟨c, op, v, hop, hcompiled, hfit, hv, ?_⟩
  have hval' : v = .new 3 4 := congrArg Prod.fst hval
  rw [hval']
  decide

end COperation
end AtomicSim
