import AtomicSim.Compile.Folding
import AtomicSim.Compile.Widths

namespace AtomicSim

open OperCompiler (compileOperation)

/-- Each operation is a compiled one on arguments of the classes of its operands, and each value
is as wide as its class. -/
inductive CExpr.WellTyped (tm : TypeMap) : CExpr → Prop
  | const {cls : Class} {v : Value} (hb : tm.Built cls) (hv : v.bits = cls.layout.bits) :
    WellTyped tm (.const cls v)
  | threadLocal {cls : Class} (key : ThreadLocalKey) (hb : tm.Built cls)
    (hw : cls.layout.bits = 64) : WellTyped tm (.threadLocal cls key)
  | apply {oper : COperation} {args : List CExpr} (hop : COperation.Compiled tm oper)
    (hin : oper.input = args.map CExpr.cls) (hb : tm.Built oper.output)
    (hargs : ∀ a ∈ args, WellTyped tm a) : WellTyped tm (.apply oper args)

namespace CExpr

variable {tm : TypeMap} {threadLocalInit : ThreadLocalKey → Option (Layout × Value)}
  {threadid : ThreadId} {e e' : CExpr} {s s' : Locals} {v : Value}

theorem WellTyped.built (h : e.WellTyped tm) : tm.Built e.cls := by
  cases h with
  | const hb _ => exact hb
  | threadLocal _ hb _ => exact hb
  | apply _ _ hb _ => exact hb

theorem bits_evaluateList {args : List CExpr} {vs : List Value}
    (h : ∀ a ∈ args, ∀ s v s', a.evaluate tm threadLocalInit threadid s = some (v, s') →
      v.bits = a.cls.layout.bits)
    (hvs : evaluateList tm threadLocalInit threadid args s = some (vs, s')) :
    List.Forall₂ (fun v (c : Class) => v.bits = c.layout.bits) vs (args.map CExpr.cls) := by
  induction args generalizing s vs with
  | nil =>
    rw [evaluateList] at hvs
    cases hvs
    exact .nil
  | cons a args ih =>
    rw [List.forall_mem_cons] at h
    rw [evaluateList] at hvs
    obtain ⟨⟨v, s₁⟩, hv, hvs⟩ := Option.bind_eq_some_iff.mp hvs
    obtain ⟨⟨rest, s₂⟩, hrest, hvs⟩ := Option.bind_eq_some_iff.mp hvs
    cases hvs
    exact .cons (h.1 _ _ _ hv) (ih h.2 hrest)

theorem WellTyped.bits_evaluate (h : e.WellTyped tm)
    (hv : e.evaluate tm threadLocalInit threadid s = some (v, s')) :
    v.bits = e.cls.layout.bits := by
  induction h generalizing s v s' with
  | const _ hw =>
    rw [evaluate] at hv
    cases hv
    exact hw
  | threadLocal key _ hw =>
    rw [evaluate] at hv
    obtain ⟨⟨ptr, s₁⟩, -, hv⟩ := Option.bind_eq_some_iff.mp hv
    cases hv
    exact hw.symm
  | apply hop hin _ _ ih =>
    rw [evaluate] at hv
    obtain ⟨⟨vs, s₁⟩, hvs, hv⟩ := Option.bind_eq_some_iff.mp hv
    obtain ⟨r, hr, hv⟩ := Option.bind_eq_some_iff.mp hv
    cases hv
    refine hop.bits ?_ hr
    rw [COperation.InputsFit, hin]
    exact bits_evaluateList (fun a ha _ _ _ => ih a ha) hvs

theorem WellTyped.reduceRoot (h : e.WellTyped tm) (he : e.reduceRoot tm = some e') :
    e'.WellTyped tm := by
  cases h with
  | const hb hw =>
    cases he
    exact .const hb hw
  | threadLocal key hb hw =>
    cases he
    exact .threadLocal key hb hw
  | @apply oper args hop hin hb hargs =>
    rw [CExpr.reduceRoot] at he
    cases hvs : args.mapM fun arg => arg.asConst.map Prod.snd with
    | none =>
      rw [hvs] at he
      cases he
      exact .apply hop hin hb hargs
    | some vs =>
      rw [hvs] at he
      obtain ⟨v, hv, rfl⟩ := Option.map_eq_some_iff.mp he
      refine .const hb (hop.bits ?_ hv)
      rw [COperation.InputsFit, hin, List.forall₂_map_right_iff]
      refine (List.forall₂_and_left _ _).mpr ⟨hargs, mapM_eq_some_iff_forall₂.mp hvs⟩ |>.flip.imp ?_
      rintro v a ⟨ha, hav⟩
      obtain ⟨⟨cls, w⟩, hw, rfl⟩ := Option.map_eq_some_iff.mp hav
      cases ha with
      | const _ hbits =>
        cases hw
        exact hbits
      | threadLocal | apply => cases hw

end CExpr

namespace ExprCompiler

variable {x : ExprCompiler} {c : Constant} {e : CExpr} {oper : COperation} {es : List CExpr}

theorem foldlM_gepClassStep_indexOf {tm : TypeMap} {f g : Element} {is : List ℤ}
    {args : List (Class × Option Value)} (his : (args.mapM fun arg => indexOf arg.2) = some is)
    (h : is.foldlM (Class.elementStep tm) f = some g) :
    args.foldlM (gepClassStep tm) f.cls = some g.cls := by
  induction args generalizing is f with
  | nil =>
    cases his
    cases h
    rfl
  | cons arg args ih =>
    rw [List.mapM_cons] at his
    obtain ⟨i, hi, his⟩ := Option.bind_eq_some_iff.mp his
    obtain ⟨is', his', hcons⟩ := Option.bind_eq_some_iff.mp his
    cases hcons
    obtain ⟨f', hstep, hrest⟩ := Option.bind_eq_some_iff.mp h
    obtain ⟨o, hel, -⟩ := elementStep_some hstep
    have hclass : gepClassStep tm f.cls arg = some f'.cls := by
      obtain ⟨d, v⟩ := arg
      cases v with
      | none =>
        cases hi
        rw [gepClassStep_unknown, hel]
        rfl
      | some v =>
        rw [gepClassStep_constant, show v.asI64 = some i from hi, Option.bind_some, hel]
        rfl
    rw [List.foldlM_cons, hclass]
    exact ih his' hrest

theorem compiled_compileGetElementPtr {address : Class × Option Value}
    {args : List (Class × Option Value)} (h : x.compileGetElementPtr (address :: args) = some oper) :
    OperCompiler.compileGetElementPtr x.tm address.1 args = some oper := by
  rw [compileGetElementPtr_cons] at h
  obtain ⟨is, his, h⟩ := Option.bind_eq_some_iff.mp h
  obtain ⟨element, helem, h⟩ := Option.bind_eq_some_iff.mp h
  split_ifs at h
  obtain ⟨out, hout, rfl⟩ := Option.map_eq_some_iff.mp h
  refine Option.bind_eq_some_iff.mpr ⟨_, foldlM_gepClassStep_indexOf his helem, ?_⟩
  exact Option.bind_eq_some_iff.mpr ⟨out, hout, rfl⟩

/-- The names that the compiler gives to operations on constants, with classes of the table. -/
inductive Names (tm : TypeMap) : COperation.Name → Prop
  | binop (name : CBinopName) : Names tm (.binop name)
  | iCmp (predicate : CIntPredicate) : Names tm (.iCmp predicate)
  | fCmp (predicate : CFPPredicate) : Names tm (.fCmp predicate)
  | select : Names tm .select
  | cast (name : CCastName) {target : Class} (ht : tm.Built target) : Names tm (.cast name target)
  | bitCast {target : Class} (ht : tm.Built target) : Names tm (.bitCast target)
  | aggregate {target : Class} (ht : tm.Built target) : Names tm (.aggregate target)

theorem built_targetOf {tm : TypeMap} {d target out : Class} (ht : tm.Built target)
    (h : OperCompiler.targetOf tm d target = some out) : tm.Built out := by
  unfold OperCompiler.targetOf at h
  cases hk : d.kind with
  | vector e n =>
    rw [hk] at h
    exact TypeMap.built_of_get h
  | _ =>
    rw [hk] at h
    exact Option.some.inj h ▸ ht

theorem built_output {tm : TypeMap} {name : COperation.Name} {operands : List Class} {out : Class}
    (hn : Names tm name) (hb : ∀ c ∈ operands, tm.Built c)
    (h : OperCompiler.output tm name operands = some out) : tm.Built out := by
  cases hn with
  | binop name =>
    cases operands with
    | nil => cases h
    | cons d ds =>
      rw [← COperation.allEqual_some hb h d List.mem_cons_self]
      exact hb d List.mem_cons_self
  | iCmp | fCmp =>
    obtain ⟨d, -, h⟩ := Option.bind_eq_some_iff.mp h
    obtain ⟨bool, hbool, h⟩ := Option.bind_eq_some_iff.mp h
    exact built_targetOf (TypeMap.built_of_get hbool) h
  | select =>
    obtain ⟨d, hd, h⟩ := Option.bind_eq_some_iff.mp h
    obtain ⟨d', -, h⟩ := Option.bind_eq_some_iff.mp h
    split_ifs at h
    exact Option.some.inj h ▸ hb d (List.mem_of_getElem? hd)
  | cast name ht =>
    obtain ⟨d, -, h⟩ := Option.bind_eq_some_iff.mp h
    exact built_targetOf ht h
  | bitCast ht => exact Option.some.inj h ▸ ht
  | aggregate ht => exact Option.some.inj h ▸ ht

theorem typed_compileOperation {tm : TypeMap} {name : COperation.Name} {operands : List Class}
    (hn : Names tm name) (hb : ∀ c ∈ operands, tm.Built c)
    (h : compileOperation tm name operands = some oper) :
    COperation.Compiled tm oper ∧ oper.input = operands ∧ tm.Built oper.output := by
  have hcompiled := COperation.Compiled.operation hb h
  obtain ⟨out, hout, hop⟩ := Option.bind_eq_some_iff.mp h
  cases hop
  exact ⟨hcompiled, rfl, built_output hn hb hout⟩

theorem typed_operation (hes : ∀ e ∈ es, x.tm.Built e.cls)
    (h : x.operation c (es.map CExpr.known) = some oper) :
    COperation.Compiled x.tm oper ∧ oper.input = es.map CExpr.cls ∧ x.tm.Built oper.output := by
  have hb : ∀ c ∈ (es.map CExpr.known).map Prod.fst, x.tm.Built c := by
    rw [map_known_fst]
    exact List.forall_mem_map.mpr hes
  rw [← map_known_fst]
  cases c with
  | cast name operand toType =>
    obtain ⟨target, ht, h⟩ := Option.bind_eq_some_iff.mp h
    refine typed_compileOperation ?_ hb h
    cases name <;> first
      | exact .cast _ (TypeMap.built_of_get ht)
      | exact .bitCast (TypeMap.built_of_get ht)
  | struc name values isPacked =>
    cases name with
    | none =>
      obtain ⟨cls, hcls, h⟩ := Option.bind_eq_some_iff.mp h
      exact typed_compileOperation (.aggregate (TypeMap.built_of_get hcls)) hb h
    | some name => cases h
  | array elementType elements =>
    obtain ⟨element, -, h⟩ := Option.bind_eq_some_iff.mp h
    obtain ⟨cls, hcls, h⟩ := Option.bind_eq_some_iff.mp h
    exact typed_compileOperation (.aggregate (TypeMap.built_of_get hcls)) hb h
  | vector elements =>
    obtain ⟨element, -, h⟩ := Option.bind_eq_some_iff.mp h
    obtain ⟨cls, hcls, h⟩ := Option.bind_eq_some_iff.mp h
    exact typed_compileOperation (.aggregate (TypeMap.built_of_get hcls)) hb h
  | getElementPtr address indices =>
    cases es with
    | nil => cases h
    | cons e es =>
      have hop := compiled_compileGetElementPtr h
      obtain ⟨out, -, hout⟩ := Option.bind_eq_some_iff.mp hop
      obtain ⟨cls, hcls, hout⟩ := Option.bind_eq_some_iff.mp hout
      have hcompiled := COperation.Compiled.getElementPtr hop
      cases hout
      exact ⟨hcompiled, rfl, TypeMap.built_of_get hcls⟩
  | select _ _ _ => exact typed_compileOperation .select hb h
  | binop name _ _ => exact typed_compileOperation (.binop _) hb h
  | iCmp predicate _ _ => exact typed_compileOperation (.iCmp predicate) hb h
  | fCmp predicate _ _ => exact typed_compileOperation (.fCmp predicate) hb h
  | _ => cases h

theorem wellTyped_leaf (hc : ¬ c.IsOperation) (h : x.compileConst c = some e) :
    e.WellTyped x.tm := by
  rw [compileConst_leaf hc] at h
  cases c with
  | cast _ _ _ | struc _ _ _ | array _ _ | vector _ | getElementPtr _ _ | select _ _ _
  | binop _ _ _ | iCmp _ _ _ | fCmp _ _ _ => exact absurd trivial hc
  | globalReference name ty =>
    obtain ⟨d, -, h⟩ := Option.bind_eq_some_iff.mp h
    obtain ⟨pointee, -, h⟩ := Option.bind_eq_some_iff.mp h
    obtain ⟨cls, hcls, h⟩ := Option.bind_eq_some_iff.mp h
    have hb := TypeMap.built_of_get hcls
    cases hcls
    cases d with
    | global g =>
      cases h
      exact .const hb rfl
    | threadLocal key =>
      cases h
      exact .threadLocal key hb rfl
  | int bits n =>
    obtain ⟨cls, hcls, h⟩ := Option.bind_eq_some_iff.mp h
    cases h
    have hb := TypeMap.built_of_get hcls
    rw [TypeMap.int, UInt32.ofNat_toNat] at hcls
    obtain ⟨layout, hl, hcls⟩ := Option.bind_eq_some_iff.mp hcls
    cases hcls
    exact .const hb (Layout.ofInt_eq hl bits.toNat_lt.le).1.symm
  | single bits | double bits =>
    rw [compileConstImpl] at h
    obtain ⟨cls, hcls, h⟩ := Option.bind_eq_some_iff.mp h
    cases h
    refine .const (TypeMap.built_of_get hcls) ?_
    cases hcls
    rfl
  | undef typ | null typ | aggregateZero typ =>
    obtain ⟨cls, hcls, h⟩ := Option.bind_eq_some_iff.mp h
    cases h
    exact .const (TypeMap.built_of_get hcls) rfl
  | unsupported => cases h

theorem wellTyped_compileConst (c : Constant) {e : CExpr} (h : x.compileConst c = some e) :
    e.WellTyped x.tm := by
  induction c using Constant.induct generalizing e with
  | _ c ih =>
  by_cases hc : c.IsOperation
  · obtain ⟨es, oper, hes, hop, hred⟩ := compileConst_operation hc h
    have hargs : ∀ e ∈ es, e.WellTyped x.tm := by
      intro e he
      obtain ⟨d, hd, hde⟩ := exists_of_forall₂ (mapM_eq_some_iff_forall₂.mp hes).flip he
      exact ih d hd hde
    obtain ⟨hcompiled, hin, hb⟩ := typed_operation (fun e he => (hargs e he).built) hop
    exact (CExpr.WellTyped.apply hcompiled hin hb hargs).reduceRoot hred
  · exact wellTyped_leaf hc h

/-- The class of a compiled constant is in the table, and whatever a thread finds for the constant
is as wide as that class. -/
theorem compileConst_typed (x : ExprCompiler) (c : Constant) {e : CExpr}
    (h : x.compileConst c = some e) :
    x.tm.Built e.cls ∧ ∀ threadLocalInit threadid s v s',
      e.evaluate x.tm threadLocalInit threadid s = some (v, s') → v.bits = e.cls.layout.bits :=
  ⟨(wellTyped_compileConst c h).built, fun _ _ _ _ _ => (wellTyped_compileConst c h).bits_evaluate⟩

/-- The address of a thread-local symbol, four bytes on, as a number that no thread is asked for
before it is evaluated. -/
theorem compileConst_typed_threadLocal :
    let x : ExprCompiler := ⟨⟨[]⟩, ⟨[(.external "k", .threadLocal 0)]⟩, 0⟩
    let c : Constant := .cast .ptrToInt (.getElementPtr
      (.globalReference (.name "k") (.integerType 32)) [.int 64 1]) (.integerType 32)
    ∃ e, x.compileConst c = some e ∧ e.asConst.isNone ∧
      ∀ threadLocalInit threadid s v s',
        e.evaluate x.tm threadLocalInit threadid s = some (v, s') → v.bits = 32 := by
  intro x c
  have hcls : (x.compileConst c).map (fun e => (e.asConst.isNone, e.cls.layout.bits)) =
      some (true, 32) := by decide +kernel
  obtain ⟨e, he, heq⟩ := Option.map_eq_some_iff.mp hcls
  obtain ⟨hnone, hbits⟩ := Prod.mk.inj heq
  refine ⟨e, he, hnone, fun threadLocalInit threadid s v s' hv => ?_⟩
  exact ((compileConst_typed x c he).2 threadLocalInit threadid s v s' hv).trans hbits

end ExprCompiler
end AtomicSim
