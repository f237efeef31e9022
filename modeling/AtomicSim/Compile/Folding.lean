import AtomicSim.Compile.Expr
import AtomicSim.Compile.GetElementPtr
import AtomicSim.Lib.Related

namespace AtomicSim

namespace Constant

def IsOperation : Constant → Prop
  | int _ _ | globalReference _ _ | undef _ | null _ | aggregateZero _ | single _ | double _
  | unsupported => False
  | _ => True

theorem operands_of_not (c : Constant) (h : ¬ c.IsOperation) : c.operands = [] := by
  cases c <;> first | rfl | exact absurd trivial h

theorem sizeOf_operand {c d : Constant} (h : d ∈ c.operands) : sizeOf d < sizeOf c := by
  cases c with
  | struc name cs isPacked | array elementType cs | vector cs =>
    have hlt := List.sizeOf_lt_of_mem h
    simp only [operands, struc.sizeOf_spec, array.sizeOf_spec, vector.sizeOf_spec] at *
    omega
  | getElementPtr address indices =>
    simp only [operands, List.mem_cons, getElementPtr.sizeOf_spec] at *
    rcases h with rfl | h
    · omega
    · have hlt := List.sizeOf_lt_of_mem h
      omega
  | _ =>
    simp only [operands, List.mem_cons, List.not_mem_nil, or_false] at h
    all_goals
      rcases h with rfl | rfl | rfl
    all_goals
      simp only [cast.sizeOf_spec, select.sizeOf_spec, binop.sizeOf_spec, iCmp.sizeOf_spec,
        fCmp.sizeOf_spec]
      omega

/-- What holds of a constant as soon as it holds of the operands holds of every constant. -/
theorem induct {P : Constant → Prop} (h : ∀ c, (∀ d ∈ c.operands, P d) → P c) (c : Constant) :
    P c :=
  h c fun d _ => induct h d
termination_by sizeOf c
decreasing_by exact sizeOf_operand ‹_›

end Constant

section Typed

variable (tm : TypeMap) (threadLocalInit : ThreadLocalKey → Option (Layout × Value))
  (threadid : ThreadId)

def CExpr.typed (e : CExpr) : StateT Locals Option (Class × Value) :=
  (fun v => (e.cls, v)) <$> e.evaluate tm threadLocalInit threadid

@[simp] theorem CExpr.typed_const (cls : Class) (v : Value) :
    (CExpr.const cls v).typed tm threadLocalInit threadid = pure (cls, v) := by
  rw [typed, evaluate, map_pure]
  rfl

@[simp] theorem CExpr.typed_threadLocal (cls : Class) (key : ThreadLocalKey) :
    (CExpr.threadLocal cls key).typed tm threadLocalInit threadid = (do
      let ptr ← AtomicSim.threadLocal threadLocalInit threadid key
      pure (cls, .new 64 ptr)) := by
  simp only [typed, evaluate, map_bind, map_pure]
  rfl

end Typed

/-- What the compiler knows of an operand: its class, and its value when it is a constant. -/
def CExpr.known (e : CExpr) : Class × Option Value := (e.cls, e.asConst.map Prod.snd)

namespace ExprCompiler

variable (x : ExprCompiler) (threadLocalInit : ThreadLocalKey → Option (Layout × Value))
  (threadid : ThreadId)

theorem compileConsts_eq (cs : List Constant) :
    x.compileConsts cs = cs.mapM x.compileConst := by
  induction cs with
  | nil => rfl
  | cons c cs ih =>
    rw [List.mapM_cons, ← ih, compileConsts, compileConst, bind_assoc]
    rfl

theorem valueList_eq (cs : List Constant) :
    x.valueList threadLocalInit threadid cs = cs.mapM (x.value threadLocalInit threadid) := by
  induction cs with
  | nil => rfl
  | cons c cs ih => rw [List.mapM_cons, ← ih, valueList]

theorem evaluateList_eq (tm : TypeMap) (es : List CExpr) :
    CExpr.evaluateList tm threadLocalInit threadid es =
      es.mapM (CExpr.evaluate tm threadLocalInit threadid) := by
  induction es with
  | nil => rfl
  | cons e es ih => rw [List.mapM_cons, ← ih, CExpr.evaluateList]

variable {x threadLocalInit threadid}

theorem compileConstImpl_operation {c : Constant} (h : c.IsOperation) :
    x.compileConstImpl c = (do
      let es ← c.operands.mapM x.compileConst
      let oper ← x.operation c (es.map CExpr.known)
      some (.apply oper es)) := by
  have hclasses (es : List CExpr) : (es.map CExpr.known).map Prod.fst = es.map CExpr.cls := by
    rw [List.map_map]
    rfl
  cases c with
  | int _ _ | globalReference _ _ | undef _ | null _ | aggregateZero _ | single _ | double _
  | unsupported => exact h.elim
  | cast name operand toType =>
    -- the target is looked up before the operand is compiled, which shows only in a panic
    cases htarget : x.tm.get toType <;>
      simp [compileConstImpl, Constant.operands, compileConst, operation, apply, Option.bind_assoc,
        CExpr.known, htarget]
  | struc name values isPacked =>
    cases name <;>
      simp [compileConstImpl, Constant.operands, compileConsts_eq, operation, apply, hclasses,
        Option.bind_assoc]
  | array elementType elements =>
    simp [compileConstImpl, Constant.operands, compileConsts_eq, operation, apply, hclasses,
      Option.bind_assoc]
  | vector elements =>
    simp [compileConstImpl, Constant.operands, compileConsts_eq, operation, apply, hclasses,
      Option.bind_assoc, Option.bind_map]
  | getElementPtr address indices =>
    simp [compileConstImpl, Constant.operands, compileConsts_eq, operation, compileConst,
      Option.bind_assoc, CExpr.known]
    rfl
  | _ =>
    simp [compileConstImpl, Constant.operands, compileConst, operation, apply, CExpr.known,
      Option.bind_assoc]

theorem value_operation {c : Constant} (h : c.IsOperation) :
    x.value threadLocalInit threadid c = (do
      let args ← c.operands.mapM (x.value threadLocalInit threadid)
      x.call c args) := by
  cases c with
  | int _ _ | globalReference _ _ | undef _ | null _ | aggregateZero _ | single _ | double _
  | unsupported => exact h.elim
  | struc _ _ _ | array _ _ | vector _ =>
    rw [value, valueList_eq, Constant.operands]
  | _ =>
    simp [value, valueList_eq, Constant.operands, List.mapM_cons, bind_assoc]

/-- A constant without operands is a constant or a thread-local symbol, and nothing is left to
reduce. -/
theorem compileConst_leaf {c : Constant} (h : ¬ c.IsOperation) :
    x.compileConst c = x.compileConstImpl c := by
  cases c with
  | cast _ _ _ | struc _ _ _ | array _ _ | vector _ | getElementPtr _ _ | select _ _ _
  | binop _ _ _ | iCmp _ _ _ | fCmp _ _ _ => exact absurd trivial h
  | globalReference name ty =>
    simp only [compileConst, compileConstImpl]
    cases x.lookup name with
    | none => rfl
    | some d =>
      cases x.tm.get ty with
      | none => rfl
      | some pointee =>
        cases hcls : x.tm.ptr pointee with
        | none => simp [hcls]
        | some cls => cases d <;> simp [hcls, CExpr.reduceRoot]
  | int bits n =>
    cases h : x.tm.int bits.toNat <;> simp [compileConst, compileConstImpl, h, CExpr.reduceRoot]
  | single bits =>
    cases h : x.tm.float .single <;> simp [compileConst, compileConstImpl, h, CExpr.reduceRoot]
  | double bits =>
    cases h : x.tm.float .double <;> simp [compileConst, compileConstImpl, h, CExpr.reduceRoot]
  | undef typ | null typ | aggregateZero typ =>
    cases h : x.tm.get typ <;> simp [compileConst, compileConstImpl, zero, h, CExpr.reduceRoot]
  | unsupported => rfl

theorem value_leaf {c : Constant} (h : ¬ c.IsOperation) :
    x.value threadLocalInit threadid c = (do
      let e ← x.compileConst c
      e.typed x.tm threadLocalInit threadid) := by
  rw [compileConst_leaf h]
  cases c with
  | cast _ _ _ | struc _ _ _ | array _ _ | vector _ | getElementPtr _ _ | select _ _ _
  | binop _ _ _ | iCmp _ _ _ | fCmp _ _ _ => exact absurd trivial h
  | globalReference name ty =>
    rw [value, compileConstImpl]
    simp only [liftM_bind, bind_assoc]
    congr! 4 with d pointee cls
    cases d <;> simp
  | int bits n | single bits | double bits =>
    simp [value, compileConstImpl, liftM_option_bind]
  | undef typ | null typ | aggregateZero typ =>
    simp [value, compileConstImpl, zero, liftM_option_bind]
  | unsupported => rfl

theorem mapM_evaluate_of_asConst (tm : TypeMap) {es : List CExpr} {vs : List Value}
    (h : (es.mapM fun e => e.asConst.map Prod.snd) = some vs) :
    es.mapM (CExpr.evaluate tm threadLocalInit threadid) = pure vs := by
  induction es generalizing vs with
  | nil =>
    cases h
    rfl
  | cons e es ih =>
    rw [List.mapM_cons] at h
    obtain ⟨v, hv, h⟩ := Option.bind_eq_some_iff.mp h
    obtain ⟨ws, hws, h⟩ := Option.bind_eq_some_iff.mp h
    cases h
    cases e with
    | const cls w =>
      cases hv
      rw [List.mapM_cons, ih hws, CExpr.evaluate, pure_bind, pure_bind]
    | threadLocal cls key => cases hv
    | apply oper args => cases hv

theorem typed_apply (tm : TypeMap) (oper : COperation) (args : List CExpr) :
    (CExpr.apply oper args).typed tm threadLocalInit threadid = (do
      let vs ← args.mapM (CExpr.evaluate tm threadLocalInit threadid)
      let v ← oper.callOperation tm vs
      pure (oper.output, v)) := by
  rw [CExpr.typed, CExpr.evaluate, evaluateList_eq, map_bind]
  simp only [map_eq_pure_bind]
  rfl

theorem typed_of_reduceRoot {tm : TypeMap} {e e' : CExpr} (h : e.reduceRoot tm = some e') :
    e'.typed tm threadLocalInit threadid = e.typed tm threadLocalInit threadid := by
  cases e with
  | const cls v | threadLocal cls key =>
    cases h
    rfl
  | apply oper args =>
    rw [CExpr.reduceRoot] at h
    cases hvs : args.mapM fun arg => arg.asConst.map Prod.snd with
    | none =>
      rw [hvs] at h
      cases h
      rfl
    | some vs =>
      rw [hvs] at h
      obtain ⟨v, hv, rfl⟩ := Option.map_eq_some_iff.mp h
      rw [typed_apply, mapM_evaluate_of_asConst tm hvs, pure_bind, hv, liftM_some, pure_bind,
        CExpr.typed_const]

theorem mapM_typed_bind (tm : TypeMap) {β : Type} {es : List CExpr}
    {g : List (Class × Value) → StateT Locals Option β} {f : List Value → StateT Locals Option β}
    (h : ∀ vs, RunsWith (es.map CExpr.known) vs → g ((es.map CExpr.cls).zip vs) = f vs) :
    es.mapM (CExpr.typed tm threadLocalInit threadid) >>= g =
      es.mapM (CExpr.evaluate tm threadLocalInit threadid) >>= f := by
  induction es generalizing f g with
  | nil =>
    rw [List.mapM_nil, List.mapM_nil, pure_bind, pure_bind]
    exact h [] .nil
  | cons e es ih =>
    have hcons (v : Value) (hv : ∀ w ∈ e.known.2, v = w) :
        (es.mapM (CExpr.typed tm threadLocalInit threadid) >>= fun args => g ((e.cls, v) :: args)) =
          es.mapM (CExpr.evaluate tm threadLocalInit threadid) >>= fun vs => f (v :: vs) := by
      apply ih
      intro vs hvs
      exact h (v :: vs) (.cons hv hvs)
    simp only [List.mapM_cons, CExpr.typed, map_eq_pure_bind, bind_assoc, pure_bind]
    cases e with
    | const cls v =>
      simp only [CExpr.evaluate, pure_bind]
      exact hcons v fun w hw => Option.some.inj hw
    | threadLocal cls key | apply oper args =>
      congr 1
      funext v
      exact hcons v fun w hw => nomatch hw

theorem cls_elementStep {tm : TypeMap} {f f' g g' : Element} {i j : ℤ}
    (hf : Class.elementStep tm f j = some f') (hg : Class.elementStep tm g i = some g')
    (hcls : f.cls = g.cls) (hij : j = i ∨ j = -1) : f'.cls = g'.cls := by
  obtain ⟨o, ho, -⟩ := elementStep_some hf
  obtain ⟨o', ho', -⟩ := elementStep_some hg
  rw [← hcls] at ho'
  rcases hij with rfl | rfl
  · rw [ho, Option.some.injEq, Element.mk.injEq] at ho'
    exact ho'.1
  · have hs : ∀ fields l, f.cls.kind ≠ .struc fields l := by
      intro fields l hkind
      simp [Class.element, hkind] at ho
    have hc := COperation.cls_element ho ho' hs
    rwa [Element.cls_mk, Element.cls_mk] at hc

theorem cls_foldlM_elementStep {tm : TypeMap} {f f' g g' : Element} {is js : List ℤ}
    (hij : List.Forall₂ (fun j i => j = i ∨ j = -1) js is)
    (hf : js.foldlM (Class.elementStep tm) f = some f')
    (hg : is.foldlM (Class.elementStep tm) g = some g') (hcls : f.cls = g.cls) :
    f'.cls = g'.cls := by
  induction hij generalizing f g with
  | nil =>
    cases hf
    cases hg
    exact hcls
  | cons hij hrest ih =>
    obtain ⟨f₁, hf₁, hf⟩ := Option.bind_eq_some_iff.mp hf
    obtain ⟨g₁, hg₁, hg⟩ := Option.bind_eq_some_iff.mp hg
    exact ih hf hg (cls_elementStep hf₁ hg₁ hcls hij)

theorem indices_of_runsWith {args : List (Class × Option Value)} {vs : List Value}
    {is js : List ℤ} (h : RunsWith args vs) (hj : (args.mapM fun arg => indexOf arg.2) = some js)
    (hi : vs.mapM Value.asI64 = some is) :
    List.Forall₂ (fun j i => j = i ∨ j = -1) js is := by
  induction h generalizing is js with
  | nil =>
    cases hj
    cases hi
    exact .nil
  | @cons arg v args vs hv hvs ih =>
    rw [List.mapM_cons] at hj hi
    obtain ⟨j, hj₁, hj⟩ := Option.bind_eq_some_iff.mp hj
    obtain ⟨js', hjs, hj⟩ := Option.bind_eq_some_iff.mp hj
    obtain ⟨i, hi₁, hi⟩ := Option.bind_eq_some_iff.mp hi
    obtain ⟨is', his, hi⟩ := Option.bind_eq_some_iff.mp hi
    cases hj
    cases hi
    apply List.Forall₂.cons _ (ih hjs his)
    obtain ⟨c, w⟩ := arg
    cases w with
    | none => exact .inr (Option.some.inj hj₁).symm
    | some w =>
      rw [hv w rfl] at hi₁
      exact .inl (Option.some.inj (hj₁.symm.trans hi₁))

theorem mapM_indexOf_zip (cs : List Class) {vs : List Value} (h : cs.length = vs.length) :
    (((cs.zip vs).map fun arg => (arg.1, some arg.2)).mapM fun arg => indexOf arg.2) =
      vs.mapM Value.asI64 := by
  induction cs generalizing vs with
  | nil =>
    rw [List.eq_nil_of_length_eq_zero h.symm]
    rfl
  | cons c cs ih =>
    cases vs with
    | nil => cases h
    | cons v vs =>
      rw [List.zip_cons_cons, List.map_cons, List.mapM_cons, List.mapM_cons,
        ih (Nat.succ.inj h)]
      rfl

theorem compileGetElementPtr_cons (address : Class × Option Value)
    (args : List (Class × Option Value)) :
    x.compileGetElementPtr (address :: args) =
      (args.mapM fun arg => indexOf arg.2).bind fun is =>
        (address.1.elementRec x.tm is).bind fun element =>
          if element.bitOffset % 8 = 0 then
            (x.tm.ptr element.cls).map fun out =>
              ⟨.getElementPtr, address.1 :: args.map Prod.fst, out⟩
          else none := by
  simp only [Option.map_eq_bind]
  rfl

theorem callOperation_getElementPtr (tm : TypeMap) (address : Class) (cs : List Class)
    (out : Class) (v : Value) (vs : List Value) :
    (⟨.getElementPtr, address :: cs, out⟩ : COperation).callOperation tm (v :: vs) =
      (vs.mapM Value.asI64).bind fun is => (address.elementRec tm is).bind fun element =>
        if element.bitOffset % 8 = 0 then
          (addU64I64 v.asU64 (element.bitOffset / 8)).map fun ptr => .new out.layout.bits ptr
        else none := by
  simp only [Option.map_eq_bind]
  rfl

theorem call_eq (c : Constant) {cs : List Class} {vs : List Value} (h : cs.length = vs.length) :
    x.call c (cs.zip vs) =
      (x.operation c ((cs.zip vs).map fun arg => (arg.1, some arg.2))).bind fun oper =>
        (oper.callOperation x.tm vs).map fun v => (oper.output, v) := by
  have hsnd : (cs.zip vs).map Prod.snd = vs := List.map_snd_zip h.ge
  simp only [call, hsnd, Option.map_eq_bind]
  rfl

theorem map_fst_zip_some {cs : List Class} {vs : List Value} (h : cs.length = vs.length) :
    ((cs.zip vs).map fun arg => (arg.1, some arg.2)).map Prod.fst = cs := by
  rw [List.map_map]
  exact List.map_fst_zip h.le

/-- The indices of a `getelementptr` that the compiler did not know change neither the class of
the result nor what is called. -/
theorem call_getElementPtr {address : Constant} {indices : List Constant} {es : List CExpr}
    {vs : List Value} {oper : COperation} (hvs : RunsWith (es.map CExpr.known) vs)
    (hop : x.compileGetElementPtr (es.map CExpr.known) = some oper) :
    x.call (.getElementPtr address indices) ((es.map CExpr.cls).zip vs) =
      (oper.callOperation x.tm vs).map fun v => (oper.output, v) := by
  cases es with
  | nil => cases hop
  | cons e es =>
    cases hvs with
    | @cons _ v _ vs hv hvs =>
    rw [List.map_cons, compileGetElementPtr_cons] at hop
    obtain ⟨js, hjs, hop⟩ := Option.bind_eq_some_iff.mp hop
    obtain ⟨f, hf, hop⟩ := Option.bind_eq_some_iff.mp hop
    rw [Option.ite_none_right_eq_some] at hop
    obtain ⟨out, hout, rfl⟩ := Option.map_eq_some_iff.mp hop.2
    have hlen : (es.map CExpr.cls).length = vs.length := by
      rw [← hvs.length_eq, List.length_map, List.length_map]
    have hclasses : (es.map CExpr.known).map Prod.fst = es.map CExpr.cls := by
      rw [List.map_map]
      rfl
    have hlen' : (e.cls :: es.map CExpr.cls).length = (v :: vs).length := congrArg Nat.succ hlen
    rw [List.map_cons, call_eq _ hlen', operation, List.zip_cons_cons,
      List.map_cons, compileGetElementPtr_cons, mapM_indexOf_zip _ hlen, map_fst_zip_some hlen,
      hclasses, callOperation_getElementPtr]
    cases his : vs.mapM Value.asI64 with
    | none => rfl
    | some is =>
      have hfst : e.known.1 = e.cls := rfl
      rw [Option.bind_some, Option.bind_some, hfst]
      cases hg : e.cls.elementRec x.tm is with
      | none => rfl
      | some g =>
        have hcls : f.cls = g.cls :=
          cls_foldlM_elementStep (indices_of_runsWith hvs hjs his) hf hg rfl
        rw [Option.bind_some, Option.bind_some, ← hcls, hout]
        by_cases h8 : g.bitOffset % 8 = 0
        · rw [if_pos h8, if_pos h8, Option.map_some, Option.bind_some,
            callOperation_getElementPtr, his, Option.bind_some, hg, Option.bind_some, if_pos h8]
        · rw [if_neg h8, if_neg h8]
          rfl

/-- Only a `getelementptr` looks at values. -/
theorem operation_congr {c : Constant} {args args' : List (Class × Option Value)}
    (hc : ∀ address indices, c ≠ .getElementPtr address indices)
    (h : args.map Prod.fst = args'.map Prod.fst) : x.operation c args = x.operation c args' := by
  cases c with
  | getElementPtr address indices => exact absurd rfl (hc address indices)
  | _ => simp only [operation, h]

theorem map_known_fst (es : List CExpr) : (es.map CExpr.known).map Prod.fst = es.map CExpr.cls := by
  rw [List.map_map]
  rfl

theorem call_of_operation {c : Constant} {es : List CExpr} {vs : List Value} {oper : COperation}
    (hvs : RunsWith (es.map CExpr.known) vs)
    (hop : x.operation c (es.map CExpr.known) = some oper) :
    x.call c ((es.map CExpr.cls).zip vs) =
      (oper.callOperation x.tm vs).map fun v => (oper.output, v) := by
  have hlen : (es.map CExpr.cls).length = vs.length := by
    rw [← hvs.length_eq, List.length_map, List.length_map]
  by_cases hc : ∃ address indices, c = .getElementPtr address indices
  · obtain ⟨address, indices, rfl⟩ := hc
    exact call_getElementPtr hvs hop
  · have hsame : x.operation c (((es.map CExpr.cls).zip vs).map fun arg => (arg.1, some arg.2)) =
        x.operation c (es.map CExpr.known) := by
      apply operation_congr fun address indices h => hc ⟨address, indices, h⟩
      rw [map_fst_zip_some hlen, map_known_fst]
    rw [call_eq c hlen, hsame, hop, Option.bind_some]

theorem mapM_typed_call {c : Constant} {es : List CExpr} {oper : COperation}
    (hop : x.operation c (es.map CExpr.known) = some oper) :
    (es.mapM (CExpr.typed x.tm threadLocalInit threadid) >>= fun args => liftM (x.call c args)) =
      (CExpr.apply oper es).typed x.tm threadLocalInit threadid := by
  rw [typed_apply]
  apply mapM_typed_bind
  intro vs hvs
  rw [call_of_operation hvs hop, Option.map_eq_bind, liftM_option_bind]
  rfl

theorem compileConst_operation {c : Constant} {e : CExpr} (hc : c.IsOperation)
    (h : x.compileConst c = some e) :
    ∃ es oper, c.operands.mapM x.compileConst = some es ∧
      x.operation c (es.map CExpr.known) = some oper ∧
      (CExpr.apply oper es).reduceRoot x.tm = some e := by
  rw [compileConst, compileConstImpl_operation hc] at h
  obtain ⟨root, hroot, h⟩ := Option.bind_eq_some_iff.mp h
  obtain ⟨es, hes, hroot⟩ := Option.bind_eq_some_iff.mp hroot
  obtain ⟨oper, hop, hroot⟩ := Option.bind_eq_some_iff.mp hroot
  cases hroot
  exact ⟨es, oper, hes, hop, h⟩

theorem value_of_compileConst (c : Constant) {e : CExpr} (h : x.compileConst c = some e) :
    x.value threadLocalInit threadid c = e.typed x.tm threadLocalInit threadid := by
  induction c using Constant.induct generalizing e with
  | _ c ih =>
  by_cases hc : c.IsOperation
  · obtain ⟨es, oper, hes, hop, hred⟩ := compileConst_operation hc h
    have hargs : c.operands.mapM (x.value threadLocalInit threadid) =
        es.mapM (CExpr.typed x.tm threadLocalInit threadid) := by
      apply mapM_eq_of_forall₂
      have hboth := (List.forall₂_and_left _ _).mpr ⟨fun d hd => @ih d hd, mapM_eq_some_iff_forall₂.mp hes⟩
      exact hboth.imp fun d e' hd => hd.1 hd.2
    rw [value_operation hc, hargs, mapM_typed_call hop, typed_of_reduceRoot hred]
  · rw [value_leaf hc, h, liftM_some, pure_bind]

theorem threadLocalFree_operation {c : Constant} (hc : c.IsOperation) :
    x.ThreadLocalFree c ↔ ∀ d ∈ c.operands, x.ThreadLocalFree d := by
  constructor
  · intro h d hd name ty key hin
    exact h name ty key (.operand hd hin)
  · intro h name ty key hin
    cases hin with
    | refl => exact hc.elim
    | operand hd hin => exact h _ hd name ty key hin

theorem isSome_asConst_of_reduceRoot {oper : COperation} {args : List CExpr} {e : CExpr}
    (h : (CExpr.apply oper args).reduceRoot x.tm = some e) :
    e.asConst.isSome ↔ ∀ arg ∈ args, arg.asConst.isSome := by
  have hall := isSome_mapM (fun arg : CExpr => arg.asConst.map Prod.snd) args
  simp only [Option.isSome_map] at hall
  rw [← hall]
  rw [CExpr.reduceRoot] at h
  cases hvs : args.mapM fun arg => arg.asConst.map Prod.snd with
  | none =>
    rw [hvs] at h
    cases h
    rfl
  | some vs =>
    rw [hvs] at h
    obtain ⟨v, hv, rfl⟩ := Option.map_eq_some_iff.mp h
    rfl

theorem threadLocalFree_leaf {c : Constant} (hc : ¬ c.IsOperation) :
    x.ThreadLocalFree c ↔
      ∀ name ty key, c = .globalReference name ty → x.lookup name ≠ some (.threadLocal key) := by
  constructor
  · rintro h name ty key rfl
    exact h name ty key (.refl _)
  · intro h name ty key hin
    cases hin with
    | refl => exact h name ty key rfl
    | operand hd =>
      rw [c.operands_of_not hc] at hd
      cases hd

theorem isSome_asConst_leaf {c : Constant} {e : CExpr} (hc : ¬ c.IsOperation)
    (h : x.compileConst c = some e) : e.asConst.isSome ↔ x.ThreadLocalFree c := by
  rw [compileConst_leaf hc] at h
  rw [threadLocalFree_leaf hc]
  cases c with
  | cast _ _ _ | struc _ _ _ | array _ _ | vector _ | getElementPtr _ _ | select _ _ _
  | binop _ _ _ | iCmp _ _ _ | fCmp _ _ _ => exact absurd trivial hc
  | globalReference name ty =>
    obtain ⟨d, hd, h⟩ := Option.bind_eq_some_iff.mp h
    obtain ⟨pointee, -, h⟩ := Option.bind_eq_some_iff.mp h
    obtain ⟨cls, -, h⟩ := Option.bind_eq_some_iff.mp h
    cases d with
    | global g =>
      cases h
      apply iff_of_true rfl
      intro name' ty' key heq
      cases heq
      rw [hd]
      exact fun hk => nomatch hk
    | threadLocal key =>
      cases h
      exact iff_of_false Bool.false_ne_true fun hfree => hfree name ty key rfl hd
  | int _ _ | undef _ | null _ | aggregateZero _ | single _ | double _ =>
    rw [compileConstImpl] at h
    obtain ⟨cls, -, h⟩ := Option.bind_eq_some_iff.mp h
    cases h
    exact iff_of_true rfl fun name ty key heq => nomatch heq
  | unsupported => cases h

theorem isSome_asConst_iff (c : Constant) {e : CExpr} (h : x.compileConst c = some e) :
    e.asConst.isSome ↔ x.ThreadLocalFree c := by
  induction c using Constant.induct generalizing e with
  | _ c ih =>
  by_cases hc : c.IsOperation
  · obtain ⟨es, oper, hes, hop, hred⟩ := compileConst_operation hc h
    have hboth := (List.forall₂_and_left _ _).mpr ⟨fun d hd => @ih d hd, mapM_eq_some_iff_forall₂.mp hes⟩
    rw [isSome_asConst_of_reduceRoot hred, threadLocalFree_operation hc]
    apply forall_mem_iff_of_forall₂
    exact hboth.imp fun d e' hd => hd.1 hd.2
  · exact isSome_asConst_leaf hc h

theorem known_of_isSome {es : List CExpr} {vs : List Value}
    (h : ∀ e ∈ es, e.asConst.isSome) (hvs : RunsWith (es.map CExpr.known) vs) :
    es.map CExpr.known = ((es.map CExpr.cls).zip vs).map fun arg => (arg.1, some arg.2) := by
  induction es generalizing vs with
  | nil => rfl
  | cons e es ih =>
    cases hvs with
    | @cons _ v _ vs hv hvs =>
    obtain ⟨he, hes⟩ := List.forall_mem_cons.mp h
    obtain ⟨k, hk⟩ := Option.isSome_iff_exists.mp he
    have hknown : e.known.2 = some k.2 := by rw [CExpr.known, hk, Option.map_some]
    rw [List.map_cons, List.map_cons, List.zip_cons_cons, List.map_cons, ih hes hvs,
      hv k.2 hknown, ← hknown]
    rfl

theorem call_eq_none {c : Constant} {es : List CExpr} {vs : List Value}
    (hvs : RunsWith (es.map CExpr.known) vs)
    (hfixed : ∀ address indices, c = .getElementPtr address indices →
      ∀ e ∈ es.tail, e.asConst.isSome)
    (hop : x.operation c (es.map CExpr.known) = none) :
    x.call c ((es.map CExpr.cls).zip vs) = none := by
  have hlen : (es.map CExpr.cls).length = vs.length := by
    rw [← hvs.length_eq, List.length_map, List.length_map]
  suffices hsame : x.operation c (((es.map CExpr.cls).zip vs).map fun arg => (arg.1, some arg.2)) =
      x.operation c (es.map CExpr.known) by
    rw [call_eq c hlen, hsame, hop, Option.bind_none]
  by_cases hc : ∃ address indices, c = .getElementPtr address indices
  · obtain ⟨address, indices, rfl⟩ := hc
    cases es with
    | nil => rfl
    | cons e es =>
      cases hvs with
      | @cons _ v _ vs hv hvs =>
      have hall : ∀ d ∈ es, d.asConst.isSome := hfixed address indices rfl
      have hknown := known_of_isSome hall hvs
      rw [List.map_cons, List.map_cons, List.zip_cons_cons, List.map_cons, operation, operation,
        compileGetElementPtr_cons, compileGetElementPtr_cons, ← hknown]
      rfl
  · apply operation_congr fun address indices h => hc ⟨address, indices, h⟩
    rw [map_fst_zip_some hlen, map_known_fst]

theorem FixedIndices.operand {c d : Constant} (h : x.FixedIndices c) (hd : d ∈ c.operands) :
    x.FixedIndices d :=
  fun address indices hin => h address indices (.operand hd hin)

theorem FixedIndices.isSome_tail {c : Constant} {es : List CExpr} (h : x.FixedIndices c)
    (hes : c.operands.mapM x.compileConst = some es) (address : Constant)
    (indices : List Constant) (hc : c = .getElementPtr address indices) :
    ∀ e ∈ es.tail, e.asConst.isSome := by
  subst hc
  have hall := mapM_eq_some_iff_forall₂.mp hes
  cases hall with
  | @cons _ e _ es he hrest =>
  have hfree := h address indices (.refl _)
  have hboth := (List.forall₂_and_left _ _).mpr ⟨hfree, hrest⟩
  have hiff := forall_mem_iff_of_forall₂ (p := x.ThreadLocalFree)
    (q := fun e : CExpr => e.asConst.isSome) (hboth.imp fun d e hd => isSome_asConst_iff d hd.2)
  exact hiff.mpr hfree

theorem typed_apply_of_reduceRoot_none {oper : COperation} {args : List CExpr}
    (h : (CExpr.apply oper args).reduceRoot x.tm = none) :
    (CExpr.apply oper args).typed x.tm threadLocalInit threadid = failure := by
  rw [CExpr.reduceRoot] at h
  cases hvs : args.mapM fun arg => arg.asConst.map Prod.snd with
  | none =>
    rw [hvs] at h
    cases h
  | some vs =>
    rw [hvs] at h
    rw [typed_apply, mapM_evaluate_of_asConst x.tm hvs, pure_bind, Option.map_eq_none_iff.mp h]
    rfl

theorem value_of_compileConst_none (c : Constant) (hfixed : x.FixedIndices c)
    (h : x.compileConst c = none) : x.value threadLocalInit threadid c = failure := by
  induction c using Constant.induct with
  | _ c ih =>
  by_cases hc : c.IsOperation
  · rw [value_operation hc]
    cases hes : c.operands.mapM x.compileConst with
    | none =>
      have hargs : c.operands.mapM (x.value threadLocalInit threadid) = failure :=
        mapM_failure (fun d hd => ih d hd (hfixed.operand hd)) hes
      rw [hargs, failure_bind]
    | some es =>
      have hargs : c.operands.mapM (x.value threadLocalInit threadid) =
          es.mapM (CExpr.typed x.tm threadLocalInit threadid) := by
        apply mapM_eq_of_forall₂
        exact (mapM_eq_some_iff_forall₂.mp hes).imp fun d e he => value_of_compileConst d he
      rw [hargs]
      cases hop : x.operation c (es.map CExpr.known) with
      | none =>
        have hcall : (es.mapM (CExpr.typed x.tm threadLocalInit threadid) >>= fun args =>
              liftM (x.call c args)) =
            es.mapM (CExpr.evaluate x.tm threadLocalInit threadid) >>= fun _ => failure := by
          apply mapM_typed_bind
          intro vs hvs
          rw [call_eq_none hvs (hfixed.isSome_tail hes) hop]
          rfl
        rw [hcall, bind_failure]
      | some oper =>
        have hred : (CExpr.apply oper es).reduceRoot x.tm = none := by
          rw [compileConst, compileConstImpl_operation hc, hes] at h
          simpa [hop] using h
        rw [mapM_typed_call hop, typed_apply_of_reduceRoot_none hred]
  · rw [value_leaf hc, h]
    rfl

/-- Folding changes no value and no class, whatever the thread, and leaves a constant exactly
where no thread-local symbol is referred to; apart from indices that depend on the thread, it
panics only where an operation does. -/
theorem compileConst_exact (x : ExprCompiler)
    (threadLocalInit : ThreadLocalKey → Option (Layout × Value)) (c : Constant) :
    (∀ e, x.compileConst c = some e →
      (∀ threadid, x.value threadLocalInit threadid c =
        (fun v => (e.cls, v)) <$> e.evaluate x.tm threadLocalInit threadid) ∧
      ((∃ cls v, e = .const cls v) ↔ x.ThreadLocalFree c)) ∧
    (x.FixedIndices c → x.compileConst c = none →
      ∀ threadid s, x.value threadLocalInit threadid c s = none) := by
  refine ⟨fun e he => ⟨fun threadid => value_of_compileConst c he, ?_⟩,
    fun hfixed hnone threadid s => ?_⟩
  · rw [← isSome_asConst_iff c he]
    cases e <;> simp [CExpr.asConst]
  · rw [value_of_compileConst_none c hfixed hnone]
    rfl

/-- The address of a thread-local symbol, and eight bytes after a global one, added. -/
theorem compileConst_exact_threadLocal :
    let x : ExprCompiler :=
      ⟨⟨[]⟩, ⟨[(.internal 0 "k", .threadLocal 0), (.external "g", .global 4096)]⟩, 0⟩
    let address (name : String) : Constant :=
      .cast .ptrToInt (.globalReference (.name name) (.integerType 32)) (.integerType 64)
    let c : Constant := .binop .add (address "k") (.binop .add (.int 64 8) (address "g"))
    ∃ e, x.compileConst c = some e ∧
      (∀ threadLocalInit threadid, x.value threadLocalInit threadid c =
        (fun v => (e.cls, v)) <$> e.evaluate x.tm threadLocalInit threadid) ∧
      ¬ ∃ cls v, e = .const cls v := by
  intro x address c
  have hsome : (x.compileConst c).isSome := by decide +kernel
  obtain ⟨e, he⟩ := Option.isSome_iff_exists.mp hsome
  refine ⟨e, he, fun threadLocalInit => ((compileConst_exact x threadLocalInit c).1 e he).1, ?_⟩
  rw [((compileConst_exact x (fun _ => none) c).1 e he).2]
  intro hfree
  apply hfree (.name "k") (.integerType 32) 0 _ rfl
  apply Constant.Inside.operand (d := address "k") (by simp [c, Constant.operands])
  exact .operand (by simp [address, Constant.operands]) (.refl _)

end ExprCompiler
end AtomicSim
