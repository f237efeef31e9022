import AtomicSim.Compile.Forcing

namespace AtomicSim.Table

section Constructors

variable (force : ClassRef → TableM ClassInner)

def typ (c : ClassRef) : TableM TypeRef := do
  let inner ← force c
  pure inner.typ

def typs : List ClassRef → TableM (List TypeRef)
  | [] => pure []
  | c :: cs => do
    let t ← typ force c
    let ts ← typs cs
    pure (t :: ts)

def ptr (pointee : ClassRef) : TableM ClassRef := do
  let pointeeType ← typ force pointee
  get (.pointerType pointeeType 0)

def func (result : ClassRef) (params : List ClassRef) (isVarArg : Bool) : TableM ClassRef := do
  let resultType ← typ force result
  let paramTypes ← typs force params
  get (.funcType resultType paramTypes isVarArg)

def vector (element : ClassRef) (len : ℕ) : TableM ClassRef := do
  let elementType ← typ force element
  get (.vectorType elementType len)

def array (element : ClassRef) (len : ℕ) : TableM ClassRef := do
  let elementType ← typ force element
  get (.arrayType elementType len)

def struc (elements : List ClassRef) (isPacked : Bool) : TableM ClassRef := do
  let elementTypes ← typs force elements
  get (.structType elementTypes isPacked)

end Constructors

/-- With enough fuel the program returns the cell that `get` then finds under the type. -/
def Agrees (m : ℕ → TableM ClassRef) (t : TypeRef) (σ : Table) : Prop :=
  ∃ N c σ' σ'', (∀ n ≥ N, m n σ = .done c σ') ∧ get t σ' = .done c σ''

section Agrees

variable {tm : TypeMap} {σ σ' : Table} {N : ℕ}

theorem Indexed.typAt_inj (h : σ.Indexed tm) {c c' : ClassRef} {t : TypeRef}
    (hc : σ.typAt c = some t) (hc' : σ.typAt c' = some t) : c = c' := by
  have hl := h.keyed hc
  rw [h.keyed hc'] at hl
  exact (Option.some.inj hl).symm

/-- A program that makes a cell of type `u`, under the condition `p` that it does not panic. -/
theorem agrees_iff {m : ℕ → TableM ClassRef} {t u : TypeRef} {p : Prop} (ht : tm.Defined t)
    (hname : ∀ s, t ≠ .namedStructType s)
    (h : Prog.Runs N m σ (fun c σ' => After tm σ σ' ∧ σ'.typAt c = some u ∧ p) fun _ => ¬ p) :
    Agrees m t σ ↔ p ∧ u = t := by
  rcases h with ⟨c, σ', hm, ha, hu, hp⟩ | ⟨e, hm, hp⟩
  · obtain ⟨c', σ₁, hget, hgot⟩ := ha.wf.get ht.known
    have htyp := hgot.typ
    rw [resolve_of_ne hname] at htyp
    have hu' := hgot.extends'.typ hu
    constructor
    · rintro ⟨M, d, σ₂, σ₃, hm', hget'⟩
      have hsame := (hm _ (Nat.le_max_left N M)).symm.trans (hm' _ (Nat.le_max_right N M))
      cases hsame
      rw [hget] at hget'
      cases hget'
      rw [hu'] at htyp
      exact ⟨hp, Option.some.inj htyp⟩
    · rintro ⟨-, rfl⟩
      have hc := hgot.indexed.typAt_inj hu' htyp
      exact ⟨N, c, σ', σ₁, hm, by rw [hget, hc]⟩
  · constructor
    · rintro ⟨M, d, σ₂, σ₃, hm', -⟩
      have hsame := (hm _ (Nat.le_max_left N M)).symm.trans (hm' _ (Nat.le_max_right N M))
      cases hsame
    · exact fun hr => absurd hr.1 hp

theorem runs_typ {c : ClassRef} {t : TypeRef} (h : σ.Settled tm)
    (hf : Forces tm N (tm.resolve t)) (hc : σ.typAt c = some (tm.resolve t)) :
    Prog.Runs N (fun n => typ (force n) c) σ
      (fun r σ' => After tm σ σ' ∧ r = tm.resolve t ∧ (tm.get t).isSome)
      fun _ => ¬ (tm.get t).isSome := by
  have hforce := hf h.wf hc fun d u hp => absurd hp (h.pending d)
  rw [TypeMap.get_resolve] at hforce
  apply (hforce.weaken (fun _ _ => id) fun e he => by rw [he.2]; exact Bool.false_ne_true).bind
  rintro v σ' ⟨ha, hv⟩
  obtain ⟨cls, hcls, hrep⟩ := ha.value hc hv
  rw [TypeMap.get_resolve] at hcls
  exact .pure ⟨ha, hrep.typ.trans (TypeMap.typ_get hcls), by rw [hcls]; rfl⟩

theorem runs_typs {cs : List ClassRef} {ts : List TypeRef} (h : σ.Settled tm)
    (hf : ∀ t ∈ ts, Forces tm N (tm.resolve t))
    (hc : List.Forall₂ (fun c t => σ.typAt c = some (tm.resolve t)) cs ts) :
    Prog.Runs N (fun n => typs (force n) cs) σ
      (fun r σ' => After tm σ σ' ∧ r = ts.map tm.resolve ∧ ∀ t ∈ ts, (tm.get t).isSome)
      fun _ => ¬ ∀ t ∈ ts, (tm.get t).isSome := by
  induction ts generalizing σ cs with
  | nil =>
    cases hc
    exact .pure ⟨⟨h.wf, .refl σ⟩, rfl, fun t ht => absurd ht List.not_mem_nil⟩
  | cons t ts ih =>
    rcases hc with _ | ⟨hc, hcs⟩
    simp only [List.forall_mem_cons, List.map_cons] at hf ⊢
    apply ((runs_typ h hf.1 hc).weaken (fun _ _ => id) fun _ hn hall => hn hall.1).bind
    rintro r σ₁ ⟨h₁, rfl, hsome⟩
    have hcs' := hcs.imp fun c t (hc : σ.typAt c = some (tm.resolve t)) => h₁.extends'.typ hc
    apply ((ih (h.after h₁) hf.2 hcs').weaken (fun _ _ => id) fun _ hn hall => hn hall.2).bind
    rintro rs σ₂ ⟨h₂, rfl, hall⟩
    exact .pure ⟨h₁.trans h₂, rfl, hsome, hall⟩

theorem exists_forces_list (hacyclic : tm.Acyclic) (ts : List TypeRef) :
    ∃ N, ∀ t ∈ ts, Forces tm N (tm.resolve t) := by
  apply Prog.Runs.exists_bound ts
  · intro t N M h hNM σ c hwf ht hclear
    exact (h hwf ht hclear).mono_fuel hNM
  · exact fun t _ => exists_forces (TypeMap.acc_component hacyclic t)

end Agrees

/-- The type is not a name itself. -/
def Plain (t : TypeRef) : Prop := ∀ s, t ≠ .namedStructType s

section Constructors

variable {tm : TypeMap} {σ : Table}

theorem resolve_eq_self_iff {t : TypeRef} (ht : tm.Defined t) : tm.resolve t = t ↔ Plain t := by
  refine ⟨?_, resolve_of_ne⟩
  rintro h s rfl
  obtain ⟨d, hd⟩ := Option.isSome_iff_exists.mp (ht.known s rfl)
  rw [TypeMap.resolve_namedStructType hd] at h
  cases h

theorem map_resolve_eq_self_iff {ts : List TypeRef} (ht : ∀ t ∈ ts, tm.Defined t) :
    ts.map tm.resolve = ts ↔ ∀ t ∈ ts, Plain t := by
  induction ts with
  | nil => simp
  | cons t ts ih =>
    rw [List.forall_mem_cons] at ht ⊢
    rw [List.map_cons, List.cons.injEq, resolve_eq_self_iff ht.1, ih ht.2]

theorem runs_get_plain {N : ℕ} {σ' : Table} {t : TypeRef} {p : Prop} {Q : TableError → Prop}
    (ha : After tm σ σ') (ht : tm.Defined t) (hname : Plain t) (hp : p) :
    Prog.Runs N (fun _ => Table.get t) σ'
      (fun c σ'' => After tm σ σ'' ∧ σ''.typAt c = some t ∧ p) Q := by
  apply (runs_get ha.wf ht).weaken _ fun _ => id
  rintro c σ'' ⟨h, hc⟩
  rw [resolve_of_ne hname] at hc
  exact ⟨ha.trans h, hc, hp⟩

section One

variable (hclosed : tm.Closed) (hacyclic : tm.Acyclic) (h : σ.Settled tm)
include hclosed hacyclic h

theorem agrees_one_iff {F : TypeRef → TypeRef} (hF : Function.Injective F)
    (hdef : ∀ u, tm.Defined u → tm.Defined (F u)) (hname : ∀ u, Plain (F u)) {t : TypeRef}
    (ht : tm.Defined t) :
    Agrees (fun n => Table.get t >>= fun c => typ (force n) c >>= fun u => Table.get (F u))
      (F t) σ ↔ (tm.get t).isSome ∧ Plain t := by
  obtain ⟨N, hN⟩ := exists_forces (TypeMap.acc_component hacyclic t)
  rw [← resolve_eq_self_iff ht, ← hF.eq_iff]
  apply agrees_iff (N := N) (hdef t ht) (hname t)
  apply (runs_get h.wf ht).bind
  rintro c σ₁ ⟨h₁, hc⟩
  apply (runs_typ (h.after h₁) hN hc).bind
  rintro u σ₂ ⟨h₂, rfl, hsome⟩
  exact runs_get_plain (h₁.trans h₂) (hdef _ (ht.resolve hclosed)) (hname _) hsome

theorem agrees_list_iff {F : List TypeRef → TypeRef} (hF : Function.Injective F)
    (hdef : ∀ us, (∀ u ∈ us, tm.Defined u) → tm.Defined (F us)) (hname : ∀ us, Plain (F us))
    {ts : List TypeRef} (ht : ∀ t ∈ ts, tm.Defined t) :
    Agrees (fun n => getList ts >>= fun cs => typs (force n) cs >>= fun us => Table.get (F us))
      (F ts) σ ↔ (∀ t ∈ ts, (tm.get t).isSome) ∧ ∀ t ∈ ts, Plain t := by
  obtain ⟨N, hN⟩ := exists_forces_list hacyclic ts
  rw [← map_resolve_eq_self_iff ht, ← hF.eq_iff]
  apply agrees_iff (N := N) (hdef ts ht) (hname ts)
  apply (runs_getList h.wf ht).bind
  rintro cs σ₁ ⟨h₁, hcs⟩
  apply (runs_typs (h.after h₁) hN hcs).bind
  rintro us σ₂ ⟨h₂, rfl, hsome⟩
  apply runs_get_plain (h₁.trans h₂) (hdef _ _) (hname _) hsome
  intro u hu
  obtain ⟨t, hmem, rfl⟩ := List.mem_map.mp hu
  exact (ht t hmem).resolve hclosed

theorem agrees_func_iff {r : TypeRef} {ps : List TypeRef} (v : Bool) (hr : tm.Defined r)
    (hps : ∀ t ∈ ps, tm.Defined t) :
    Agrees (fun n => Table.get r >>= fun c => getList ps >>= fun cs => func (force n) c cs v)
      (.funcType r ps v) σ ↔
      (∀ t ∈ r :: ps, (tm.get t).isSome) ∧ ∀ t ∈ r :: ps, Plain t := by
  obtain ⟨N, hN⟩ := exists_forces_list hacyclic (r :: ps)
  have hdef : ∀ {r : TypeRef} {ps : List TypeRef}, tm.Defined r → (∀ t ∈ ps, tm.Defined t) →
      tm.Defined (.funcType r ps v) := by
    intro r ps hr hps s hs
    rcases List.mem_append.mp hs with hs | hs
    · exact hr s hs
    · obtain ⟨t, ht, hs⟩ := TypeRef.mem_namesList.mp hs
      exact hps t ht s hs
  have hall : ∀ t ∈ r :: ps, tm.Defined t := List.forall_mem_cons.mpr ⟨hr, hps⟩
  rw [← map_resolve_eq_self_iff hall, List.map_cons, List.cons.injEq]
  have hF : tm.resolve r = r ∧ ps.map tm.resolve = ps ↔
      TypeRef.funcType (tm.resolve r) (ps.map tm.resolve) v = .funcType r ps v := by simp
  rw [hF]
  apply agrees_iff (N := N) (hdef hr hps) (fun s hs => by cases hs)
  apply (runs_get h.wf hr).bind
  rintro c σ₁ ⟨h₁, hc⟩
  apply (runs_getList h₁.wf hps).bind
  rintro cs σ₂ ⟨h₂, hcs⟩
  have hset := (h.after h₁).after h₂
  rw [List.forall_mem_cons] at hN
  simp only [List.forall_mem_cons]
  apply ((runs_typ hset hN.1 (h₂.extends'.typ hc)).weaken (fun _ _ => id)
    fun _ hn hall => hn hall.1).bind
  rintro u σ₃ ⟨h₃, rfl, hsome⟩
  have hcs' := hcs.imp fun c t (hc : σ₂.typAt c = some (tm.resolve t)) => h₃.extends'.typ hc
  apply ((runs_typs (hset.after h₃) hN.2 hcs').weaken (fun _ _ => id)
    fun _ hn hall => hn hall.2).bind
  rintro us σ₄ ⟨h₄, rfl, hsomes⟩
  apply runs_get_plain (((h₁.trans h₂).trans h₃).trans h₄) (hdef (hr.resolve hclosed) _)
    (fun s hs => by cases hs) ⟨hsome, hsomes⟩
  intro u hu
  obtain ⟨t, hmem, rfl⟩ := List.mem_map.mp hu
  exact (hps t hmem).resolve hclosed

end One

/-- A class that is looked up under the name of a struct has the definition as its type, so
what is made of it is not what is made of the name: exactly where no name is given to it,
and nothing panics, does a constructor return the class of the composite type. -/
theorem constructors_agree_iff {ms : List Module} (hclosed : (TypeMap.ofModules ms).Closed)
    (hacyclic : (TypeMap.ofModules ms).Acyclic) (h : Reachable ms σ) :
    (∀ t, (TypeMap.ofModules ms).Defined t →
      (Agrees (fun n => Table.get t >>= fun c => ptr (force n) c) (.pointerType t 0) σ ↔
        ((TypeMap.ofModules ms).get t).isSome ∧ Plain t) ∧
      ∀ len,
        (Agrees (fun n => Table.get t >>= fun c => vector (force n) c len)
          (.vectorType t len) σ ↔ ((TypeMap.ofModules ms).get t).isSome ∧ Plain t) ∧
        (Agrees (fun n => Table.get t >>= fun c => array (force n) c len)
          (.arrayType t len) σ ↔ ((TypeMap.ofModules ms).get t).isSome ∧ Plain t)) ∧
    (∀ ts isPacked, (∀ t ∈ ts, (TypeMap.ofModules ms).Defined t) →
      (Agrees (fun n => getList ts >>= fun cs => struc (force n) cs isPacked)
        (.structType ts isPacked) σ ↔
        (∀ t ∈ ts, ((TypeMap.ofModules ms).get t).isSome) ∧ ∀ t ∈ ts, Plain t)) ∧
    ∀ r ps isVarArg, (TypeMap.ofModules ms).Defined r →
      (∀ t ∈ ps, (TypeMap.ofModules ms).Defined t) →
      (Agrees (fun n => Table.get r >>= fun c => getList ps >>= fun cs =>
          func (force n) c cs isVarArg) (.funcType r ps isVarArg) σ ↔
        (∀ t ∈ r :: ps, ((TypeMap.ofModules ms).get t).isSome) ∧ ∀ t ∈ r :: ps, Plain t) := by
  have hset := h.settled hclosed hacyclic
  refine ⟨fun t ht => ⟨?_, fun len => ⟨?_, ?_⟩⟩, fun ts isPacked hts => ?_,
    fun r ps v hr hps => agrees_func_iff hclosed hacyclic hset v hr hps⟩
  · exact agrees_one_iff hclosed hacyclic hset (fun _ _ hu => (TypeRef.pointerType.inj hu).1)
      (fun _ => id) (fun _ _ hs => by cases hs) ht
  · exact agrees_one_iff hclosed hacyclic hset (fun _ _ hu => (TypeRef.vectorType.inj hu).1)
      (fun _ => id) (fun _ _ hs => by cases hs) ht
  · exact agrees_one_iff hclosed hacyclic hset (fun _ _ hu => (TypeRef.arrayType.inj hu).1)
      (fun _ => id) (fun _ _ hs => by cases hs) ht
  · apply agrees_list_iff hclosed hacyclic hset (F := fun us => .structType us isPacked)
      (fun _ _ hu => (TypeRef.structType.inj hu).1) _ (fun _ _ hs => by cases hs) hts
    intro us hus s hs
    obtain ⟨t, ht, hs⟩ := TypeRef.mem_namesList.mp hs
    exact hus t ht s hs

/-- A pointer to an array of a named struct. -/
theorem constructors_agree_array :
    let ms : List Module := [⟨[("S", some ⟨[.integerType 32], false⟩)]⟩]
    let t : TypeRef := .arrayType (.namedStructType "S") 3
    ∃ σ, Reachable ms σ ∧
      Agrees (fun n => Table.get t >>= fun c => ptr (force n) c) (.pointerType t 0) σ := by
  intro ms t
  have hacyclic : (TypeMap.ofModules ms).Acyclic := by
    apply TypeMap.acyclic_of_rank fun _ => 0
    decide
  have h : Reachable ms _ := .added rfl
  have hget : ((TypeMap.ofModules ms).get t).isSome := by decide +kernel
  exact ⟨_, h, ((constructors_agree_iff (by decide) hacyclic h).1 t (by decide)).1.mpr
    ⟨hget, fun s hs => by simp [t] at hs⟩⟩

/-- A pointer to the class of a named struct is not the class of the pointer to its name. -/
theorem constructors_agree_fails :
    let ms : List Module := [⟨[("S", some ⟨[.integerType 32], false⟩)]⟩]
    let t : TypeRef := .namedStructType "S"
    ∃ σ, Reachable ms σ ∧ (TypeMap.ofModules ms).Defined t ∧
      ((TypeMap.ofModules ms).get t).isSome ∧
      ¬ Agrees (fun n => Table.get t >>= fun c => ptr (force n) c) (.pointerType t 0) σ := by
  intro ms t
  have hacyclic : (TypeMap.ofModules ms).Acyclic := by
    apply TypeMap.acyclic_of_rank fun _ => 0
    decide
  have hclosed : (TypeMap.ofModules ms).Closed := by decide
  have h : Reachable ms _ := .added rfl
  have hget : ((TypeMap.ofModules ms).get t).isSome := by decide +kernel
  refine ⟨_, h, by decide, hget, fun hagree => ?_⟩
  have hiff := agrees_one_iff hclosed hacyclic (h.settled hclosed hacyclic)
    (F := fun u => .pointerType u 0) (fun _ _ hu => (TypeRef.pointerType.inj hu).1)
    (fun _ => id) (fun _ _ hs => by cases hs) (t := t) (by decide)
  exact (hiff.mp hagree).2 "S" rfl

end Constructors

def lastDefinition (ms : List Module) (s : String) : Option StructDef :=
  (definitions (ms.flatMap Module.structs)).lookup s

def DefinedIn (ms : List Module) (s : String) : Prop := ∃ m ∈ ms, ∃ d, (s, d) ∈ m.structs

section Named

variable (pre post : List Module) {m : Module} {s : String} {d : StructDef} {σ : Table}

theorem exists_lastDefinition (hm : (s, some d) ∈ m.structs) :
    ∃ d', lastDefinition (pre ++ m :: post) s = some d' := by
  rw [← Option.isSome_iff_exists, lastDefinition]
  have hmem : (s, d) ∈ definitions ((pre ++ m :: post).flatMap Module.structs) := by
    rw [definitions, List.mem_reverse, List.mem_filterMap]
    refine ⟨(s, some d), ?_, rfl⟩
    rw [List.mem_flatMap]
    exact ⟨m, by simp, hm⟩
  exact lookup_isSome hmem

theorem StructDef.typ_inj {d d' : StructDef} (h : d.typ = d'.typ) : d = d' := by
  obtain ⟨es, p⟩ := d
  obtain ⟨es', p'⟩ := d'
  cases h
  rfl

/-- The table has one entry for a name, which the last module that defines it has made, and
`named_struct` looks in a table of types that stays blank. -/
theorem named_struct_iff (hm : (s, some d) ∈ m.structs)
    (ha : addModules (pre ++ m :: post) new = .done () σ) :
    ((∃ c σ' σ'', Table.get (.namedStructType s) σ = .done c σ' ∧
        Table.get d.typ σ' = .done c σ'') ∧
      (¬ DefinedIn (pre ++ post) s → ∃ c σ' σ'', namedStruct s σ = .done (some c) σ' ∧
        Table.get d.typ σ' = .done c σ'')) ↔
      lastDefinition (pre ++ m :: post) s = some d ∧ DefinedIn (pre ++ post) s := by
  have hloaded := loaded_of_addModules ha
  obtain ⟨d', hd'⟩ := exists_lastDefinition pre post hm
  obtain ⟨c, hc⟩ := Option.isSome_iff_exists.mp (hloaded.indexed.named hd')
  have hstruct : (TypeMap.ofModules (pre ++ m :: post)).structs.lookup s = some d' := hd'
  have htyp : σ.typAt c = some d'.typ := by
    rw [hloaded.indexed.entry hc, TypeMap.resolve_namedStructType hstruct]
  have hname : Table.get (.namedStructType s) σ = .done c σ := by simp only [Table.get, hc]
  have hblank : namedStruct s σ = .done none σ := by
    simp only [namedStruct, Prog.bind_apply, Prog.gets, Outcome.bind, hloaded.types]
    rfl
  constructor
  · rintro ⟨⟨c₁, σ', σ'', hget, hown⟩, hnamed⟩
    rw [hname] at hget
    cases hget
    obtain ⟨c', σ₁, hget', hgot⟩ := hloaded.indexed.get (t := d.typ) (fun _ hs => by cases hs)
    rw [hown] at hget'
    cases hget'
    have hsame := hgot.typ
    rw [hgot.extends'.typ htyp] at hsame
    refine ⟨?_, ?_⟩
    · rw [hd', StructDef.typ_inj (Option.some.inj hsame)]
    · by_contra hn
      obtain ⟨c₂, σ₂, σ₃, hsome, -⟩ := hnamed hn
      rw [hblank] at hsome
      cases hsome
  · rintro ⟨hlast, hin⟩
    rw [hd', Option.some.injEq] at hlast
    subst hlast
    have hl := hloaded.indexed.keyed htyp
    exact ⟨⟨c, σ, σ, hname, by simp only [Table.get, hl]⟩, fun hn => absurd hin hn⟩

/-- Two modules with the same definition. -/
theorem named_struct_twice :
    let m : Module := ⟨[("S", some ⟨[.integerType 32], false⟩)]⟩
    ∃ σ c σ' σ'', addModules [m, m] new = .done () σ ∧
      Table.get (.namedStructType "S") σ = .done c σ' ∧
      Table.get (.structType [.integerType 32] false) σ' = .done c σ'' := by
  intro m
  have hm : ("S", some (⟨[.integerType 32], false⟩ : StructDef)) ∈ m.structs := by simp [m]
  have hiff := named_struct_iff [] [m] hm rfl
  obtain ⟨⟨c, σ', σ'', hget, hown⟩, -⟩ := hiff.mpr ⟨by decide, m, by simp, _, hm⟩
  exact ⟨_, c, σ', σ'', rfl, hget, hown⟩

/-- A second module redefines the struct, and the class under its name is not the one that the
first module has defined; `named_struct` does not find the only struct there is. -/
theorem named_struct_fails :
    let m : Module := ⟨[("S", some ⟨[.integerType 32], false⟩)]⟩
    let m' : Module := ⟨[("S", some ⟨[.integerType 64], false⟩)]⟩
    (∃ σ c c' σ', addModules [m, m'] new = .done () σ ∧
      Table.get (.namedStructType "S") σ = .done c σ ∧
      Table.get (.structType [.integerType 32] false) σ = .done c' σ' ∧ c ≠ c') ∧
    ∃ σ, addModules [m] new = .done () σ ∧ namedStruct "S" σ = .done none σ :=
  ⟨⟨_, 1, 0, _, rfl, rfl, rfl, by decide⟩, _, rfl, rfl⟩

end Named

end AtomicSim.Table
