import AtomicSim.StepPure

namespace AtomicSim

/-- A constant, or a thunk of the same thread that was decoded earlier. -/
def Thunk.Before (c : ThunkInner) : Thunk → Prop
  | .constant _ => True
  | .cell t i => t = c.threadid ∧ i < c.seq

instance (c : ThunkInner) : DecidablePred (Thunk.Before c)
  | .constant _ => inferInstanceAs (Decidable True)
  | .cell _ _ => inferInstanceAs (Decidable (_ ∧ _))

def ThunkInner.operands (c : ThunkInner) : List Thunk := c.deps ++ c.address.toList.map Prod.fst

namespace Process

/-- What decoding gives: every operand is a constant or an earlier thunk of the same thread. -/
def DepsEarlier (p : Process) : Prop :=
  ∀ t < p.nextThreadid, ∀ c ∈ (p.flows t).decoded, ∀ d ∈ c.operands, d.Before c

instance (p : Process) : Decidable p.DepsEarlier :=
  inferInstanceAs (Decidable (∀ t < p.nextThreadid, _))

theorem DepsEarlier.before {p : Process} (h : p.DepsEarlier) (hp : p.WF) {t : ThreadId}
    {c : ThunkInner} (hc : c ∈ (p.flows t).decoded) {d : Thunk} (hd : d ∈ c.operands) :
    d.Before c := by
  refine h t (Nat.lt_of_not_le fun hle => ?_) c hc d hd
  rw [hp.fresh hle] at hc
  cases hc

theorem DepsEarlier.mono {p q : Process} (h : q.DepsEarlier) (hq : q.WF) (hpq : p.Extends q) :
    p.DepsEarlier :=
  fun t _ _ hc _ hd => h.before hq ((hpq.decoded t).subset hc) hd

theorem depsEarlier_retain {p : Process} {t : ThreadId} :
    (p.modify t DataFlow.retain).DepsEarlier ↔ p.DepsEarlier := by
  simp only [DepsEarlier, decoded_retain]
  rfl

/-- An operand that is not ready is an unresolved thunk further up the pipeline. -/
theorem exists_before_of_tryGet {p : Process} (hp : p.WF) (h : p.DepsEarlier) {c : ThunkInner}
    (hc : c ∈ (p.flows c.threadid).thunks) {d : Thunk} (hd : d ∈ c.operands)
    (hn : d.tryGet p = none) :
    ∃ b ∈ p.before c, d = .cell c.threadid b.seq ∧ p.value c.threadid b.seq = none := by
  have hdec := hp.getElem?_of_mem hc
  have hbef := h.before hp (List.mem_of_getElem? hdec) hd
  cases d with
  | constant v => cases hn
  | cell t i =>
    obtain ⟨rfl, hi⟩ := hbef
    have hlt := hi.trans (List.getElem?_eq_some_iff.mp hdec).1
    have hb := List.getElem?_eq_getElem hlt
    have hseq := (hp.numbered hb).2
    refine ⟨_, mem_before.mpr ⟨hp.unresolved hb hn, by rw [hseq]; exact hi⟩, ?_, ?_⟩
    · rw [hseq]
    · rw [hseq]
      exact hn

end Process

namespace Process

def unresolved (p : Process) (t : ThreadId) : List ThunkInner :=
  (p.flows t).thunks.filter fun c => (p.value t c.seq).isNone

theorem thunks_retain_self (p : Process) (t : ThreadId) :
    ((p.modify t DataFlow.retain).flows t).thunks = p.unresolved t := by
  rw [thunks_retain, if_pos rfl]
  rfl

theorem unresolved_retain (p : Process) (t u : ThreadId) :
    (p.modify t DataFlow.retain).unresolved u = p.unresolved u := by
  rw [unresolved, thunks_retain, value_retain]
  split_ifs with hu
  · rw [hu, List.filter_filter]
    simp only [Bool.and_self]
    rfl
  · rfl

theorem mem_unresolved {p : Process} {t : ThreadId} {c : ThunkInner} :
    c ∈ p.unresolved t ↔ c ∈ (p.flows t).thunks ∧ p.value t c.seq = none := by
  rw [unresolved, List.mem_filter, Option.isNone_iff_eq_none]

end Process

/-- What `resolvable` holds once the loop of `step` is left: an atomic access in its turn,
with nothing resolved left in its pipeline and only stuck thunks before it. A release access
is offered only if it heads the pipeline. -/
structure Offered (G : Process → ThunkInner → Prop) (p : Process) (c : ThunkInner) : Prop where
  eligible : Eligible G p c
  atomic : c.isAtomic
  settled : ∀ b ∈ (p.flows c.threadid).thunks, p.value c.threadid b.seq = none
  stuck : ∀ b ∈ p.before c, p.Stuck b
  release : p.DepsEarlier → c.atomicity = .release →
    (p.flows c.threadid).thunks.head? = some c

theorem Offered.value {G : Process → ThunkInner → Prop} {p : Process} {c : ThunkInner}
    (h : Offered G p c) : p.value c.threadid c.seq = none :=
  h.settled c h.eligible.mem

theorem tryGet_of_before_eq_nil {p : Process} (hp : p.WF) (hd : p.DepsEarlier) {c : ThunkInner}
    (hc : c ∈ (p.flows c.threadid).thunks) (hb : p.before c = []) {d : Thunk}
    (hdc : d ∈ c.operands) : d.tryGet p ≠ none := by
  intro hn
  obtain ⟨b, hb', -⟩ := Process.exists_before_of_tryGet hp hd hc hdc hn
  rw [hb] at hb'
  cases hb'

theorem Offered.head {G : Process → ThunkInner → Prop} {p : Process} {c u : ThunkInner}
    (h : Offered G p c) (hp : p.WF) (hd : p.DepsEarlier)
    (hu : (p.flows c.threadid).thunks.head? = some u) : u.isAtomic := by
  obtain ⟨rest, ht⟩ := List.head?_eq_some_iff.mp hu
  have humem : u ∈ (p.flows c.threadid).thunks := ht ▸ List.mem_cons_self
  have htid := hp.threadid_of_mem humem
  rw [← htid] at ht humem
  have hnil := Process.before_eq_nil hp ht
  have hmem := h.eligible.mem
  rw [← htid, ht] at hmem
  rcases List.mem_cons.mp hmem with rfl | hrest
  · exact h.atomic
  have hlt : u.seq < c.seq := by
    have hs := hp.sorted u.threadid
    rw [ht, List.pairwise_cons] at hs
    exact hs.1 c hrest
  -- with nothing before it, `u` can be stuck only as an atomic access
  rcases h.stuck u (Process.mem_before.mpr ⟨htid ▸ humem, hlt⟩) with ha | ha | ⟨d, hdu, hn⟩
  · exact ha
  · obtain ⟨r, -, s, hs, -⟩ := ha
    rw [hnil] at hs
    cases hs
  · exact absurd hn (tryGet_of_before_eq_nil hp hd humem hnil (List.mem_append_left _ hdu))

section StepPure

variable {G : Process → ThunkInner → Prop} {p p' : Process} {t : ThreadId}
variable {r r' : List ThunkInner}

theorem stepPure_eq_some {b : Bool} :
    p.stepPure t r = some (p', r', b) ↔ ∃ s, Scan.loop (p.unresolved t) (p.scan t r) = some s ∧
      s.process = p' ∧ s.resolvable = r' ∧ s.progress = b := by
  rw [← Process.thunks_retain_self]
  simp only [Process.stepPure, Option.bind_eq_bind, Option.bind_eq_some_iff, Option.some.injEq,
    Prod.mk.injEq]
  rfl

theorem loopInv_scan {Inv : Process → Prop} (hp : p.WF)
    (hinv : Inv (p.modify t DataFlow.retain)) (r : List ThunkInner) :
    LoopInv G Inv t [] (p.unresolved t) (p.scan t r).process (p.scan t r).pending where
  wf := Process.wf_retain hp t
  thunks := Process.thunks_retain_self p t
  disjoint := RangeMap.wf_new
  covered x := by simp [Process.scan, RangeMap.lookup, RangeMap.new, Process.held]
  known := nofun
  barrier := nofun
  inv := hinv

theorem value_of_mem_unresolved {b : ThunkInner}
    (hb : b ∈ ((p.modify t DataFlow.retain).flows t).thunks) :
    (p.modify t DataFlow.retain).value t b.seq = none := by
  rw [Process.thunks_retain_self] at hb
  rw [Process.value_retain]
  exact (Process.mem_unresolved.mp hb).2

theorem retain_of_settled (h : ∀ b ∈ (p.flows t).thunks, p.value t b.seq = none) :
    p.modify t DataFlow.retain = p := by
  have hflow : DataFlow.retain (p.flows t) = p.flows t := by
    have hf : (p.flows t).thunks.filter (fun b => ((p.flows t).value b.seq).isNone) =
        (p.flows t).thunks :=
      List.filter_eq_self.mpr fun b hb => Option.isNone_iff_eq_none.mpr (h b hb)
    rw [DataFlow.retain, hf]
  rw [Process.modify, hflow, Function.update_eq_self]

/-- Without progress, the first unresolved thunk of a thread is offered, unless it is a
release access that comes after another thread's offer. -/
theorem head_visit (hp : p.WF) (hd : p.DepsEarlier) {u : ThunkInner} {rest : List ThunkInner}
    (ht : p.unresolved t = u :: rest) {s : Scan} {brk : Bool}
    (hv : Visited (p.scan t r) u s brk) (hq : s.progress = false) :
    s.resolvable = r ++ [u] ∨ u.atomicity = .release ∧ r ≠ [] ∧ s.resolvable = r := by
  have hwf := Process.wf_retain hp t
  rw [← Process.thunks_retain_self] at ht
  have hmem : u ∈ ((p.modify t DataFlow.retain).flows t).thunks := by simp [ht]
  have htid := hwf.threadid_of_mem hmem
  subst htid
  have hbefore := Process.before_eq_nil hwf ht
  have hd' := Process.depsEarlier_retain (t := u.threadid).mpr hd
  have hready : ∀ d ∈ u.operands, d.tryGet (p.modify u.threadid DataFlow.retain) ≠ none :=
    fun d hdu => tryGet_of_before_eq_nil hwf hd' hmem hbefore hdu
  -- stepping the head would make progress
  have hstuck : ∀ {q b}, Stepped (p.scan u.threadid r).process u q b → b = true := by
    intro q b hs
    cases hs with
    | resolved => rfl
    | stuck h =>
      rcases h with ⟨d, hdu, hn⟩ | h
      · exact absurd hn (hready d (List.mem_append_left _ hdu))
      · exact absurd (value_of_mem_unresolved hmem) h
  have hnew : ∀ range : Range ℕ, (RangeMap.new : RangeMap ℕ Unit).range range = [] := fun _ => rfl
  cases hv with
  | pure _ hs | direct _ _ _ hs =>
    cases hstuck hs
    simp at hq
  | unknown hm hr =>
    rw [ThunkInner.isMemory, Option.isSome_iff_exists] at hm
    obtain ⟨al, hal⟩ := hm
    simp only [ThunkInner.range, hal, Option.map_eq_none_iff] at hr
    exact absurd hr (hready al.1 (List.mem_append_right _ (by simp [hal])))
  | aliased _ hne => exact absurd (hnew _) hne
  | blocked _ _ hat hne => exact .inr ⟨hat, hne, rfl⟩
  | offered _ _ _ _ => exact .inl rfl

/-- The head of the pipeline leaves `resolvable` non-empty; a release access offered by the
loop is that head. -/
theorem loop_head (hp : p.WF) (hd : p.DepsEarlier) {u : ThunkInner} {rest : List ThunkInner}
    (ht : p.unresolved t = u :: rest) {s : Scan}
    (hl : Scan.loop (u :: rest) (p.scan t r) = some s) (hq : s.progress = false) :
    s.resolvable ≠ [] ∧
      (r ++ [u] <+: s.resolvable ∨ u.atomicity = .release ∧ r ≠ []) ∧
      ∀ c ∈ s.resolvable, c.atomicity = .release → c ∈ r ∨ c = u := by
  obtain ⟨s₁, brk, hv, hl⟩ := loop_cons.mp hl
  have hv := visited_of_visit hv
  have hq₁ : s₁.progress = false := by
    rcases hl with ⟨rfl, rfl⟩ | ⟨rfl, hl⟩
    · exact hq
    · exact (loop_quiet hl hq).2
  have hres := head_visit hp hd ht hv hq₁
  have hpre : s₁.resolvable <+: s.resolvable := by
    rcases hl with ⟨rfl, rfl⟩ | ⟨rfl, hl⟩
    · exact List.prefix_rfl
    · exact loop_resolvable hl
  -- after the first turn `resolvable` is not empty, so later release accesses are blocked
  have hne₁ : s₁.resolvable ≠ [] := by
    rcases hres with h | ⟨-, hr, h⟩ <;> rw [h]
    · simp
    · exact hr
  refine ⟨fun h => hne₁ (List.prefix_nil.mp (h ▸ hpre)), ?_, fun c hc hrel => ?_⟩
  · rcases hres with h | ⟨hu, hr, -⟩
    · exact .inl (h ▸ hpre)
    · exact .inr ⟨hu, hr⟩
  · have hc₁ : c ∈ s₁.resolvable := by
      rcases hl with ⟨rfl, rfl⟩ | ⟨rfl, hl⟩
      · exact hc
      · exact loop_release hl hne₁ hc hrel
    rcases hres with h | ⟨-, -, h⟩ <;> rw [h] at hc₁
    · rcases List.mem_append.mp hc₁ with h | h
      · exact .inl h
      · exact .inr (List.mem_singleton.mp h)
    · exact .inl hc₁

/-- `step_pure` without progress only drops resolved thunks, and what it adds to
`resolvable` is offered. -/
theorem stepPure_quiet (hp : p.WF) (h : p.stepPure t r = some (p', r', false))
    (hG : ∀ v ∈ (p.scan t r).visits (p.unresolved t), G v.1 v.2) :
    p' = p.modify t DataFlow.retain ∧ r <+: r' ∧ ∀ c ∈ r', c ∈ r ∨ Offered G p' c := by
  obtain ⟨s, hl, rfl, rfl, hq⟩ := stepPure_eq_some.mp h
  have hproc : s.process = p.modify t DataFlow.retain := (loop_quiet hl hq).1
  refine ⟨hproc, loop_resolvable hl, fun c hc => ?_⟩
  by_cases hcr : c ∈ r
  · exact .inl hcr
  have hinv : LoopInv G (fun _ => True) t [] (p.unresolved t) (p.scan t r).process
      (p.scan t r).pending := loopInv_scan hp trivial r
  obtain ⟨htid, hat, he, hstuck⟩ :=
    (hinv.offers (fun b hb => value_of_mem_unresolved hb) nofun hG hl hq hc).resolve_left hcr
  subst htid
  refine .inr ⟨hproc ▸ he, hat, ?_, hproc ▸ hstuck, ?_⟩ <;> rw [hproc]
  · exact fun b hb => value_of_mem_unresolved hb
  · intro hd hrel
    rw [Process.thunks_retain_self]
    cases ht : p.unresolved c.threadid with
    | nil =>
      rw [ht] at hl
      cases hl
      exact absurd hc hcr
    | cons u rest =>
      rw [ht] at hl
      have hlast := (loop_head hp (Process.depsEarlier_retain.mp hd) ht hl hq).2.2 c hc hrel
      rw [hlast.resolve_left hcr]
      rfl

theorem Process.Agrees.stuck {b : ThunkInner} (h : p.Agrees p' b.threadid) :
    p.Stuck b ↔ p'.Stuck b := by
  simp only [Process.Stuck, h.aliased, h.tryGet]

theorem Offered.retain (hp : p.WF) {c : ThunkInner} (h : Offered G p c) (t : ThreadId) :
    Offered G (p.modify t DataFlow.retain) c := by
  by_cases ht : c.threadid = t
  · -- the thread is passed again only in the next pass; nothing resolved is left to drop
    rw [retain_of_settled (ht ▸ h.settled)]
    exact h
  · have hflow : (p.modify t DataFlow.retain).flows c.threadid = p.flows c.threadid :=
      Process.flows_modify_of_ne p ht _
    have hval := Process.value_retain p t
    have ha : p.Agrees (p.modify t DataFlow.retain) c.threadid := ⟨hval.symm, hflow.symm⟩
    refine ⟨h.eligible.congr ha, h.atomic, ?_, fun b hb => ?_, ?_⟩
    · rw [hval, hflow]
      exact h.settled
    · rw [← ha.before] at hb
      rw [← hp.threadid_of_mem (Process.mem_before.mp hb).1] at ha
      exact ha.stuck.mp (h.stuck b hb)
    · rw [Process.depsEarlier_retain, hflow]
      exact h.release

end StepPure

section Pass

variable {G : Process → ThunkInner → Prop} {Inv : Process → Prop} {p p' : Process}
variable {ts : List ThreadId} {r r' : List ThunkInner} {b b' : Bool}

theorem passFrom_cons {t : ThreadId} :
    Process.passFrom (t :: ts) (p, r, b) = some (p', r', b') ↔
      ∃ p₁ r₁ b₁, p.stepPure t r = some (p₁, r₁, b₁) ∧
        Process.passFrom ts (p₁, r₁, b || b₁) = some (p', r', b') := by
  rw [Process.passFrom]
  rcases p.stepPure t r with _ | ⟨p₁, r₁, b₁⟩
  · simp
  · constructor
    · exact fun h => ⟨p₁, r₁, b₁, rfl, h⟩
    · rintro ⟨_, _, _, h, h'⟩
      cases h
      exact h'

theorem visitsFrom_cons {t : ThreadId} {p₁ : Process} {r₁ : List ThunkInner} {b₁ : Bool}
    (h : p.stepPure t r = some (p₁, r₁, b₁)) :
    Process.visitsFrom (t :: ts) (p, r) =
      (p.scan t r).visits (p.unresolved t) ++ Process.visitsFrom ts (p₁, r₁) := by
  rw [Process.visitsFrom, h, ← Process.thunks_retain_self]
  rfl

theorem passFrom_flag (h : Process.passFrom ts (p, r, b) = some (p', r', false)) : b = false := by
  induction ts generalizing p r b with
  | nil =>
    cases h
    rfl
  | cons t ts ih =>
    obtain ⟨_, _, _, -, h⟩ := passFrom_cons.mp h
    exact (Bool.or_eq_false_iff.mp (ih h)).1

theorem passFrom_cons_quiet {t : ThreadId}
    (h : Process.passFrom (t :: ts) (p, r, b) = some (p', r', false)) :
    ∃ s, Scan.loop (p.unresolved t) (p.scan t r) = some s ∧ s.progress = false ∧
      Process.passFrom ts (p.modify t DataFlow.retain, s.resolvable, false) =
        some (p', r', false) := by
  obtain ⟨p₁, r₁, b₁, hs, h⟩ := passFrom_cons.mp h
  obtain ⟨rfl, rfl⟩ := Bool.or_eq_false_iff.mp (passFrom_flag h)
  obtain ⟨s, hl, rfl, rfl, hq⟩ := stepPure_eq_some.mp hs
  refine ⟨s, hl, hq, ?_⟩
  have hproc : s.process = p.modify t DataFlow.retain := (loop_quiet hl hq).1
  rwa [hproc] at h

theorem passFrom_inv (hret : ∀ {q : Process} {t}, Inv q → Inv (q.modify t DataFlow.retain))
    (hpres : Preserves G Inv) (hp : p.WF) (hinv : Inv p)
    (hG : ∀ v ∈ Process.visitsFrom ts (p, r), G v.1 v.2)
    (h : Process.passFrom ts (p, r, b) = some (p', r', b')) : p'.WF ∧ Inv p' := by
  induction ts generalizing p r b with
  | nil =>
    cases h
    exact ⟨hp, hinv⟩
  | cons t ts ih =>
    obtain ⟨p₁, r₁, b₁, hs, h⟩ := passFrom_cons.mp h
    rw [visitsFrom_cons hs] at hG
    obtain ⟨s, hl, rfl, rfl, -⟩ := stepPure_eq_some.mp hs
    obtain ⟨hwf, hinv₁⟩ := (loopInv_scan hp (hret hinv) r).loop hpres
      (fun v hv => hG v (List.mem_append_left _ hv)) hl
    exact ih hwf hinv₁ (fun v hv => hG v (List.mem_append_right _ hv)) h

/-- A pass without progress changes no value, and all it offers is offered at its end. -/
theorem passFrom_quiet (hp : p.WF) (hG : ∀ v ∈ Process.visitsFrom ts (p, r), G v.1 v.2)
    (hr : ∀ c ∈ r, Offered G p c)
    (h : Process.passFrom ts (p, r, b) = some (p', r', false)) :
    p'.WF ∧ b = false ∧ ∀ c ∈ r', Offered G p' c := by
  induction ts generalizing p r b with
  | nil =>
    cases h
    exact ⟨hp, rfl, hr⟩
  | cons t ts ih =>
    obtain ⟨p₁, r₁, b₁, hs, h⟩ := passFrom_cons.mp h
    rw [visitsFrom_cons hs] at hG
    obtain ⟨rfl, rfl⟩ := Bool.or_eq_false_iff.mp (passFrom_flag h)
    obtain ⟨rfl, -, hoff⟩ := stepPure_quiet hp hs fun v hv => hG v (List.mem_append_left _ hv)
    have hr₁ : ∀ c ∈ r₁, Offered G (p.modify t DataFlow.retain) c := fun c hc =>
      (hoff c hc).elim (fun hcr => (hr c hcr).retain hp t) id
    obtain ⟨hwf, -, hend⟩ :=
      ih (Process.wf_retain hp t) (fun v hv => hG v (List.mem_append_right _ hv)) hr₁ h
    exact ⟨hwf, rfl, hend⟩

theorem pass_eq_some :
    p.pass = some (p', r', b') ↔
      ∃ q : Process, Process.passFrom p.threads (p, [], false) = some (q, r', b') ∧
        q.reapThreads = p' := by
  rw [Process.pass, Option.map_eq_some_iff]
  constructor
  · rintro ⟨⟨q, r, b⟩, h, hq⟩
    cases hq
    exact ⟨q, h, rfl⟩
  · rintro ⟨q, h, rfl⟩
    exact ⟨(q, r', b'), h, rfl⟩

theorem Offered.reapThreads {c : ThunkInner} (h : Offered G p c) : Offered G p.reapThreads c :=
  ⟨h.eligible.congr ⟨rfl, rfl⟩, h.atomic, h.settled,
    fun b hb => (Process.Agrees.stuck ⟨rfl, rfl⟩).mp (h.stuck b hb), h.release⟩

end Pass

/-- The thunks in the order in which they were resolved. -/
def Process.trace (p : Process) : List (ThreadId × ℕ) := p.log.filterMap Event.id

theorem trace_resolve (p : Process) (c : ThunkInner) (v : Value) (m : Memory) :
    (p.resolve c v m).trace = p.trace ++ [(c.threadid, c.seq)] := by
  simp [Process.trace, Process.resolve, Event.id]

theorem mem_trace {p : Process} (hp : p.WF) {t : ThreadId} {i : ℕ} :
    (t, i) ∈ p.trace ↔ p.value t i ≠ none := by
  rw [Process.trace, List.mem_filterMap, Option.ne_none_iff_exists']
  constructor
  · rintro ⟨e, he, hid⟩
    cases e with
    | res t' i' v m m' =>
      cases hid
      exact ⟨v, hp.logged.mpr ⟨m, m', he⟩⟩
    | store m m' => cases hid
  · rintro ⟨v, hv⟩
    obtain ⟨m, m', he⟩ := hp.logged.mp hv
    exact ⟨_, he, rfl⟩

/-- Processes that differ only in their live threads and in the resolved thunks that their
pipelines still hold. -/
structure Process.Same (p q : Process) : Prop where
  value : q.value = p.value
  decoded : ∀ t, (q.flows t).decoded = (p.flows t).decoded
  log : q.log = p.log
  memory : q.memory = p.memory

/-- What to show of `Inv` for runs to keep it. -/
structure Invariant (G : Process → ThunkInner → Prop) (Inv : Process → Prop) : Prop where
  same : ∀ {p q : Process}, p.Same q → Inv p → Inv q
  push : ∀ {p : Process} {c : ThunkInner}, p.WF → c.threadid ∈ p.threads →
    c.seq = (p.flows c.threadid).seq → Inv p → Inv (p.modify c.threadid fun f => f.push c)
  store : ∀ {p : Process} {m : Memory}, p.WF → Inv p →
    Inv { p with memory := m, log := p.log ++ [.store p.memory m] }
  resolve : ∀ {p p' : Process} {c : ThunkInner}, p.WF → Inv p → Eligible G p c →
    (c.isAtomic → Offered G p c) → Stepped p c p' true → Inv p'

section Runs

variable {G : Process → ThunkInner → Prop} {Inv : Process → Prop}

theorem Invariant.decoded (h : Invariant G Inv) {p p' : Process} (hp : p.WF) (hinv : Inv p)
    (hd : p.Decoded p') : Inv p' := by
  have hval := hd.value hp
  cases hd with
  | push ht hs => exact h.push hp ht hs hinv
  | addThread =>
    refine h.same ⟨hval, fun t => ?_, rfl, rfl⟩ hinv
    by_cases ht : t = p.nextThreadid
    · subst ht
      rw [Process.addThread, hp.fresh le_rfl]
      simp only [Function.update_self]
    · simp only [Process.addThread, Function.update_of_ne ht]
  | @join t _ =>
    exact h.same ⟨hval, fun u => Process.proj_modify p t u DataFlow.decoded
      (fun f => { f with joined := true }) fun _ => rfl, rfl, rfl⟩ hinv
  | store m => exact h.store hp hinv

theorem Invariant.retain (h : Invariant G Inv) {p : Process} {t : ThreadId} (hinv : Inv p) :
    Inv (p.modify t DataFlow.retain) :=
  h.same ⟨Process.value_retain p t, fun u => Process.decoded_retain p t u, rfl, rfl⟩ hinv

theorem Invariant.preserves (h : Invariant G Inv) : Preserves G Inv :=
  fun hp hinv he hat hs => h.resolve hp hinv he (fun ha => by rw [hat] at ha; cases ha) hs

/-- The three things true of a configuration that a run reaches. -/
structure Config.Good (G : Process → ThunkInner → Prop) (Inv : Process → Prop) (c : Config) :
    Prop where
  wf : c.process.WF
  inv : Inv c.process
  offered : ∀ {p r}, c = .offering p r → ∀ u ∈ r, Offered G p u

theorem Invariant.pass (h : Invariant G Inv) {p p' : Process} {r : List ThunkInner} {b : Bool}
    (hp : p.WF) (hinv : Inv p) (hG : ∀ v ∈ p.visits, G v.1 v.2) (hr : p.pass = some (p', r, b)) :
    p'.WF ∧ Inv p' ∧ (b = false → ∀ u ∈ r, Offered G p' u) := by
  obtain ⟨q, hq, rfl⟩ := pass_eq_some.mp hr
  obtain ⟨hwf, hinv'⟩ := passFrom_inv h.retain h.preserves hp hinv hG hq
  refine ⟨Process.wf_reapThreads hwf, h.same (p := q) ⟨rfl, fun _ => rfl, rfl, rfl⟩ hinv', ?_⟩
  rintro rfl u hu
  exact ((passFrom_quiet hp hG nofun hq).2.2 u hu).reapThreads

theorem Invariant.choose (h : Invariant G Inv) {p p' : Process} {u : ThunkInner} (hp : p.WF)
    (hinv : Inv p) (hu : Offered G p u) (hs : u.step p = some (p', true)) : p'.WF ∧ Inv p' := by
  have hs := stepped_of_step hs
  refine ⟨?_, h.resolve hp hinv hu.eligible (fun _ => hu) hs⟩
  cases hs with
  | resolved _ hv _ _ => exact Process.wf_resolve hp (hp.getElem?_of_mem hu.eligible.mem) hv _ _

theorem Invariant.act (h : Invariant G Inv) {c c' : Config} {a : Action} (hc : c.Good G Inv)
    (ha : c.act a = some c') (hG : ∀ v ∈ c.visits a, G v.1 v.2) : c'.Good G Inv := by
  cases c with
  | decoding p =>
    cases a with
    | decode d =>
      obtain ⟨p', hd, rfl⟩ := Option.map_eq_some_iff.mp ha
      have hd := Process.decoded_of_decode hd
      exact ⟨hd.wf hc.wf, h.decoded hc.wf hc.inv hd, nofun⟩
    | pass =>
      obtain ⟨⟨p', r, b⟩, hp, hc'⟩ := Option.map_eq_some_iff.mp ha
      obtain ⟨hwf, hinv, hoff⟩ := h.pass hc.wf hc.inv hG hp
      cases b with
      | true =>
        cases hc'
        exact ⟨hwf, hinv, nofun⟩
      | false =>
        cases hc'
        refine ⟨hwf, hinv, ?_⟩
        intro q r' hqr
        cases hqr
        exact hoff rfl
    | choose n => cases ha
  | offering p r =>
    cases a with
    | decode d => cases ha
    | pass => cases ha
    | choose n =>
      simp only [Config.act] at ha
      cases hn : r[n]? with
      | none =>
        rw [hn] at ha
        cases ha
      | some u =>
        simp only [hn] at ha
        split at ha
        · rename_i p' hs
          cases ha
          have hu := hc.offered rfl u (List.mem_of_getElem? hn)
          obtain ⟨hwf, hinv⟩ := h.choose hc.wf hc.inv hu hs
          exact ⟨hwf, hinv, nofun⟩
        · -- a chosen thunk whose `step` returns false fails the assertion
          cases ha

theorem Config.good_new {m : Memory} (h : Inv (.new m)) :
    (Config.decoding (.new m)).Good G Inv :=
  ⟨Process.wf_new m, h, nofun⟩

theorem Reachable.good (h : Invariant G Inv) (hnew : ∀ m, Inv (.new m)) {c : Config}
    (hc : Reachable G c) : c.Good G Inv := by
  induction hc with
  | new m => exact Config.good_new (hnew m)
  | act _ ha hG ih => exact h.act ih ha hG

theorem Invariant.run (h : Invariant G Inv) {c c' : Config} {acts : List Action}
    (hc : c.Good G Inv) (hr : c.run acts = some c')
    (hG : ∀ v ∈ c.runVisits acts, G v.1 v.2) : c'.Good G Inv := by
  induction acts generalizing c with
  | nil =>
    cases hr
    exact hc
  | cons a acts ih =>
    obtain ⟨d, hd, hr⟩ := Option.bind_eq_some_iff.mp hr
    rw [Config.runVisits, hd] at hG
    refine ih (h.act hc hd fun v hv => hG v (List.mem_append_left _ hv)) hr fun v hv => ?_
    exact hG v (List.mem_append_right _ hv)

end Runs

end AtomicSim
