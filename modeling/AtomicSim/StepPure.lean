import AtomicSim.Pipeline

namespace AtomicSim

/-- The ways `Thunk::step` returns. -/
inductive Stepped (p : Process) (c : ThunkInner) : Process → Bool → Prop
  | stuck : (∃ d ∈ c.deps, d.tryGet p = none) ∨ p.value c.threadid c.seq ≠ none →
      Stepped p c p false
  | resolved {args : List Value} {v : Value} {m : Memory} :
      c.deps.mapM (Thunk.tryGet p) = some args → p.value c.threadid c.seq = none →
      c.compute p.memory args = some (v, m) → v.debug.isSome →
      Stepped p c (p.resolve c v m) true

theorem stepped_of_step {p p' : Process} {c : ThunkInner} {b : Bool}
    (h : c.step p = some (p', b)) : Stepped p c p' b := by
  unfold ThunkInner.step at h
  cases hargs : c.deps.mapM (Thunk.tryGet p) with
  | none =>
    rw [hargs] at h
    cases h
    exact .stuck (.inl (mapM_eq_none_iff.mp hargs))
  | some args =>
    rw [hargs] at h
    cases hval : p.value c.threadid c.seq with
    | some v =>
      simp only [hval] at h
      cases h
      exact .stuck (.inr (by rw [hval]; nofun))
    | none =>
      simp only [hval, Option.bind_eq_bind, Option.bind_eq_some_iff] at h
      obtain ⟨⟨v, m⟩, hc, str, hd, h⟩ := h
      cases h
      exact .resolved hargs hval hc (by rw [hd]; rfl)

theorem step_of_ready {p : Process} {c : ThunkInner} {args : List Value}
    (hargs : c.deps.mapM (Thunk.tryGet p) = some args) (hv : p.value c.threadid c.seq = none) :
    c.step p = (c.compute p.memory args).bind fun (v, m) =>
      v.debug.map fun _ => (p.resolve c v m, true) := by
  simp only [ThunkInner.step, hargs, hv, Option.map_eq_bind]
  rfl

/-- The ways through the body of the loop of `step_pure`. -/
inductive Visited (s : Scan) (c : ThunkInner) : Scan → Bool → Prop
  | pure {p : Process} {b : Bool} : c.address = none → Stepped s.process c p b →
      Visited s c { s with process := p, progress := s.progress || b } false
  | unknown : c.isMemory → c.range s.process = none → Visited s c s true
  | aliased {r : Range ℕ} : c.range s.process = some r → s.pending.range r ≠ [] →
      Visited s c s false
  | direct {r : Range ℕ} {p : Process} {b : Bool} : c.range s.process = some r →
      s.pending.range r = [] → c.atomicity = .none → Stepped s.process c p b →
      Visited s c ⟨p, s.pending.insert r (), s.resolvable, s.progress || b⟩ false
  | blocked {r : Range ℕ} : c.range s.process = some r → s.pending.range r = [] →
      c.atomicity = .release → s.resolvable ≠ [] →
      Visited s c { s with pending := s.pending.insert r () } false
  | offered {r : Range ℕ} : c.range s.process = some r → s.pending.range r = [] →
      c.atomicity ≠ .none → (c.atomicity = .release → s.resolvable = []) →
      Visited s c ⟨s.process, s.pending.insert r (), s.resolvable ++ [c], s.progress⟩
        c.atomicity.isAcquire

theorem scan_step_eq_some {s s' : Scan} {c : ThunkInner} (h : s.step c = some s') :
    ∃ p b, Stepped s.process c p b ∧ s' = { s with process := p, progress := s.progress || b } := by
  simp only [Scan.step, Option.bind_eq_bind, Option.bind_eq_some_iff] at h
  obtain ⟨⟨p, b⟩, hs, h⟩ := h
  exact ⟨p, b, stepped_of_step hs, (Option.some.inj h).symm⟩

theorem visited_of_visit {s s' : Scan} {c : ThunkInner} {brk : Bool}
    (h : s.visit c = some (s', brk)) : Visited s c s' brk := by
  unfold Scan.visit at h
  cases ha : c.address with
  | none =>
    simp only [ha, Option.map_eq_some_iff, Prod.mk.injEq] at h
    obtain ⟨s₁, hs, rfl, rfl⟩ := h
    obtain ⟨p, b, hst, rfl⟩ := scan_step_eq_some hs
    exact .pure ha hst
  | some al =>
    obtain ⟨address, layout⟩ := al
    simp only [ha] at h
    cases hg : address.tryGet s.process with
    | none =>
      simp only [hg, Option.some.injEq, Prod.mk.injEq] at h
      obtain ⟨rfl, rfl⟩ := h
      refine .unknown (by rw [ThunkInner.isMemory, ha]; rfl) ?_
      simp only [ThunkInner.range, ha, hg, Option.map_none]
    | some a =>
      simp only [hg, Option.bind_eq_bind, Option.bind_eq_some_iff] at h
      obtain ⟨stop, hstop, h⟩ := h
      obtain ⟨-, rfl⟩ := addU64_eq_some.mp hstop
      have hr : c.range s.process = some ⟨a.asU64, a.asU64 + layout.bytes⟩ := by
        simp only [ThunkInner.range, ha, hg, Option.map_some]
      -- from here on the address is known and the loop looks at `pending`
      by_cases hp : (s.pending.range ⟨a.asU64, a.asU64 + layout.bytes⟩).head?.isSome
      · rw [if_pos hp] at h
        obtain ⟨rfl, rfl⟩ := Prod.mk.inj (Option.some.inj h)
        exact .aliased hr (List.isSome_head?.mp hp)
      · rw [if_neg hp] at h
        have hnil := not_not.mp (List.isSome_head?.not.mp hp)
        cases hat : c.atomicity with
        | none =>
          simp only [hat, Option.map_eq_some_iff, Prod.mk.injEq] at h
          obtain ⟨s₁, hs, rfl, rfl⟩ := h
          obtain ⟨p, b, hst, rfl⟩ := scan_step_eq_some hs
          exact .direct hr hnil hat hst
        | release =>
          simp only [hat, Option.some.injEq, Prod.mk.injEq] at h
          obtain ⟨rfl, rfl⟩ := h
          split_ifs with he
          · rw [List.isEmpty_iff] at he
            have hv := Visited.offered (s := s) hr hnil (by rw [hat]; nofun) fun _ => he
            rwa [hat] at hv
          · exact .blocked hr hnil hat fun hn => he (List.isEmpty_iff.mpr hn)
        | relaxed | acquire | acqRel | seqCst =>
          simp only [hat, Option.some.injEq, Prod.mk.injEq] at h
          obtain ⟨rfl, rfl⟩ := h
          have hv := Visited.offered (s := s) hr hnil (by rw [hat]; nofun)
            fun h => by rw [hat] at h; cases h
          rwa [hat] at hv

def ThunkInner.Overlaps (p : Process) (b c : ThunkInner) : Prop :=
  ∃ r ∈ b.range p, ∃ s ∈ c.range p, r.Overlaps s

instance (p : Process) (b c : ThunkInner) : Decidable (b.Overlaps p c) :=
  inferInstanceAs (Decidable (∃ r ∈ b.range p, _))

namespace Process

/-- The thunks of the pipeline that come before `c`. -/
def before (p : Process) (c : ThunkInner) : List ThunkInner :=
  (p.flows c.threadid).thunks.filter fun b => b.seq < c.seq

def hold (p : Process) (ranges : List (Range ℕ)) (c : ThunkInner) : List (Range ℕ) :=
  match c.range p with
  | none => ranges
  | some r => if ∃ s ∈ ranges, s.Overlaps r then ranges else ranges ++ [r]

/-- The ranges of the accesses that overlap none of the accesses held before them. -/
def held (p : Process) (l : List ThunkInner) : List (Range ℕ) := l.foldl p.hold []

/-- `c` overlaps an access of its pipeline that is held before it. -/
def Aliased (p : Process) (c : ThunkInner) : Prop :=
  ∃ r ∈ c.range p, ∃ s ∈ p.held (p.before c), s.Overlaps r

instance (p : Process) (c : ThunkInner) : Decidable (p.Aliased c) :=
  inferInstanceAs (Decidable (∃ r ∈ c.range p, _))

theorem held_append (p : Process) (l : List ThunkInner) (c : ThunkInner) :
    p.held (l ++ [c]) = p.hold (p.held l) c := by
  rw [held, List.foldl_append]
  rfl

theorem held_congr {p q : Process} {l : List ThunkInner} (h : ∀ c ∈ l, c.range p = c.range q) :
    p.held l = q.held l := by
  refine List.foldl_ext _ _ _ fun ranges c hc => ?_
  rw [hold, hold, h c hc]

theorem exists_mem_of_mem_held {p : Process} {l : List ThunkInner} {s : Range ℕ}
    (h : s ∈ p.held l) : ∃ b ∈ l, b.range p = some s := by
  induction l using List.reverseRecOn with
  | nil => cases h
  | append_singleton l c ih =>
    rw [held_append, hold] at h
    cases hr : c.range p with
    | none =>
      rw [hr] at h
      obtain ⟨b, hb, hs⟩ := ih h
      exact ⟨b, List.mem_append_left _ hb, hs⟩
    | some r =>
      simp only [hr] at h
      split_ifs at h with ho
      · obtain ⟨b, hb, hs⟩ := ih h
        exact ⟨b, List.mem_append_left _ hb, hs⟩
      · rcases List.mem_append.mp h with h | h
        · obtain ⟨b, hb, hs⟩ := ih h
          exact ⟨b, List.mem_append_left _ hb, hs⟩
        · exact ⟨c, by simp, by rw [hr, List.mem_singleton.mp h]⟩

theorem exists_mem_held {p : Process} {l : List ThunkInner} {b : ThunkInner} (hb : b ∈ l)
    {r : Range ℕ} (hr : b.range p = some r) : r ∈ p.held l ∨ ∃ s ∈ p.held l, s.Overlaps r := by
  induction l using List.reverseRecOn with
  | nil => cases hb
  | append_singleton l c ih =>
    have hsub : ∀ s ∈ p.held l, s ∈ p.held (l ++ [c]) := by
      intro s hs
      rw [held_append, hold]
      split
      · exact hs
      · split_ifs
        · exact hs
        · exact List.mem_append_left _ hs
    rcases List.mem_append.mp hb with hb | hb
    · exact (ih hb).imp (hsub r) fun ⟨s, hs, ho⟩ => ⟨s, hsub s hs, ho⟩
    · cases List.mem_singleton.mp hb
      simp only [held_append, hold, hr]
      split_ifs with ho
      · exact .inr ho
      · exact .inl (by simp)

theorem Aliased.exists_overlaps {p : Process} {c : ThunkInner} (h : p.Aliased c) :
    ∃ b ∈ p.before c, b.Overlaps p c := by
  obtain ⟨r, hr, s, hs, ho⟩ := h
  obtain ⟨b, hb, hbs⟩ := exists_mem_of_mem_held hs
  exact ⟨b, hb, s, hbs, r, hr, ho⟩

/-- Two processes look the same from a thread: same values and same pipeline. -/
structure Agrees (p q : Process) (t : ThreadId) : Prop where
  value : p.value = q.value
  flow : p.flows t = q.flows t

theorem Agrees.tryGet {p q : Process} {t : ThreadId} (h : p.Agrees q t) (d : Thunk) :
    d.tryGet p = d.tryGet q := by
  cases d with
  | constant v => rfl
  | cell u i => rw [Thunk.tryGet, Thunk.tryGet, h.value]

theorem Agrees.range {p q : Process} {t : ThreadId} (h : p.Agrees q t) (c : ThunkInner) :
    c.range p = c.range q := by
  unfold ThunkInner.range
  simp only [h.tryGet]

theorem Agrees.before {p q : Process} {c : ThunkInner} (h : p.Agrees q c.threadid) :
    p.before c = q.before c := by
  rw [Process.before, Process.before, h.flow]

theorem Agrees.aliased {p q : Process} {c : ThunkInner} (h : p.Agrees q c.threadid) :
    p.Aliased c ↔ q.Aliased c := by
  rw [Aliased, Aliased, h.range, h.before, held_congr fun b _ => h.range b]

theorem Agrees.trans {p q r : Process} {t : ThreadId} (h : p.Agrees q t) (h' : q.Agrees r t) :
    p.Agrees r t :=
  ⟨h.value.trans h'.value, h.flow.trans h'.flow⟩

theorem mem_before {p : Process} {b c : ThunkInner} :
    b ∈ p.before c ↔ b ∈ (p.flows c.threadid).thunks ∧ b.seq < c.seq := by
  rw [before, List.mem_filter, decide_eq_true_eq]

theorem before_eq {p : Process} {c : ThunkInner} (h : p.WF) {done rest : List ThunkInner}
    (ht : (p.flows c.threadid).thunks = done ++ c :: rest) : p.before c = done := by
  have hs := h.sorted c.threadid
  rw [ht, List.pairwise_append, List.pairwise_cons] at hs
  have hdone : done.filter (fun b => b.seq < c.seq) = done :=
    List.filter_eq_self.mpr fun b hb => decide_eq_true (hs.2.2 b hb c List.mem_cons_self)
  have hrest : (c :: rest).filter (fun b => b.seq < c.seq) = [] := by
    refine List.filter_eq_nil_iff.mpr fun b hb => ?_
    rw [decide_eq_true_eq, Nat.not_lt]
    rcases List.mem_cons.mp hb with rfl | hb
    · exact le_rfl
    · exact (hs.2.1.1 b hb).le
  rw [before, ht, List.filter_append, hdone, hrest, List.append_nil]

theorem before_eq_nil {p : Process} {c : ThunkInner} (h : p.WF) {rest : List ThunkInner}
    (ht : (p.flows c.threadid).thunks = c :: rest) : p.before c = [] :=
  before_eq h (ht.trans (List.nil_append _).symm)

end Process

theorem isMemory_of_range {c : ThunkInner} {p : Process} {r : Range ℕ}
    (h : c.range p = some r) : c.isMemory := by
  rw [ThunkInner.isMemory, Option.isSome_iff_ne_none]
  intro hn
  rw [ThunkInner.range, hn] at h
  cases h

theorem isMemory_of_address {c : ThunkInner} (h : c.address = none) : c.isMemory = false := by
  rw [ThunkInner.isMemory, h]
  rfl

theorem isAtomic_of_atomicity {c : ThunkInner} (h : c.atomicity = .none) : c.isAtomic = false := by
  simp [ThunkInner.isAtomic, h]

/-- A thunk whose turn has come in a pass in which every thunk reached meets `G`: each
access before it has a known address, a barrier before it was passed over as aliased, and
its own range is known and free. -/
structure Eligible (G : Process → ThunkInner → Prop) (p : Process) (c : ThunkInner) : Prop where
  mem : c ∈ (p.flows c.threadid).thunks
  known : ∀ b ∈ p.before c, b.isMemory → (b.range p).isSome
  barrier : ∀ b ∈ p.before c, b.isMemory → b.atomicity.isAcquire → ∃ q, G q b ∧ q.Aliased b
  clear : c.isMemory → (c.range p).isSome ∧ ¬ p.Aliased c
  cond : ∃ q : Process, q.Agrees p c.threadid ∧ G q c

theorem Eligible.congr {G : Process → ThunkInner → Prop} {p q : Process} {c : ThunkInner}
    (h : Eligible G p c) (ha : p.Agrees q c.threadid) : Eligible G q c where
  mem := ha.flow ▸ h.mem
  known b hb hm := by
    rw [← ha.range]
    exact h.known b (ha.before ▸ hb) hm
  barrier b hb := h.barrier b (ha.before ▸ hb)
  clear hm := by
    rw [← ha.range, ← ha.aliased]
    exact h.clear hm
  cond := by
    obtain ⟨r, hr, hG⟩ := h.cond
    exact ⟨r, hr.trans ha, hG⟩

/-- The loop invariant, with the thunks the loop has passed and those it has not. -/
structure LoopInv (G : Process → ThunkInner → Prop) (Inv : Process → Prop) (t : ThreadId)
    (done rest : List ThunkInner) (p : Process) (pending : RangeMap ℕ Unit) : Prop where
  wf : p.WF
  thunks : (p.flows t).thunks = done ++ rest
  disjoint : pending.WF
  covered : ∀ x, (pending.lookup x).isSome ↔ ∃ r ∈ p.held done, r.Contains x
  known : ∀ b ∈ done, b.isMemory → (b.range p).isSome
  barrier : ∀ b ∈ done, b.isMemory → b.atomicity.isAcquire → ∃ q, G q b ∧ q.Aliased b
  inv : Inv p

namespace LoopInv

variable {G : Process → ThunkInner → Prop} {Inv : Process → Prop} {t : ThreadId}
variable {done rest : List ThunkInner} {c : ThunkInner} {p p' : Process} {pending : RangeMap ℕ Unit}

theorem mem (h : LoopInv G Inv t done (c :: rest) p pending) : c ∈ (p.flows t).thunks := by
  simp [h.thunks]

theorem threadid (h : LoopInv G Inv t done (c :: rest) p pending) : c.threadid = t :=
  h.wf.threadid_of_mem h.mem

theorem before (h : LoopInv G Inv t done (c :: rest) p pending) : p.before c = done := by
  have ht := h.thunks
  rw [← h.threadid] at ht
  exact Process.before_eq h.wf ht

/-- The test on `pending` finds an overlap with a held access. -/
theorem range_ne_nil (h : LoopInv G Inv t done rest p pending) (r : Range ℕ) :
    pending.range r ≠ [] ↔ ∃ q ∈ p.held done, q.Overlaps r := by
  rw [RangeMap.range_ne_nil h.disjoint]
  constructor
  · rintro ⟨x, hx, hl⟩
    obtain ⟨q, hq, hqx⟩ := (h.covered x).mp hl
    exact ⟨q, hq, Range.overlaps_iff_exists.mpr ⟨x, hqx, hx⟩⟩
  · rintro ⟨q, hq, ho⟩
    obtain ⟨x, hqx, hx⟩ := Range.overlaps_iff_exists.mp ho
    exact ⟨x, hx, (h.covered x).mpr ⟨q, hq, hqx⟩⟩

theorem aliased (h : LoopInv G Inv t done (c :: rest) p pending) {r : Range ℕ}
    (hr : c.range p = some r) : p.Aliased c ↔ pending.range r ≠ [] := by
  rw [h.range_ne_nil, Process.Aliased, h.before, hr]
  simp

theorem eligible (h : LoopInv G Inv t done (c :: rest) p pending) (hG : G p c)
    (hc : c.isMemory → (c.range p).isSome ∧ ¬ p.Aliased c) : Eligible G p c where
  mem := h.threadid ▸ h.mem
  known := h.before ▸ h.known
  barrier := h.before ▸ h.barrier
  clear := hc
  cond := ⟨p, ⟨rfl, rfl⟩, hG⟩

theorem eligible_of_free (h : LoopInv G Inv t done (c :: rest) p pending) (hG : G p c)
    {r : Range ℕ} (hr : c.range p = some r) (hp : pending.range r = []) : Eligible G p c :=
  h.eligible hG fun _ => ⟨by rw [hr]; rfl, (h.aliased hr).not.mpr (not_not.mpr hp)⟩

/-- The invariant survives `Thunk::step` on the thunk the loop has reached. -/
theorem stepped (h : LoopInv G Inv t done (c :: rest) p pending) {b : Bool}
    (hs : Stepped p c p' b) (hinv : Stepped p c p' true → Inv p') :
    LoopInv G Inv t done (c :: rest) p' pending := by
  cases hs with
  | stuck => exact h
  | @resolved args v m hargs hv hc hd =>
    have hdec := h.wf.getElem?_of_mem h.mem
    rw [← h.threadid] at hdec
    have hext := Process.extends_resolve hv v m
    -- the new value cannot move what the loop has passed: those ranges were known already
    have hrange : ∀ b ∈ done, b.range (p.resolve c v m) = b.range p := by
      intro b hb
      cases hr : b.range p with
      | some r => exact hext.range hr
      | none =>
        have hm : ¬ b.isMemory := fun hm => by
          have hk := h.known b hb hm
          rw [hr] at hk
          cases hk
        rw [ThunkInner.isMemory, Option.isSome_iff_ne_none, not_not] at hm
        rw [ThunkInner.range, hm]
    refine ⟨Process.wf_resolve h.wf hdec hv v m, ?_, h.disjoint, ?_, ?_, h.barrier,
      hinv (.resolved hargs hv hc hd)⟩
    · rw [Process.thunks_resolve]
      exact h.thunks
    · rw [Process.held_congr hrange]
      exact h.covered
    · intro b hb hm
      rw [hrange b hb]
      exact h.known b hb hm

/-- The loop goes on past `c` with the same `pending`. -/
theorem skip (h : LoopInv G Inv t done (c :: rest) p pending)
    (hc : c.isMemory → (c.range p).isSome ∧ p.Aliased c ∧ G p c) :
    LoopInv G Inv t (done ++ [c]) rest p pending := by
  refine ⟨h.wf, by simp [h.thunks], h.disjoint, ?_, ?_, ?_, h.inv⟩
  · have hheld : p.held (done ++ [c]) = p.held done := by
      rw [Process.held_append, Process.hold]
      cases hr : c.range p with
      | none => rfl
      | some r =>
        have hal := (h.aliased hr).mp (hc (isMemory_of_range hr)).2.1
        rw [h.range_ne_nil] at hal
        exact if_pos hal
    rw [hheld]
    exact h.covered
  · intro b hb hm
    rcases List.mem_append.mp hb with hb | hb
    · exact h.known b hb hm
    · cases List.mem_singleton.mp hb
      exact (hc hm).1
  · intro b hb hm ha
    rcases List.mem_append.mp hb with hb | hb
    · exact h.barrier b hb hm ha
    · cases List.mem_singleton.mp hb
      exact ⟨p, (hc hm).2.2, (hc hm).2.1⟩

/-- The loop goes on past `c` with its range in `pending`. -/
theorem insert (h : LoopInv G Inv t done (c :: rest) p pending) {r : Range ℕ}
    (hr : c.range p = some r) (hp : pending.range r = []) (ha : c.atomicity.isAcquire = false) :
    LoopInv G Inv t (done ++ [c]) rest p (pending.insert r ()) := by
  have hfree : ¬ ∃ q ∈ p.held done, q.Overlaps r := by
    rw [← h.range_ne_nil, not_not]
    exact hp
  have hheld : p.held (done ++ [c]) = p.held done ++ [r] := by
    simp only [Process.held_append, Process.hold, hr, if_neg hfree]
  refine ⟨h.wf, by simp [h.thunks], RangeMap.wf_insert h.disjoint r (), ?_, ?_, ?_, h.inv⟩
  · intro x
    rw [RangeMap.lookup_insert h.disjoint, hheld]
    by_cases hx : r.Contains x
    · simp only [if_pos hx, Option.isSome_some, true_iff]
      exact ⟨r, by simp, hx⟩
    · rw [if_neg hx, h.covered x]
      constructor
      · rintro ⟨q, hq, hqx⟩
        exact ⟨q, List.mem_append_left _ hq, hqx⟩
      · rintro ⟨q, hq, hqx⟩
        rcases List.mem_append.mp hq with hq | hq
        · exact ⟨q, hq, hqx⟩
        · cases List.mem_singleton.mp hq
          exact absurd hqx hx
  · intro b hb hm
    rcases List.mem_append.mp hb with hb | hb
    · exact h.known b hb hm
    · cases List.mem_singleton.mp hb
      rw [hr]
      rfl
  · intro b hb hm hba
    rcases List.mem_append.mp hb with hb | hb
    · exact h.barrier b hb hm hba
    · cases List.mem_singleton.mp hb
      rw [ha] at hba
      cases hba

end LoopInv

/-- Resolving a thunk in its turn keeps `Inv`. -/
def Preserves (G : Process → ThunkInner → Prop) (Inv : Process → Prop) : Prop :=
  ∀ {p p' : Process} {c : ThunkInner}, p.WF → Inv p → Eligible G p c → c.isAtomic = false →
    Stepped p c p' true → Inv p'

section Loop

variable {G : Process → ThunkInner → Prop} {Inv : Process → Prop} {t : ThreadId}
variable {done rest : List ThunkInner} {c : ThunkInner} {s s' : Scan}

/-- One turn of the loop: the process keeps `Inv`, and the loop goes on with its invariant. -/
theorem LoopInv.visit (h : LoopInv G Inv t done (c :: rest) s.process s.pending)
    (hpres : Preserves G Inv) (hG : G s.process c) {brk : Bool} (hv : Visited s c s' brk) :
    s'.process.WF ∧ Inv s'.process ∧
      (brk = false → LoopInv G Inv t (done ++ [c]) rest s'.process s'.pending) := by
  cases hv with
  | pure ha hs =>
    have hm := isMemory_of_address ha
    have he := h.eligible hG fun hm' => by rw [hm] at hm'; cases hm'
    have hat : c.isAtomic = false := by simp [ThunkInner.isAtomic, hm]
    have h' := h.stepped hs fun hs' => hpres h.wf h.inv he hat hs'
    exact ⟨h'.wf, h'.inv, fun _ => h'.skip fun hm' => by rw [hm] at hm'; cases hm'⟩
  | unknown _ _ => exact ⟨h.wf, h.inv, nofun⟩
  | aliased hr hp =>
    exact ⟨h.wf, h.inv, fun _ => h.skip fun _ =>
      ⟨by rw [hr]; rfl, (h.aliased hr).mpr hp, hG⟩⟩
  | @direct r p b hr hp hat hs =>
    have he := h.eligible_of_free hG hr hp
    have h' := h.stepped hs fun hs' => hpres h.wf h.inv he (isAtomic_of_atomicity hat) hs'
    -- the code inserts the range before it steps, the invariant is kept by stepping first
    have hr' : c.range p = some r := by
      cases hs with
      | stuck => exact hr
      | resolved _ hval _ _ => exact (Process.extends_resolve hval _ _).range hr
    exact ⟨h'.wf, h'.inv, fun _ => h'.insert hr' hp (by rw [hat]; rfl)⟩
  | blocked hr hp hat _ =>
    exact ⟨h.wf, h.inv, fun _ => h.insert hr hp (by rw [hat]; rfl)⟩
  | offered hr hp _ _ => exact ⟨h.wf, h.inv, fun ha => h.insert hr hp ha⟩

theorem loop_cons {ts : List ThunkInner} :
    Scan.loop (c :: ts) s = some s' ↔
      ∃ s₁ brk, s.visit c = some (s₁, brk) ∧
        ((brk = true ∧ s₁ = s') ∨ (brk = false ∧ Scan.loop ts s₁ = some s')) := by
  rw [Scan.loop]
  rcases s.visit c with _ | ⟨s₁, brk⟩
  · simp
  · cases brk <;> simp

theorem mem_visits_cons {s₁ : Scan} (hv : s.visit c = some (s₁, false))
    {v : Process × ThunkInner} (hm : v ∈ s₁.visits rest) : v ∈ s.visits (c :: rest) := by
  rw [Scan.visits, hv]
  exact List.mem_cons_of_mem _ hm

theorem Visited.mem_resolvable {brk : Bool} {u : ThunkInner} (hv : Visited s c s' brk)
    (hu : u ∈ s'.resolvable) : u ∈ s.resolvable ∨ (u = c ∧ c.atomicity ≠ .none ∧
      ∃ r, c.range s.process = some r ∧ s.pending.range r = []) := by
  cases hv with
  | offered hr hp hat _ =>
    rcases List.mem_append.mp hu with hu | hu
    · exact .inl hu
    · exact .inr ⟨List.mem_singleton.mp hu, hat, _, hr, hp⟩
  | pure _ _ | unknown _ _ | aliased _ _ | direct _ _ _ _ | blocked _ _ _ _ => exact .inl hu

theorem LoopInv.loop (h : LoopInv G Inv t done rest s.process s.pending)
    (hpres : Preserves G Inv) (hG : ∀ v ∈ s.visits rest, G v.1 v.2)
    (hl : Scan.loop rest s = some s') : s'.process.WF ∧ Inv s'.process := by
  induction rest generalizing done s with
  | nil =>
    cases hl
    exact ⟨h.wf, h.inv⟩
  | cons c rest ih =>
    obtain ⟨s₁, brk, hv, hl⟩ := loop_cons.mp hl
    obtain ⟨hwf, hinv, hnext⟩ :=
      h.visit hpres (hG (s.process, c) List.mem_cons_self) (visited_of_visit hv)
    rcases hl with ⟨rfl, rfl⟩ | ⟨rfl, hl⟩
    · exact ⟨hwf, hinv⟩
    · exact ih (hnext rfl) (fun v hm => hG v (mem_visits_cons hv hm)) hl

theorem Stepped.extends {p p' : Process} {b : Bool} (h : Stepped p c p' b) : p.Extends p' := by
  cases h with
  | stuck => exact .refl p
  | resolved _ hv _ _ => exact Process.extends_resolve hv _ _

theorem visited_extends {brk : Bool} (hv : Visited s c s' brk) :
    s.process.Extends s'.process := by
  cases hv with
  | pure _ hs | direct _ _ _ hs => exact hs.extends
  | unknown _ _ | aliased _ _ | blocked _ _ _ _ | offered _ _ _ _ => exact .refl _

theorem loop_extends (hl : Scan.loop rest s = some s') : s.process.Extends s'.process := by
  induction rest generalizing s with
  | nil =>
    cases hl
    exact .refl _
  | cons c rest ih =>
    obtain ⟨s₁, brk, hv, hl⟩ := loop_cons.mp hl
    have hs₁ := visited_extends (visited_of_visit hv)
    rcases hl with ⟨rfl, rfl⟩ | ⟨rfl, hl⟩
    · exact hs₁
    · exact hs₁.trans (ih hl)

theorem LoopInv.eligible_of_mem_resolvable
    (h : LoopInv G Inv t done rest s.process s.pending) (hpres : Preserves G Inv)
    (hG : ∀ v ∈ s.visits rest, G v.1 v.2) (hl : Scan.loop rest s = some s') {u : ThunkInner}
    (hu : u ∈ s'.resolvable) :
    u ∈ s.resolvable ∨ (u.threadid = t ∧ ∃ q : Process, q.WF ∧ Inv q ∧ Eligible G q u ∧
      q.Extends s'.process) := by
  -- `q` is the process as it is when the loop reaches `u`, not as it is at the end
  induction rest generalizing done s with
  | nil =>
    cases hl
    exact .inl hu
  | cons c rest ih =>
    have hGc := hG (s.process, c) List.mem_cons_self
    have hext := loop_extends hl
    obtain ⟨s₁, brk, hv, hl⟩ := loop_cons.mp hl
    have hs₁ : u ∈ s₁.resolvable → u ∈ s.resolvable ∨ (u.threadid = t ∧ ∃ q : Process,
        q.WF ∧ Inv q ∧ Eligible G q u ∧ q.Extends s'.process) := by
      intro hu₁
      rcases (visited_of_visit hv).mem_resolvable hu₁ with hu₁ | ⟨rfl, -, r, hr, hp⟩
      · exact .inl hu₁
      · exact .inr ⟨h.threadid, s.process, h.wf, h.inv, h.eligible_of_free hGc hr hp, hext⟩
    rcases hl with ⟨rfl, rfl⟩ | ⟨rfl, hl⟩
    · exact hs₁ hu
    · have hnext := (h.visit hpres hGc (visited_of_visit hv)).2.2 rfl
      have hG₁ : ∀ v ∈ s₁.visits rest, G v.1 v.2 := fun v hm => hG v (mem_visits_cons hv hm)
      exact (ih hnext hG₁ hl).elim hs₁ .inr

theorem visited_quiet {brk : Bool} (hv : Visited s c s' brk) (hq : s'.progress = false) :
    s'.process = s.process ∧ s.progress = false := by
  cases hv with
  | pure _ hs | direct _ _ _ hs =>
    cases hs with
    | stuck => exact ⟨rfl, by simpa using hq⟩
    | resolved => simp at hq
  | unknown _ _ | aliased _ _ | blocked _ _ _ _ | offered _ _ _ _ => exact ⟨rfl, hq⟩

theorem loop_quiet (hl : Scan.loop rest s = some s') (hq : s'.progress = false) :
    s'.process = s.process ∧ s.progress = false := by
  induction rest generalizing s with
  | nil =>
    cases hl
    exact ⟨rfl, hq⟩
  | cons c rest ih =>
    obtain ⟨s₁, brk, hv, hl⟩ := loop_cons.mp hl
    rcases hl with ⟨rfl, rfl⟩ | ⟨rfl, hl⟩
    · exact visited_quiet (visited_of_visit hv) hq
    · obtain ⟨hp, hq₁⟩ := ih hl
      obtain ⟨hp₁, hq₀⟩ := visited_quiet (visited_of_visit hv) hq₁
      exact ⟨hp.trans hp₁, hq₀⟩

theorem visited_resolvable {brk : Bool} (hv : Visited s c s' brk) :
    s'.resolvable = s.resolvable ∨ s'.resolvable = s.resolvable ++ [c] := by
  cases hv with
  | offered _ _ _ _ => exact .inr rfl
  | pure _ _ | unknown _ _ | aliased _ _ | direct _ _ _ _ | blocked _ _ _ _ => exact .inl rfl

theorem loop_resolvable (hl : Scan.loop rest s = some s') : s.resolvable <+: s'.resolvable := by
  induction rest generalizing s with
  | nil =>
    cases hl
    exact List.prefix_rfl
  | cons c rest ih =>
    obtain ⟨s₁, brk, hv, hl⟩ := loop_cons.mp hl
    have hs₁ : s.resolvable <+: s₁.resolvable := by
      rcases visited_resolvable (visited_of_visit hv) with h | h <;> rw [h]
      exact List.prefix_append _ _
    rcases hl with ⟨rfl, rfl⟩ | ⟨rfl, hl⟩
    · exact hs₁
    · exact hs₁.trans (ih hl)

theorem loop_release (hl : Scan.loop rest s = some s') (hne : s.resolvable ≠ [])
    {u : ThunkInner} (hu : u ∈ s'.resolvable) (hr : u.atomicity = .release) :
    u ∈ s.resolvable := by
  induction rest generalizing s with
  | nil =>
    cases hl
    exact hu
  | cons c rest ih =>
    obtain ⟨s₁, brk, hv, hl⟩ := loop_cons.mp hl
    have hs₁ : u ∈ s₁.resolvable → u ∈ s.resolvable := by
      cases visited_of_visit hv with
      | offered _ _ _ hrel =>
        intro hu₁
        rcases List.mem_append.mp hu₁ with hu₁ | hu₁
        · exact hu₁
        · cases List.mem_singleton.mp hu₁
          exact absurd (hrel hr) hne
      | pure _ _ | unknown _ _ | aliased _ _ | direct _ _ _ _ | blocked _ _ _ _ => exact id
    rcases hl with ⟨rfl, rfl⟩ | ⟨rfl, hl⟩
    · exact hs₁ hu
    · have hne₁ : s₁.resolvable ≠ [] := by
        rcases visited_resolvable (visited_of_visit hv) with h | h <;> simp [h, hne]
      exact hs₁ (ih hl hne₁)

/-- Why a pass leaves a thunk that it passes unresolved. -/
def Process.Stuck (p : Process) (b : ThunkInner) : Prop :=
  b.isAtomic ∨ p.Aliased b ∨ ∃ d ∈ b.deps, d.tryGet p = none

theorem Stepped.exists_tryGet_eq_none {p p' : Process} (h : Stepped p c p' false)
    (hv : p.value c.threadid c.seq = none) : ∃ d ∈ c.deps, d.tryGet p = none := by
  cases h with
  | stuck h => exact h.resolve_right (not_not.mpr hv)

/-- A turn of the loop without progress leaves the thunk stuck, or leaves the loop. -/
theorem LoopInv.stuck (h : LoopInv G Inv t done (c :: rest) s.process s.pending)
    (hset : s.process.value c.threadid c.seq = none) {brk : Bool} (hv : Visited s c s' brk)
    (hq : s'.progress = false) (hb : brk = false) : s.process.Stuck c := by
  cases hv with
  | @pure p b _ hs | @direct r p b _ _ _ hs =>
    cases b with
    | false => exact .inr (.inr (hs.exists_tryGet_eq_none hset))
    | true => simp at hq
  | unknown _ _ => cases hb
  | aliased hr hp => exact .inr (.inl ((h.aliased hr).mpr hp))
  | blocked hr _ hat _ => exact .inl (by simp [ThunkInner.isAtomic, isMemory_of_range hr, hat])
  | offered hr _ hat _ => exact .inl (by simp [ThunkInner.isAtomic, isMemory_of_range hr, hat])

/-- What a loop without progress offers is atomic, in its turn, and has only stuck thunks
before it. -/
theorem LoopInv.offers (h : LoopInv G (fun _ => True) t done rest s.process s.pending)
    (hset : ∀ b ∈ (s.process.flows t).thunks, s.process.value t b.seq = none)
    (hstuck : ∀ b ∈ done, s.process.Stuck b)
    (hG : ∀ v ∈ s.visits rest, G v.1 v.2) (hl : Scan.loop rest s = some s')
    (hq : s'.progress = false) {u : ThunkInner} (hu : u ∈ s'.resolvable) :
    u ∈ s.resolvable ∨ (u.threadid = t ∧ u.isAtomic ∧ Eligible G s.process u ∧
      ∀ b ∈ s.process.before u, s.process.Stuck b) := by
  induction rest generalizing done s with
  | nil =>
    cases hl
    exact .inl hu
  | cons c rest ih =>
    have hGc := hG (s.process, c) List.mem_cons_self
    obtain ⟨s₁, brk, hv, hl⟩ := loop_cons.mp hl
    have hs₁ : u ∈ s₁.resolvable → u ∈ s.resolvable ∨ (u.threadid = t ∧ u.isAtomic ∧
        Eligible G s.process u ∧ ∀ b ∈ s.process.before u, s.process.Stuck b) := by
      intro hu₁
      rcases (visited_of_visit hv).mem_resolvable hu₁ with hu₁ | ⟨rfl, hat, r, hr, hp⟩
      · exact .inl hu₁
      · refine .inr ⟨h.threadid, ?_, h.eligible_of_free hGc hr hp, h.before ▸ hstuck⟩
        simp [ThunkInner.isAtomic, isMemory_of_range hr, hat]
    rcases hl with ⟨rfl, rfl⟩ | ⟨rfl, hl⟩
    · exact hs₁ hu
    · have hv' := visited_of_visit hv
      have hnext := (h.visit (fun _ _ _ _ _ => trivial) hGc hv').2.2 rfl
      -- no progress at the end means none in this turn, so the process is still the same
      have hq₁ := (loop_quiet hl hq).2
      have hp₁ := (visited_quiet hv' hq₁).1
      have hc : s.process.Stuck c :=
        h.stuck (by rw [h.threadid]; exact hset c h.mem) hv' hq₁ rfl
      have hstuck₁ : ∀ b ∈ done ++ [c], s₁.process.Stuck b := by
        intro b hb
        rw [hp₁]
        rcases List.mem_append.mp hb with hb | hb
        · exact hstuck b hb
        · exact List.mem_singleton.mp hb ▸ hc
      have hG₁ : ∀ v ∈ s₁.visits rest, G v.1 v.2 := fun v hm => hG v (mem_visits_cons hv hm)
      rcases ih hnext (by rw [hp₁]; exact hset) hstuck₁ hG₁ hl with hu₁ | hu₁
      · exact hs₁ hu₁
      · exact .inr (hp₁ ▸ hu₁)

end Loop

end AtomicSim
