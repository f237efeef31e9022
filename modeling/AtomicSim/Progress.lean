import AtomicSim.Runs
import AtomicSim.Flow

namespace AtomicSim

namespace ThunkInner

/-- Unresolved, with all dependencies ready. -/
def Ready (p : Process) (c : ThunkInner) : Prop :=
  p.value c.threadid c.seq = none ∧ ∀ d ∈ c.deps, d.tryGet p ≠ none

/-- On the values of the dependencies the closure does not panic, and neither does the line that
prints what it returns. -/
def Returns (p : Process) (c : ThunkInner) : Prop :=
  ∀ args, c.deps.mapM (Thunk.tryGet p) = some args →
    ∃ v m, c.compute p.memory args = some (v, m) ∧ v.debug.isSome

/-- Unresolved with all dependencies ready, and `Thunk::step` returns true. -/
def CanStep (p : Process) (c : ThunkInner) : Prop :=
  c.Ready p ∧ ∃ p', c.step p = some (p', true)

end ThunkInner

theorem canStep_iff {p : Process} {c : ThunkInner} : c.CanStep p ↔ c.Ready p ∧ c.Returns p := by
  refine and_congr_right fun hready => ?_
  obtain ⟨args, hargs⟩ : ∃ args, c.deps.mapM (Thunk.tryGet p) = some args := by
    rw [← Option.isSome_iff_exists, isSome_mapM]
    exact fun d hd => Option.isSome_iff_ne_none.mpr (hready.2 d hd)
  constructor
  · rintro ⟨p', hs⟩ args' hargs'
    cases stepped_of_step hs with
    | @resolved _ v m hargs _ hcomp hdebug =>
      cases hargs.symm.trans hargs'
      exact ⟨v, m, hcomp, hdebug⟩
  · intro hret
    obtain ⟨v, m, hcomp, hdebug⟩ := hret args hargs
    obtain ⟨str, hstr⟩ := Option.isSome_iff_exists.mp hdebug
    refine ⟨p.resolve c v m, ?_⟩
    rw [step_of_ready hargs hready.1, hcomp]
    simp only [Option.bind_some, hstr, Option.map_some]

theorem invariant_true {G : Process → ThunkInner → Prop} : Invariant G fun _ => True :=
  ⟨fun _ _ => trivial, fun _ _ _ _ => trivial, fun _ _ => trivial, fun _ _ _ _ _ => trivial⟩

theorem Reachable.wf {G : Process → ThunkInner → Prop} {c : Config} (h : Reachable G c) :
    c.process.WF :=
  (h.good invariant_true fun _ => trivial).wf

section Quiet

variable {p p' : Process} {ts : List ThreadId} {r r' : List ThunkInner} {b : Bool}

theorem passFrom_unresolved (h : Process.passFrom ts (p, r, b) = some (p', r', false))
    (u : ThreadId) : p'.unresolved u = p.unresolved u := by
  induction ts generalizing p r b with
  | nil =>
    cases h
    rfl
  | cons t ts ih =>
    obtain ⟨s, -, -, h⟩ := passFrom_cons_quiet h
    rw [ih h, Process.unresolved_retain]

theorem passFrom_value (h : Process.passFrom ts (p, r, b) = some (p', r', false)) :
    p'.value = p.value := by
  induction ts generalizing p r b with
  | nil =>
    cases h
    rfl
  | cons t ts ih =>
    obtain ⟨s, -, -, h⟩ := passFrom_cons_quiet h
    rw [ih h, Process.value_retain]

theorem passFrom_depsEarlier (h : Process.passFrom ts (p, r, b) = some (p', r', false))
    (hd : p.DepsEarlier) : p'.DepsEarlier := by
  induction ts generalizing p r b with
  | nil =>
    cases h
    exact hd
  | cons t ts ih =>
    obtain ⟨s, -, -, h⟩ := passFrom_cons_quiet h
    exact ih h (Process.depsEarlier_retain.mpr hd)

theorem passFrom_resolvable (h : Process.passFrom ts (p, r, b) = some (p', r', false)) :
    r <+: r' := by
  induction ts generalizing p r b with
  | nil =>
    cases h
    exact List.prefix_rfl
  | cons t ts ih =>
    obtain ⟨s, hl, -, h⟩ := passFrom_cons_quiet h
    exact (loop_resolvable hl).trans (ih h)

/-- A thread with an unresolved thunk leaves something to offer. -/
theorem passFrom_ne_nil (hp : p.WF) (hd : p.DepsEarlier)
    (h : Process.passFrom ts (p, r, b) = some (p', r', false)) {t : ThreadId} (ht : t ∈ ts)
    (hne : p.unresolved t ≠ []) : r' ≠ [] := by
  induction ts generalizing p r b with
  | nil => cases ht
  | cons u ts ih =>
    obtain ⟨s, hl, hq, h⟩ := passFrom_cons_quiet h
    rcases List.mem_cons.mp ht with rfl | ht
    · obtain ⟨c, rest, hc⟩ := List.exists_cons_of_ne_nil hne
      rw [hc] at hl
      have hs := (loop_head hp hd hc hl hq).1
      intro hnil
      have hpre := passFrom_resolvable h
      rw [hnil] at hpre
      exact hs (List.prefix_nil.mp hpre)
    · exact ih (Process.wf_retain hp u) (Process.depsEarlier_retain.mpr hd) h ht
        (by rwa [Process.unresolved_retain])

theorem passFrom_single (hp : p.WF) (hd : p.DepsEarlier) {c : ThunkInner} (hcr : c ∉ r)
    (h : Process.passFrom ts (p, r, b) = some (p', [c], false)) :
    (p.unresolved c.threadid).head? = some c := by
  induction ts generalizing p r b with
  | nil =>
    cases h
    simp at hcr
  | cons t ts ih =>
    obtain ⟨s, hl, hq, h⟩ := passFrom_cons_quiet h
    by_cases hcs : c ∈ s.resolvable
    · -- `c` is added by this loop, so nothing was offered before it
      have hpre := passFrom_resolvable h
      have hr : r = [] := by
        have hrc : r <+: [c] := (loop_resolvable hl).trans hpre
        cases r with
        | nil => rfl
        | cons x r =>
          obtain ⟨rfl, -⟩ := List.cons_prefix_cons.mp hrc
          simp at hcr
      cases hc : p.unresolved t with
      | nil =>
        rw [hc] at hl
        cases hl
        exact absurd hcs hcr
      | cons u rest =>
        rw [hc] at hl
        -- the head `u` of the pipeline is offered first, and only `c` is offered
        have hhead := (loop_head hp hd hc hl hq).2.1
        rw [hr, List.nil_append] at hhead
        have huc : [u] <+: [c] := (hhead.resolve_right fun h => h.2 rfl).trans hpre
        obtain rfl := (List.cons_prefix_cons.mp huc).1
        have hmem : u ∈ (p.flows t).thunks :=
          (Process.mem_unresolved.mp (hc ▸ List.mem_cons_self)).1
        rw [hp.threadid_of_mem hmem, hc]
        rfl
    · rw [← ih (Process.wf_retain hp t) (Process.depsEarlier_retain.mpr hd) hcs h,
        Process.unresolved_retain]

end Quiet

theorem Process.sorted_unresolved {p : Process} (hp : p.WF) (t : ThreadId) :
    (p.unresolved t).Pairwise fun a b => a.seq < b.seq :=
  (hp.sorted t).sublist List.filter_sublist

theorem ready_of_head {p : Process} (hp : p.WF) (hd : p.DepsEarlier) {c : ThunkInner}
    (hc : (p.unresolved c.threadid).head? = some c) : c.Ready p := by
  obtain ⟨rest, hrest⟩ := List.head?_eq_some_iff.mp hc
  obtain ⟨hmem, hv⟩ := Process.mem_unresolved.mp (hrest ▸ List.mem_cons_self)
  refine ⟨hv, fun d hdc hn => ?_⟩
  obtain ⟨b, hb, -, hbv⟩ :=
    Process.exists_before_of_tryGet hp hd hmem (List.mem_append_left _ hdc) hn
  obtain ⟨hbm, hlt⟩ := Process.mem_before.mp hb
  have hs := Process.sorted_unresolved hp c.threadid
  have hbu := Process.mem_unresolved.mpr ⟨hbm, hbv⟩
  rw [hrest] at hs hbu
  rcases List.mem_cons.mp hbu with rfl | hbu
  · exact lt_irrefl _ hlt
  · exact lt_asymm hlt ((List.pairwise_cons.mp hs).1 b hbu)

/-- When the loop of `step` is left, nothing is offered only if nothing is unresolved. A thunk
offered alone is pending with all its dependencies ready, and `Thunk::step` returns true on it
exactly if nothing panics there. -/
theorem resolvable_eq_nil_iff {p p' : Process} {r : List ThunkInner}
    (h : Reachable (fun _ _ => True) (.decoding p)) (hd : p.DepsEarlier)
    (hr : p.pass = some (p', r, false)) :
    (r = [] ↔ ∀ t, p'.unresolved t = []) ∧
      ∀ c, r = [c] → c.Ready p' ∧ (c.CanStep p' ↔ c.Returns p') := by
  have hp : p.WF := h.wf
  obtain ⟨hp', -, hoff⟩ :=
    (invariant_true (G := fun _ _ => True)).pass hp trivial (fun _ _ => trivial) hr
  obtain ⟨q, hq, rfl⟩ := pass_eq_some.mp hr
  have hunres : ∀ t, q.unresolved t = p.unresolved t := passFrom_unresolved hq
  have hd' : q.DepsEarlier := passFrom_depsEarlier hq hd
  refine ⟨⟨fun hnil t => ?_, fun hall => ?_⟩, ?_⟩
  · refine (hunres t).trans ?_
    by_contra hne
    -- a thread that was reaped has an empty pipeline
    have ht : t ∈ p.threads := by
      by_contra ht
      rw [Process.unresolved, hp.idle ht] at hne
      exact hne rfl
    exact passFrom_ne_nil hp hd hq ht hne hnil
  · refine List.eq_nil_iff_forall_not_mem.mpr fun c hc => ?_
    have ho := hoff rfl c hc
    have hmem := Process.mem_unresolved.mpr ⟨ho.eligible.mem, ho.value⟩
    rw [hall] at hmem
    cases hmem
  · rintro c rfl
    have hready : c.Ready q.reapThreads := by
      refine ready_of_head hp' hd' ((congrArg List.head? (hunres _)).trans ?_)
      exact passFrom_single hp hd (by simp) hq
    exact ⟨hready, canStep_iff.trans (and_iff_right hready)⟩

theorem resolvable_eq_nil_iff_release : ∃ p p' r, Reachable (fun _ _ => True) (.decoding p) ∧
    p.DepsEarlier ∧ p.pass = some (p', r, false) ∧ r.length = 1 ∧
    (r = [] ↔ ∀ t, p'.unresolved t = []) ∧
      ∀ c, r = [c] → c.Ready p' ∧ (c.CanStep p' ↔ c.Returns p') := by
  let ds := decodeAll [DataFlow.store (ptr 128) i32 (int 1) .release,
    DataFlow.store (ptr 256) i32 (int 1) .release]
  have hrun : ∃ p ∈ ds.foldlM Process.decode (.new .new), p.DepsEarlier ∧
      ∃ x ∈ p.pass, x.2.1.length = 1 ∧ x.2.2 = false := by decide +kernel
  obtain ⟨p, hp, hd, ⟨p', r, b⟩, hr, hlen, hb⟩ := hrun
  cases hb
  have h : Reachable (fun _ _ => True) (.decoding p) := (Reachable.new _).decodes hp
  exact ⟨p, p', r, h, hd, hr, hlen, resolvable_eq_nil_iff h hd hr⟩

/-- A relaxed `atomicrmw fadd` is offered alone, and its closure is `todo!`. -/
theorem resolvable_single_panics : ∃ p p' c, Reachable (fun _ _ => True) (.decoding p) ∧
    p.DepsEarlier ∧ p.pass = some (p', [c], false) ∧ c.step p' = none := by
  let ds := decodeAll [FlowCtx.atomicrmw i32 (ptr 128) (int 1) .relaxed
    COperationName.fAdd.callScalarBinop]
  have hrun : ∃ p ∈ ds.foldlM Process.decode (.new .new), p.DepsEarlier ∧
      ∃ x ∈ p.pass, x.2.1.length = 1 ∧ x.2.2 = false ∧ ∀ c ∈ x.2.1, (c.step x.1).isNone := by
    decide +kernel
  obtain ⟨p, hp, hd, ⟨p', r, b⟩, hr, hlen, hb, hall⟩ := hrun
  cases hb
  obtain ⟨c, rfl⟩ := List.length_eq_one_iff.mp hlen
  have hstep := Option.isNone_iff_eq_none.mp (hall c List.mem_cons_self)
  exact ⟨p, p', c, (Reachable.new _).decodes hp, hd, hr, hstep⟩

/-- An unresolved thunk that is an atomic access, or that has to wait for one: through an
operand, or through an earlier access of its thread to the same bytes. -/
inductive Process.Waits (p : Process) : ThunkInner → Prop
  | atomic {c : ThunkInner} : c ∈ p.unresolved c.threadid → c.isAtomic → p.Waits c
  | operand {b c : ThunkInner} : c ∈ p.unresolved c.threadid → b ∈ p.before c →
      Thunk.cell c.threadid b.seq ∈ c.deps → p.Waits b → p.Waits c
  | overlap {b c : ThunkInner} : c ∈ p.unresolved c.threadid → b ∈ p.before c →
      b.Overlaps p c → p.Waits b → p.Waits c

theorem Process.Waits.mem {p : Process} {c : ThunkInner} (h : p.Waits c) :
    c ∈ p.unresolved c.threadid := by
  cases h with
  | atomic hc _ | operand hc _ _ _ | overlap hc _ _ _ => exact hc

theorem Process.Agrees.unresolved {p q : Process} {t : ThreadId} (h : p.Agrees q t) :
    p.unresolved t = q.unresolved t := by
  rw [Process.unresolved, Process.unresolved, h.flow, h.value]

theorem Process.Waits.congr {p q : Process} (hp : p.WF) {c : ThunkInner} (h : p.Waits c)
    (ha : p.Agrees q c.threadid) : q.Waits c := by
  induction h with
  | atomic hc hat => exact .atomic (ha.unresolved ▸ hc) hat
  | operand hc hb hdep _ ih =>
    have htid := hp.threadid_of_mem (Process.mem_before.mp hb).1
    exact .operand (ha.unresolved ▸ hc) (ha.before ▸ hb) hdep (ih (htid ▸ ha))
  | overlap hc hb ho _ ih =>
    have htid := hp.threadid_of_mem (Process.mem_before.mp hb).1
    refine .overlap (ha.unresolved ▸ hc) (ha.before ▸ hb) ?_ (ih (htid ▸ ha))
    simpa only [ThunkInner.Overlaps, ha.range] using ho

/-- All that is unresolved before an offered access waits for an atomic access. -/
theorem Offered.waits {G : Process → ThunkInner → Prop} {p : Process} {c : ThunkInner}
    (h : Offered G p c) (hp : p.WF) (hd : p.DepsEarlier) {b : ThunkInner} (hb : b ∈ p.before c) :
    p.Waits b := by
  -- what `b` is stuck on comes before it, so the sequence numbers decrease
  induction hn : b.seq using Nat.strongRecOn generalizing b with
  | ind n ih =>
    subst hn
    obtain ⟨hmem, hlt⟩ := Process.mem_before.mp hb
    have htid := hp.threadid_of_mem hmem
    have hun : b ∈ p.unresolved b.threadid :=
      Process.mem_unresolved.mpr ⟨htid ▸ hmem, htid ▸ h.settled b hmem⟩
    have hprev : ∀ {e}, e ∈ p.before b → p.Waits e := by
      intro e he
      obtain ⟨hem, hel⟩ := Process.mem_before.mp he
      exact ih e.seq hel (Process.mem_before.mpr ⟨htid ▸ hem, hel.trans hlt⟩) rfl
    rcases h.stuck b hb with hat | hal | ⟨d, hdb, hnone⟩
    · exact .atomic hun hat
    · obtain ⟨e, he, ho⟩ := hal.exists_overlaps
      exact .overlap hun he ho (hprev he)
    · obtain ⟨e, he, rfl, -⟩ := Process.exists_before_of_tryGet hp hd
        (htid ▸ hmem) (List.mem_append_left _ hdb) hnone
      exact .operand hun he hdb (hprev he)

/-- An access that a pass would offer, a release access apart, has no operand that waits
for an atomic access. -/
def OperandsFree (p : Process) (c : ThunkInner) : Prop :=
  c.isAtomic → c.atomicity ≠ .release → (c.range p).isSome → ¬ p.Aliased c →
    ∀ b ∈ p.before c, Thunk.cell c.threadid b.seq ∈ c.deps → ¬ p.Waits b

theorem Offered.ready {p : Process} {c : ThunkInner} (h : Offered OperandsFree p c)
    (hp : p.WF) (hd : p.DepsEarlier) : c.Ready p := by
  refine ⟨h.value, fun d hdc hn => ?_⟩
  obtain ⟨b, hb, rfl, -⟩ :=
    Process.exists_before_of_tryGet hp hd h.eligible.mem (List.mem_append_left _ hdc) hn
  obtain ⟨q, hq, hG⟩ := h.eligible.cond
  have hmem : c.isMemory := by
    have hat := h.atomic
    rw [ThunkInner.isAtomic, Bool.and_eq_true] at hat
    exact hat.1
  obtain ⟨hrange, hfree⟩ := h.eligible.clear hmem
  have hrel : c.atomicity ≠ .release := by
    intro hrel
    obtain ⟨rest, hrest⟩ := List.head?_eq_some_iff.mp (h.release hd hrel)
    rw [Process.before_eq_nil hp hrest] at hb
    cases hb
  refine hG h.atomic hrel (by rw [hq.range]; exact hrange) (hq.aliased.not.mpr hfree) b
    (hq.before ▸ hb) hdc ((h.waits hp hd hb).congr hp ?_)
  have htid := hp.threadid_of_mem (Process.mem_before.mp hb).1
  exact htid ▸ ⟨hq.value.symm, hq.flow.symm⟩

/-- A thunk that a loop without progress reaches is offered if its turn has come. -/
theorem LoopInv.mem_visits {t : ThreadId} {done rest : List ThunkInner} {s s' : Scan}
    (h : LoopInv (fun _ _ => True) (fun _ => True) t done rest s.process s.pending)
    (hl : Scan.loop rest s = some s') (hq : s'.progress = false) {q : Process} {c : ThunkInner}
    (hv : (q, c) ∈ s.visits rest) :
    q = s.process ∧ (c.isAtomic → c.atomicity ≠ .release → (c.range q).isSome →
      ¬ q.Aliased c → c ∈ s'.resolvable) := by
  induction rest generalizing done s with
  | nil => cases hv
  | cons u rest ih =>
    obtain ⟨s₁, brk, hs, hrest⟩ := loop_cons.mp hl
    have hvis := visited_of_visit hs
    rw [Scan.visits, hs, List.mem_cons] at hv
    rcases hv with hv | hv
    · cases hv
      refine ⟨rfl, fun hat hrel hrange hfree => ?_⟩
      have hc : c ∈ s₁.resolvable := by
        cases hvis with
        | pure ha _ => simp [ThunkInner.isAtomic, isMemory_of_address ha] at hat
        | unknown _ hr =>
          rw [hr] at hrange
          cases hrange
        | aliased hr hp => exact absurd ((h.aliased hr).mpr hp) hfree
        | direct _ _ hnone _ =>
          rw [isAtomic_of_atomicity hnone] at hat
          cases hat
        | blocked _ _ hr _ => exact absurd hr hrel
        | offered _ _ _ _ => simp
      rcases hrest with ⟨rfl, rfl⟩ | ⟨rfl, hrest⟩
      · exact hc
      · exact (loop_resolvable hrest).subset hc
    · rcases hrest with ⟨rfl, rfl⟩ | ⟨rfl, hrest⟩
      · cases hv
      · obtain ⟨rfl, hoff⟩ :=
          ih ((h.visit (fun _ _ _ _ _ => trivial) trivial hvis).2.2 rfl) hrest hv
        exact ⟨(visited_quiet hvis (loop_quiet hrest hq).2).1, hoff⟩

theorem passFrom_mem_visits {p p' : Process} {ts : List ThreadId} {r r' : List ThunkInner}
    {b : Bool} (hp : p.WF) (h : Process.passFrom ts (p, r, b) = some (p', r', false))
    {q : Process} {c : ThunkInner} (hv : (q, c) ∈ Process.visitsFrom ts (p, r)) :
    q.WF ∧ q.value = p'.value ∧ (c.isAtomic → c.atomicity ≠ .release → (c.range q).isSome →
      ¬ q.Aliased c → c ∈ r') := by
  induction ts generalizing p r b with
  | nil => cases hv
  | cons t ts ih =>
    obtain ⟨p₁, r₁, b₁, hs, h⟩ := passFrom_cons.mp h
    obtain ⟨rfl, rfl⟩ := Bool.or_eq_false_iff.mp (passFrom_flag h)
    rw [visitsFrom_cons hs, List.mem_append] at hv
    obtain ⟨s, hl, rfl, rfl, hq⟩ := stepPure_eq_some.mp hs
    have hproc : s.process = p.modify t DataFlow.retain := (loop_quiet hl hq).1
    have hwf := Process.wf_retain hp t
    rw [hproc] at h hv
    rcases hv with hv | hv
    · obtain ⟨rfl, hoff⟩ := (loopInv_scan hp trivial r).mem_visits hl hq hv
      refine ⟨hwf, ?_, fun h₁ h₂ h₃ h₄ => (passFrom_resolvable h).subset (hoff h₁ h₂ h₃ h₄)⟩
      exact (passFrom_value h).symm
    · exact ih hwf h hv

/-- When the loop of `step` is left, all that it offers is ready exactly when every thunk its last
pass reached meets `OperandsFree`. -/
theorem offered_ready_iff {p p' : Process} {r : List ThunkInner}
    (h : Reachable (fun _ _ => True) (.decoding p)) (hd : p.DepsEarlier)
    (hr : p.pass = some (p', r, false)) :
    (∀ c ∈ r, c.Ready p') ↔ ∀ v ∈ p.visits, OperandsFree v.1 v.2 := by
  have hp : p.WF := h.wf
  constructor
  · -- a reached thunk that breaks the condition is offered, with an operand not ready
    rintro hcan ⟨q, c⟩ hv hat hrel hrange hfree b hb hdep hw
    obtain ⟨q', hq', rfl⟩ := pass_eq_some.mp hr
    obtain ⟨hwf, hval, hoff⟩ := passFrom_mem_visits hp hq' hv
    have hready := (hcan c (hoff hat hrel hrange hfree)).2 _ hdep
    refine hready (Eq.trans ?_ (Process.mem_unresolved.mp hw.mem).2)
    rw [hwf.threadid_of_mem (Process.mem_before.mp hb).1]
    exact (congrFun (congrFun hval c.threadid) b.seq).symm
  · intro hG c hc
    obtain ⟨hp', -, hoff⟩ := (invariant_true (G := OperandsFree)).pass hp trivial hG hr
    obtain ⟨q, hq, rfl⟩ := pass_eq_some.mp hr
    have hd' : q.DepsEarlier := passFrom_depsEarlier hq hd
    exact (hoff rfl c hc).ready hp' hd'

/-- `Thunk::step` returns true on all that is offered exactly when every thunk that the last pass
reached meets `OperandsFree`, and nothing that is offered panics on its operands. -/
theorem offered_canStep_iff {p p' : Process} {r : List ThunkInner}
    (h : Reachable (fun _ _ => True) (.decoding p)) (hd : p.DepsEarlier)
    (hr : p.pass = some (p', r, false)) :
    (∀ c ∈ r, c.CanStep p') ↔
      (∀ v ∈ p.visits, OperandsFree v.1 v.2) ∧ ∀ c ∈ r, c.Returns p' := by
  rw [← offered_ready_iff h hd hr, ← forall₂_and]
  exact forall₂_congr fun c _ => canStep_iff

theorem offered_canStep_iff_load_store : ∃ p p' r, Reachable (fun _ _ => True) (.decoding p) ∧
    p.DepsEarlier ∧ p.pass = some (p', r, false) ∧ r ≠ [] ∧
    ((∀ c ∈ r, c.CanStep p') ↔
      (∀ v ∈ p.visits, OperandsFree v.1 v.2) ∧ ∀ c ∈ r, c.Returns p') := by
  let ds := decodeAll [DataFlow.load (ptr 128) i32 .relaxed,
    DataFlow.store (ptr 256) i32 (int 1) .relaxed]
  have hrun : ∃ p ∈ ds.foldlM Process.decode (.new .new), p.DepsEarlier ∧
      ∃ x ∈ p.pass, x.2.1 ≠ [] ∧ x.2.2 = false := by decide +kernel
  obtain ⟨p, hp, hd, ⟨p', r, b⟩, hr, hne, hb⟩ := hrun
  cases hb
  have h : Reachable (fun _ _ => True) (.decoding p) := (Reachable.new _).decodes hp
  exact ⟨p, p', r, h, hd, hr, hne, offered_canStep_iff h hd hr⟩

/-- A relaxed store of a value that a relaxed load, still in flight, is to return: both are
offered, and `Thunk::step` on the store returns false. -/
theorem offered_not_canStep : ∃ p p' r, Reachable (fun _ _ => True) (.decoding p) ∧
    p.DepsEarlier ∧ p.pass = some (p', r, false) ∧ ¬ ∀ c ∈ r, c.CanStep p' := by
  let ds := decodeAll [DataFlow.load (ptr 128) i32 .relaxed,
    DataFlow.store (ptr 256) i32 (.cell 0 0) .relaxed]
  have hrun : ∃ p ∈ ds.foldlM Process.decode (.new .new), p.DepsEarlier ∧
      ∃ x ∈ p.pass, x.2.2 = false ∧ ∃ c ∈ x.2.1, ∃ d ∈ c.deps, d.tryGet x.1 = none := by
    decide +kernel
  obtain ⟨p, hp, hd, ⟨p', r, b⟩, hr, hb, c, hc, d, hdc, hn⟩ := hrun
  cases hb
  refine ⟨p, p', r, (Reachable.new _).decodes hp, hd, hr, fun hall => ?_⟩
  exact (hall c hc).1.2 d hdc hn

end AtomicSim
