import AtomicSim.Lib.Reorder
import AtomicSim.Runs
import AtomicSim.Flow

namespace AtomicSim

/-- The earlier thunks of its thread that must precede `x` are among those in `l`. -/
def Process.Preceded (P : Process → ThunkInner → ThunkInner → Prop) (p : Process)
    (l : List (ThreadId × ℕ)) (x : ThreadId × ℕ) : Prop :=
  ∀ c ∈ (p.flows x.1).decoded[x.2]?, ∀ j < x.2, ∀ b ∈ (p.flows x.1).decoded[j]?,
    P p b c → (x.1, j) ∈ l

/-- No thunk is resolved before an earlier thunk of its thread that must precede it. -/
def Process.InOrder (P : Process → ThunkInner → ThunkInner → Prop) (p : Process) : Prop :=
  ∀ k < p.trace.length, ∀ x ∈ p.trace[k]?, p.Preceded P (p.trace.take k) x

section Decidable

variable (P : Process → ThunkInner → ThunkInner → Prop) (p : Process)
  [∀ b c, Decidable (P p b c)]

instance (l : List (ThreadId × ℕ)) (x : ThreadId × ℕ) : Decidable (p.Preceded P l x) :=
  inferInstanceAs (Decidable (∀ c ∈ (p.flows x.1).decoded[x.2]?, _))

instance : Decidable (p.InOrder P) :=
  inferInstanceAs (Decidable (∀ k < p.trace.length, _))

end Decidable

/-- When `c` is resolved, no unresolved thunk before it must precede it, then or later. -/
def Clears (G : Process → ThunkInner → Prop) (P : Process → ThunkInner → ThunkInner → Prop) :
    Prop :=
  ∀ {p q : Process} {b c : ThunkInner}, p.WF → Eligible G p c → (c.isAtomic → Offered G p c) →
    p.Extends q → b ∈ p.before c → p.value c.threadid b.seq = none → ¬ P q b c

section InOrder

variable {G : Process → ThunkInner → Prop} {P : Process → ThunkInner → ThunkInner → Prop}

/-- The invariant behind `InOrder`: it judges the thunks by any later state. -/
def InOrderIn (P : Process → ThunkInner → ThunkInner → Prop) (p : Process) : Prop :=
  ∀ q, p.Extends q → ∀ l₁ l₂ t i, p.trace = l₁ ++ (t, i) :: l₂ →
    ∀ c, (q.flows t).decoded[i]? = some c → ∀ j < i,
      ∀ b, (q.flows t).decoded[j]? = some b → P q b c → (t, j) ∈ l₁

theorem invariant_inOrder (hP : Clears G P) : Invariant G (InOrderIn P) where
  same hs h q hq l₁ l₂ t i hlog := by
    rw [Process.trace, hs.log] at hlog
    refine h q ⟨fun u => hs.decoded u ▸ hq.decoded u, fun hv => hq.value ?_⟩ l₁ l₂ t i hlog
    rwa [hs.value]
  push hp ht hseq h q hq := h q (((Process.Decoded.push ht hseq).extends hp).trans hq)
  store {p n} _ h q hq l₁ l₂ t i hlog := by
    refine h q ⟨hq.decoded, hq.value⟩ l₁ l₂ t i ?_
    simpa only [Process.trace, List.filterMap_append, List.filterMap_cons, List.filterMap_nil,
      Event.id, List.append_nil] using hlog
  resolve {p p' c} hp h he ho hs := by
    cases hs with
    | @resolved args w n _ hv _ _ =>
      intro q hq l₁ l₂ t i hlog d hd j hj b hb hP'
      have hpq := (Process.extends_resolve hv w n).trans hq
      rw [trace_resolve] at hlog
      rcases Reorder.append_singleton_eq hlog with ⟨l₃, hlog⟩ | ⟨rfl, he'⟩
      · exact h q hpq l₁ l₃ t i hlog d hd j hj b hb hP'
      · cases he'
        -- the new entry of the trace: `c` itself is resolved
        have hc := hp.getElem?_of_mem he.mem
        rw [hpq.getElem? hc] at hd
        cases hd
        have hlt := hj.trans (List.getElem?_eq_some_iff.mp hc).1
        have hb' := List.getElem?_eq_getElem hlt
        rw [hpq.getElem? hb'] at hb
        cases hb
        have hseq := (hp.numbered hb').2
        rw [mem_trace hp]
        intro hval
        have hmem := Process.mem_before.mpr ⟨hp.unresolved hb' hval, hseq.symm ▸ hj⟩
        exact hP hp he ho hpq hmem (hseq.symm ▸ hval) hP'

theorem inOrderIn_new (m : Memory) : InOrderIn P (.new m) := by
  intro q _ l₁ l₂ t i hlog
  simp [Process.trace, Process.new] at hlog

theorem Reachable.inOrder (hP : Clears G P) {c : Config} (h : Reachable G c) :
    c.process.InOrder P := by
  intro k hk x hx d hd j hj b hb hPb
  have hsplit : c.process.trace = c.process.trace.take k ++ x :: c.process.trace.drop (k + 1) := by
    obtain ⟨hk', rfl⟩ := List.getElem?_eq_some_iff.mp hx
    rw [List.getElem_cons_drop, List.take_append_drop]
  have hinv := (h.good (invariant_inOrder hP) inOrderIn_new).inv
  exact hinv c.process (.refl _) _ _ x.1 x.2 hsplit d hd j hj b hb hPb

end InOrder

/-- An access that overlaps an unresolved access before it overlaps a held one too. -/
def OverlapHeld (p : Process) (c : ThunkInner) : Prop :=
  ∀ b ∈ p.before c, p.value c.threadid b.seq = none → b.Overlaps p c → p.Aliased c

instance (p : Process) (c : ThunkInner) : Decidable (OverlapHeld p c) :=
  inferInstanceAs (Decidable (∀ b ∈ p.before c, _))

theorem clears_overlaps : Clears OverlapHeld fun p b c => b.Overlaps p c := by
  rintro p q b c - he - hpq hb hv ⟨r, hr, s, hs, ho⟩
  obtain ⟨hsome, hfree⟩ := he.clear (isMemory_of_range hs)
  obtain ⟨s', hs'⟩ := Option.isSome_iff_exists.mp hsome
  obtain ⟨r', hr'⟩ := Option.isSome_iff_exists.mp (he.known b hb (isMemory_of_range hr))
  cases (hpq.range hs').symm.trans hs
  cases (hpq.range hr').symm.trans hr
  obtain ⟨q', hq', hG⟩ := he.cond
  refine hfree (hq'.aliased.mp (hG b (hq'.before ▸ hb) (by rw [hq'.value]; exact hv) ?_))
  exact ⟨r, by rw [hq'.range]; exact hr', s, by rw [hq'.range]; exact hs', ho⟩

/-- A run whose passes meet `OverlapHeld` resolves overlapping accesses of a thread in
program order. -/
theorem overlap_in_order {c : Config} (h : Reachable OverlapHeld c) :
    c.process.InOrder fun p b c => b.Overlaps p c :=
  h.inOrder clears_overlaps

theorem overlap_in_order_store_load : ∃ c, Reachable OverlapHeld c ∧
    c.process.trace = [(0, 0), (0, 1)] ∧ c.process.InOrder fun p b c => b.Overlaps p c := by
  let ds := decodeAll [DataFlow.store (ptr 128) i32 (int 1) .relaxed,
    DataFlow.load (ptr 130) i32 .none]
  let acts : List Action := [.pass, .choose 0, .pass]
  have hrun : ∃ p ∈ ds.foldlM Process.decode (.new .new), ∃ c ∈ (Config.decoding p).run acts,
      (∀ v ∈ (Config.decoding p).runVisits acts, OverlapHeld v.1 v.2) ∧
      c.process.trace = [(0, 0), (0, 1)] := by decide +kernel
  obtain ⟨p, hp, c, hc, hG, htrace⟩ := hrun
  have h : Reachable OverlapHeld c := .of_run hp hc hG
  exact ⟨c, h, htrace, overlap_in_order h⟩

/-- The load is passed over because of the store before it, and nothing then keeps the
second store, which overlaps only the load, from being resolved. -/
theorem overlap_out_of_order : ∃ c, Reachable (fun _ _ => True) c ∧
    ¬ c.process.InOrder fun p b c => b.Overlaps p c := by
  let ds := decodeAll [DataFlow.store (ptr 128) i32 (int 1) .relaxed,
    DataFlow.load (ptr 128) i64 .none, DataFlow.store (ptr 132) i32 (int 2) .none]
  let acts : List Action := [.pass]
  have hrun : ∃ p ∈ ds.foldlM Process.decode (.new .new), ∃ c ∈ (Config.decoding p).run acts,
      ¬ c.process.InOrder fun p b c => b.Overlaps p c := by decide +kernel
  obtain ⟨p, hp, c, hc, hne⟩ := hrun
  exact ⟨c, .of_run hp hc fun _ _ => trivial, hne⟩

/-- A barrier that a pass reaches overlaps no held access before it. -/
def BarrierSeen (p : Process) (c : ThunkInner) : Prop :=
  c.isMemory → c.atomicity.isAcquire → ¬ p.Aliased c

instance (p : Process) (c : ThunkInner) : Decidable (BarrierSeen p c) :=
  inferInstanceAs (Decidable (c.isMemory → _ → _))

def AfterAcquire (b c : ThunkInner) : Prop :=
  b.isMemory ∧ b.atomicity.isAcquire ∧ c.isMemory

instance (b c : ThunkInner) : Decidable (AfterAcquire b c) :=
  inferInstanceAs (Decidable (_ ∧ _))

theorem clears_afterAcquire : Clears BarrierSeen fun _ b c => AfterAcquire b c := by
  rintro p q b c - he - - hb - ⟨hbm, hba, -⟩
  obtain ⟨q', hG, hal⟩ := he.barrier b hb hbm hba
  exact hG hbm hba hal

/-- A run whose passes meet `BarrierSeen` resolves no access before an acquire, acq-rel or
seq-cst access that precedes it in its thread. -/
theorem acquire_in_order {c : Config} (h : Reachable BarrierSeen c) :
    c.process.InOrder fun _ b c => AfterAcquire b c :=
  h.inOrder clears_afterAcquire

theorem acquire_in_order_load_load : ∃ c, Reachable BarrierSeen c ∧
    c.process.trace = [(0, 0), (0, 1)] ∧ c.process.InOrder fun _ b c => AfterAcquire b c := by
  let ds := decodeAll [DataFlow.load (ptr 128) i32 .acquire,
    DataFlow.load (ptr 256) i32 .none]
  let acts : List Action := [.pass, .choose 0, .pass]
  have hrun : ∃ p ∈ ds.foldlM Process.decode (.new .new), ∃ c ∈ (Config.decoding p).run acts,
      (∀ v ∈ (Config.decoding p).runVisits acts, BarrierSeen v.1 v.2) ∧
      c.process.trace = [(0, 0), (0, 1)] := by decide +kernel
  obtain ⟨p, hp, c, hc, hG, htrace⟩ := hrun
  have h : Reachable BarrierSeen c := .of_run hp hc hG
  exact ⟨c, h, htrace, acquire_in_order h⟩

/-- The acquire load is passed over because of the store before it, so the loop never
comes to its `break`. -/
theorem acquire_out_of_order : ∃ c, Reachable (fun _ _ => True) c ∧
    ¬ c.process.InOrder fun _ b c => AfterAcquire b c := by
  let ds := decodeAll [DataFlow.store (ptr 128) i32 (int 1) .relaxed,
    DataFlow.load (ptr 128) i32 .acquire, DataFlow.load (ptr 256) i32 .none]
  let acts : List Action := [.pass]
  have hrun : ∃ p ∈ ds.foldlM Process.decode (.new .new), ∃ c ∈ (Config.decoding p).run acts,
      ¬ c.process.InOrder fun _ b c => AfterAcquire b c := by decide +kernel
  obtain ⟨p, hp, c, hc, hne⟩ := hrun
  exact ⟨c, .of_run hp hc fun _ _ => trivial, hne⟩

/-- Every earlier access of the thread must precede an access with one of the orderings. -/
def AfterAll (orderings : List Ordering) (b c : ThunkInner) : Prop :=
  b.isMemory ∧ c.isMemory ∧ c.atomicity ∈ orderings

instance (orderings : List Ordering) (b c : ThunkInner) : Decidable (AfterAll orderings b c) :=
  inferInstanceAs (Decidable (_ ∧ _))

theorem exists_head_of_mem_before {p : Process} (hp : p.WF) {b c : ThunkInner}
    (hb : b ∈ p.before c) :
    ∃ u, (p.flows c.threadid).thunks.head? = some u ∧ u ∈ p.before c := by
  obtain ⟨hmem, hlt⟩ := Process.mem_before.mp hb
  have hs := hp.sorted c.threadid
  cases ht : (p.flows c.threadid).thunks with
  | nil =>
    rw [ht] at hmem
    cases hmem
  | cons u rest =>
    rw [ht] at hmem hs
    refine ⟨u, rfl, Process.mem_before.mpr ⟨ht ▸ List.mem_cons_self, ?_⟩⟩
    rcases List.mem_cons.mp hmem with rfl | hmem
    · exact hlt
    · exact ((List.pairwise_cons.mp hs).1 b hmem).trans hlt

theorem Reachable.inOrder_of_deps {G : Process → ThunkInner → Prop}
    {P : Process → ThunkInner → ThunkInner → Prop}
    (hP : Clears G fun p b c => (p.WF ∧ p.DepsEarlier) ∧ P p b c) {c : Config}
    (h : Reachable G c) (hd : c.process.DepsEarlier) : c.process.InOrder P :=
  fun k hk x hx d hd' j hj b hb hPb => h.inOrder hP k hk x hx d hd' j hj b hb
    ⟨⟨(h.good (invariant_inOrder hP) inOrderIn_new).wf, hd⟩, hPb⟩

theorem clears_release : Clears (fun _ _ => True) fun p b c =>
    (p.WF ∧ p.DepsEarlier) ∧ AfterAll [.release] b c := by
  rintro p q b c hp - ho hpq hb - ⟨⟨hq, hd⟩, -, hc, hrel⟩
  rw [List.mem_singleton] at hrel
  have hoff := ho (by simp [ThunkInner.isAtomic, hc, hrel])
  obtain ⟨u, hu, hub⟩ := exists_head_of_mem_before hp hb
  rw [hoff.release (hd.mono hq hpq) hrel] at hu
  cases hu
  exact lt_irrefl _ (Process.mem_before.mp hub).2

/-- A release access is resolved only when every earlier access of its thread is. -/
theorem release_in_order {c : Config} (h : Reachable (fun _ _ => True) c)
    (hd : c.process.DepsEarlier) : c.process.InOrder fun _ b c => AfterAll [.release] b c :=
  h.inOrder_of_deps clears_release hd

theorem release_in_order_store_store : ∃ c, Reachable (fun _ _ => True) c ∧
    c.process.DepsEarlier ∧ c.process.trace = [(0, 0), (0, 1)] ∧
    c.process.InOrder fun _ b c => AfterAll [.release] b c := by
  let ds := decodeAll [DataFlow.store (ptr 128) i32 (int 1) .relaxed,
    DataFlow.store (ptr 256) i32 (int 1) .release]
  let acts : List Action := [.pass, .choose 0, .pass, .choose 0]
  have hrun : ∃ p ∈ ds.foldlM Process.decode (.new .new), ∃ c ∈ (Config.decoding p).run acts,
      c.process.DepsEarlier ∧ c.process.trace = [(0, 0), (0, 1)] := by decide +kernel
  obtain ⟨p, hp, c, hc, hd, htrace⟩ := hrun
  have h : Reachable (fun _ _ => True) c := .of_run hp hc fun _ _ => trivial
  exact ⟨c, h, hd, htrace, release_in_order h hd⟩

/-- A pass that reaches a free acq-rel or seq-cst access has no unresolved atomic access
before it. -/
def AtomicsResolved (p : Process) (c : ThunkInner) : Prop :=
  c.isMemory → c.atomicity ∈ [.acqRel, .seqCst] → ¬ p.Aliased c →
    ∀ b ∈ p.before c, b.isAtomic → p.value c.threadid b.seq ≠ none

instance (p : Process) (c : ThunkInner) : Decidable (AtomicsResolved p c) :=
  inferInstanceAs (Decidable (c.isMemory → _ → _ → ∀ b ∈ p.before c, _))

theorem clears_acqRel : Clears AtomicsResolved fun p b c =>
    (p.WF ∧ p.DepsEarlier) ∧ AfterAll [.acqRel, .seqCst] b c := by
  rintro p q b c hp he ho hpq hb - ⟨⟨hq, hd⟩, -, hc, hat⟩
  have hoff := ho (by
    rw [ThunkInner.isAtomic, hc, Bool.true_and, bne_iff_ne]
    rintro h
    rw [h] at hat
    simp at hat)
  obtain ⟨u, hu, hub⟩ := exists_head_of_mem_before hp hb
  obtain ⟨q', hq', hG⟩ := he.cond
  refine hG hc hat (hq'.aliased.not.mpr (he.clear hc).2) u (hq'.before ▸ hub)
    (hoff.head hp (hd.mono hq hpq) hu) ?_
  rw [hq'.value]
  exact hoff.settled u (Process.mem_before.mp hub).1

/-- A run whose passes meet `AtomicsResolved` resolves an acq-rel or seq-cst access only when
every earlier access of its thread is resolved. -/
theorem acqRel_in_order {c : Config} (h : Reachable AtomicsResolved c)
    (hd : c.process.DepsEarlier) :
    c.process.InOrder fun _ b c => AfterAll [.acqRel, .seqCst] b c :=
  h.inOrder_of_deps clears_acqRel hd

theorem acqRel_in_order_store_store : ∃ c, Reachable AtomicsResolved c ∧
    c.process.DepsEarlier ∧ c.process.trace = [(0, 0), (0, 1)] ∧
    c.process.InOrder fun _ b c => AfterAll [.acqRel, .seqCst] b c := by
  let ds := decodeAll [DataFlow.store (ptr 128) i32 (int 1) .none,
    DataFlow.store (ptr 256) i32 (int 1) .seqCst]
  let acts : List Action := [.pass, .pass, .choose 0]
  have hrun : ∃ p ∈ ds.foldlM Process.decode (.new .new), ∃ c ∈ (Config.decoding p).run acts,
      (∀ v ∈ (Config.decoding p).runVisits acts, AtomicsResolved v.1 v.2) ∧
      c.process.DepsEarlier ∧ c.process.trace = [(0, 0), (0, 1)] := by decide +kernel
  obtain ⟨p, hp, c, hc, hG, hd, htrace⟩ := hrun
  have h : Reachable AtomicsResolved c := .of_run hp hc hG
  exact ⟨c, h, hd, htrace, acqRel_in_order h hd⟩

/-- The arm that the stronger orderings share with acquire does not look at `resolvable`. -/
theorem acqRel_out_of_order : ∃ c, Reachable (fun _ _ => True) c ∧ c.process.DepsEarlier ∧
    ¬ c.process.InOrder fun _ b c => AfterAll [.acqRel, .seqCst] b c := by
  let ds := decodeAll [DataFlow.store (ptr 128) i32 (int 1) .relaxed,
    DataFlow.store (ptr 256) i32 (int 1) .seqCst]
  let acts : List Action := [.pass, .choose 1]
  have hrun : ∃ p ∈ ds.foldlM Process.decode (.new .new), ∃ c ∈ (Config.decoding p).run acts,
      c.process.DepsEarlier ∧
      ¬ c.process.InOrder fun _ b c => AfterAll [.acqRel, .seqCst] b c := by decide +kernel
  obtain ⟨p, hp, c, hc, hd, hne⟩ := hrun
  exact ⟨c, .of_run hp hc fun _ _ => trivial, hd, hne⟩

end AtomicSim
