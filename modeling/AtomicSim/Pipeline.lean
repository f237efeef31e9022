import AtomicSim.Lib.Related
import AtomicSim.Process

namespace AtomicSim

namespace Process

section Fields

variable (p : Process) (t u : ThreadId) (c : ThunkInner) (v : Value) (m : Memory)

theorem flows_modify_self (f : DataFlow → DataFlow) : (p.modify t f).flows t = f (p.flows t) :=
  Function.update_self _ _ _

theorem flows_modify_of_ne {t u : ThreadId} (h : u ≠ t) (f : DataFlow → DataFlow) :
    (p.modify t f).flows u = p.flows u :=
  Function.update_of_ne h _ _

theorem value_resolve (i : ℕ) : (p.resolve c v m).value u i =
    if u = c.threadid ∧ i = c.seq then some v else p.value u i := by
  unfold resolve value
  by_cases hu : u = c.threadid
  · subst hu
    simp only [flows_modify_self, DataFlow.resolve, Function.update_apply, true_and]
  · simp only [flows_modify_of_ne p hu, hu, false_and, if_false]

/-- What `f` leaves alone in a pipeline is the same in every pipeline afterwards. -/
theorem proj_modify {α : Type*} (g : DataFlow → α) (f : DataFlow → DataFlow)
    (hf : ∀ x, g (f x) = g x) : g ((p.modify t f).flows u) = g (p.flows u) := by
  by_cases hu : u = t
  · subst hu
    rw [flows_modify_self, hf]
  · rw [flows_modify_of_ne p hu]

@[simp] theorem decoded_resolve :
    ((p.resolve c v m).flows u).decoded = (p.flows u).decoded :=
  proj_modify p _ u DataFlow.decoded (fun f => f.resolve c.seq v) fun _ => rfl

@[simp] theorem thunks_resolve : ((p.resolve c v m).flows u).thunks = (p.flows u).thunks :=
  proj_modify p _ u DataFlow.thunks (fun f => f.resolve c.seq v) fun _ => rfl

@[simp] theorem value_retain : (p.modify t DataFlow.retain).value = p.value :=
  funext fun u => proj_modify p t u DataFlow.value DataFlow.retain fun _ => rfl

@[simp] theorem decoded_retain :
    ((p.modify t DataFlow.retain).flows u).decoded = (p.flows u).decoded :=
  proj_modify p t u DataFlow.decoded DataFlow.retain fun _ => rfl

theorem thunks_retain : ((p.modify t DataFlow.retain).flows u).thunks =
    if u = t then (p.flows t).thunks.filter fun th => (p.value t th.seq).isNone
    else (p.flows u).thunks := by
  by_cases hu : u = t
  · subst hu
    simp only [flows_modify_self, DataFlow.retain, if_true, value]
  · simp only [flows_modify_of_ne p hu, if_neg hu]

end Fields

/-- What every run keeps: thunks are numbered in decoding order, a pipeline holds its
unresolved thunks in that order, and the trace lists exactly the resolved ones. -/
structure WF (p : Process) : Prop where
  numbered : ∀ {t i} {th : ThunkInner}, (p.flows t).decoded[i]? = some th →
    th.threadid = t ∧ th.seq = i
  sublist : ∀ t, List.Sublist (p.flows t).thunks (p.flows t).decoded
  unresolved : ∀ {t i} {th : ThunkInner}, (p.flows t).decoded[i]? = some th → p.value t i = none →
    th ∈ (p.flows t).thunks
  decoded_of_value : ∀ {t i v}, p.value t i = some v → i < (p.flows t).decoded.length
  idle : ∀ {t}, t ∉ p.threads → (p.flows t).thunks = []
  fresh : ∀ {t}, p.nextThreadid ≤ t → p.flows t = DataFlow.new
  started : ∀ {t}, t ∈ p.threads → t < p.nextThreadid
  logged : ∀ {t i v}, p.value t i = some v ↔ ∃ m m', Event.res t i v m m' ∈ p.log

theorem WF.value_seq {p : Process} (h : p.WF) (t : ThreadId) :
    p.value t (p.flows t).seq = none := by
  by_contra hne
  obtain ⟨v, hv⟩ := Option.ne_none_iff_exists'.mp hne
  exact absurd (h.decoded_of_value hv) (Nat.lt_irrefl _)

/-- Nothing decoded or resolved is undone. -/
structure Extends (p q : Process) : Prop where
  decoded : ∀ t, (p.flows t).decoded <+: (q.flows t).decoded
  value : ∀ {t i v}, p.value t i = some v → q.value t i = some v

theorem Extends.refl (p : Process) : p.Extends p := ⟨fun _ => List.prefix_rfl, id⟩

theorem Extends.trans {p q r : Process} (h : p.Extends q) (h' : q.Extends r) : p.Extends r :=
  ⟨fun t => (h.decoded t).trans (h'.decoded t), fun hv => h'.value (h.value hv)⟩

theorem Extends.value_none {p q : Process} (h : p.Extends q) {t : ThreadId} {i : ℕ}
    (hq : q.value t i = none) : p.value t i = none := by
  by_contra hne
  obtain ⟨v, hv⟩ := Option.ne_none_iff_exists'.mp hne
  cases hq.symm.trans (h.value hv)

theorem Extends.tryGet {p q : Process} (h : p.Extends q) {d : Thunk} {v : Value}
    (hd : d.tryGet p = some v) : d.tryGet q = some v := by
  cases d with
  | constant w => exact hd
  | cell t i => exact h.value hd

theorem Extends.range {p q : Process} (h : p.Extends q) {c : ThunkInner} {r : Range ℕ}
    (hr : c.range p = some r) : c.range q = some r := by
  unfold ThunkInner.range at hr ⊢
  cases ha : c.address with
  | none => rw [ha] at hr; cases hr
  | some al =>
    simp only [ha, Option.map_eq_some_iff] at hr ⊢
    obtain ⟨a, hg, rfl⟩ := hr
    exact ⟨a, h.tryGet hg, rfl⟩

theorem Extends.getElem? {p q : Process} (h : p.Extends q) {t : ThreadId} {i : ℕ} {th : ThunkInner}
    (hd : (p.flows t).decoded[i]? = some th) : (q.flows t).decoded[i]? = some th := by
  obtain ⟨l, hl⟩ := h.decoded t
  rw [← hl, List.getElem?_append_left (List.getElem?_eq_some_iff.mp hd).1, hd]

theorem WF.getElem?_of_mem {p : Process} (h : p.WF) {t : ThreadId} {th : ThunkInner}
    (hm : th ∈ (p.flows t).thunks) : (p.flows t).decoded[th.seq]? = some th := by
  obtain ⟨i, hi⟩ := List.mem_iff_getElem?.mp ((h.sublist t).subset hm)
  rw [(h.numbered hi).2, hi]

theorem WF.threadid_of_mem {p : Process} (h : p.WF) {t : ThreadId} {th : ThunkInner}
    (hm : th ∈ (p.flows t).thunks) : th.threadid = t :=
  (h.numbered (h.getElem?_of_mem hm)).1

theorem WF.sorted {p : Process} (h : p.WF) (t : ThreadId) :
    (p.flows t).thunks.Pairwise fun a b => a.seq < b.seq := by
  refine List.Pairwise.sublist (h.sublist t) (List.pairwise_iff_getElem.mpr ?_)
  intro i j hi hj hij
  rw [(h.numbered (List.getElem?_eq_getElem hi)).2, (h.numbered (List.getElem?_eq_getElem hj)).2]
  exact hij

theorem wf_new (m : Memory) : (new m).WF where
  numbered h := by simp [new, DataFlow.new] at h
  sublist t := List.Sublist.refl _
  unresolved h := by simp [new, DataFlow.new] at h
  decoded_of_value h := by simp [new, DataFlow.new, value] at h
  idle _ := rfl
  fresh _ := rfl
  started h := by simp [new] at h
  logged := by simp [new, DataFlow.new, value]

theorem wf_retain {p : Process} (h : p.WF) (t : ThreadId) : (p.modify t DataFlow.retain).WF where
  numbered hd := h.numbered (by rwa [decoded_retain] at hd)
  sublist u := by
    rw [thunks_retain, decoded_retain]
    split_ifs with hu
    · subst hu
      exact List.filter_sublist.trans (h.sublist u)
    · exact h.sublist u
  unresolved {u i th} hd hv := by
    rw [decoded_retain] at hd
    rw [value_retain] at hv
    have hm := h.unresolved hd hv
    rw [thunks_retain]
    split_ifs with hu
    · subst hu
      rw [List.mem_filter, (h.numbered hd).2, hv]
      exact ⟨hm, rfl⟩
    · exact hm
  decoded_of_value hv := by
    rw [value_retain] at hv
    rw [decoded_retain]
    exact h.decoded_of_value hv
  idle {u} hu := by
    rw [thunks_retain]
    split_ifs with hut
    · subst hut
      rw [h.idle hu, List.filter_nil]
    · exact h.idle hu
  fresh {u} hu := by
    by_cases hut : u = t
    · subst hut
      rw [flows_modify_self, h.fresh hu]
      rfl
    · rw [flows_modify_of_ne p hut, h.fresh hu]
  started hu := h.started hu
  logged := by
    intro u i v
    rw [value_retain]
    exact h.logged

theorem wf_reapThreads {p : Process} (h : p.WF) : p.reapThreads.WF where
  numbered := h.numbered
  sublist := h.sublist
  unresolved := h.unresolved
  decoded_of_value := h.decoded_of_value
  idle {t} ht := by
    by_cases hm : t ∈ p.threads
    · -- a thread is reaped only once its pipeline is empty
      have hdead : ¬ (p.flows t).alive := fun ha => ht (List.mem_filter.mpr ⟨hm, ha⟩)
      have hlen : ¬ 0 < (p.flows t).len := fun hl => hdead (by simp [DataFlow.alive, hl])
      exact List.eq_nil_of_length_eq_zero (Nat.eq_zero_of_not_pos hlen)
    · exact h.idle hm
  fresh := h.fresh
  started ht := h.started (List.mem_of_mem_filter ht)
  logged := h.logged

theorem wf_resolve {p : Process} (h : p.WF) {c : ThunkInner}
    (hc : (p.flows c.threadid).decoded[c.seq]? = some c) (hv : p.value c.threadid c.seq = none)
    (v : Value) (m : Memory) : (p.resolve c v m).WF where
  numbered hd := h.numbered (by rwa [decoded_resolve] at hd)
  sublist u := by
    rw [thunks_resolve, decoded_resolve]
    exact h.sublist u
  unresolved {u i th} hd hn := by
    rw [decoded_resolve] at hd
    rw [value_resolve] at hn
    rw [thunks_resolve]
    split_ifs at hn
    exact h.unresolved hd hn
  decoded_of_value {u i w} hw := by
    rw [value_resolve] at hw
    rw [decoded_resolve]
    split_ifs at hw with hui
    · rw [hui.1, hui.2]
      exact (List.getElem?_eq_some_iff.mp hc).1
    · exact h.decoded_of_value hw
  idle hu := by
    rw [thunks_resolve]
    exact h.idle hu
  fresh {u} hu := by
    have hne : u ≠ c.threadid := by
      rintro rfl
      rw [h.fresh hu] at hc
      simp [DataFlow.new] at hc
    rw [← h.fresh hu]
    simp only [resolve, flows_modify_of_ne p hne]
  started hu := h.started hu
  logged {u i w} := by
    have hlog : (p.resolve c v m).log = p.log ++ [.res c.threadid c.seq v p.memory m] := rfl
    rw [value_resolve, hlog]
    simp only [List.mem_append, List.mem_singleton, Event.res.injEq]
    split_ifs with hui
    · -- an older line of the trace for this thunk would have given it a value
      obtain ⟨rfl, rfl⟩ := hui
      constructor
      · intro hvw
        exact ⟨_, _, .inr ⟨rfl, rfl, (Option.some.inj hvw).symm, rfl, rfl⟩⟩
      · rintro ⟨m₁, m₂, hm | ⟨-, -, rfl, -⟩⟩
        · rw [h.logged.mpr ⟨m₁, m₂, hm⟩] at hv
          cases hv
        · rfl
    · rw [h.logged]
      constructor
      · rintro ⟨m₁, m₂, hm⟩
        exact ⟨m₁, m₂, .inl hm⟩
      · rintro ⟨m₁, m₂, hm | ⟨rfl, rfl, -⟩⟩
        · exact ⟨m₁, m₂, hm⟩
        · exact absurd ⟨rfl, rfl⟩ hui

theorem extends_resolve {p : Process} {c : ThunkInner} (hv : p.value c.threadid c.seq = none)
    (v : Value) (m : Memory) : p.Extends (p.resolve c v m) := by
  refine ⟨fun u => by rw [decoded_resolve], fun {u i w} hw => ?_⟩
  rw [value_resolve]
  split_ifs with hui
  · rw [hui.1, hui.2, hv] at hw
    cases hw
  · exact hw

/-- What a task can do while the pool runs. -/
inductive Decoded (p : Process) : Process → Prop
  | push {c : ThunkInner} : c.threadid ∈ p.threads → c.seq = (p.flows c.threadid).seq →
      Decoded p (p.modify c.threadid fun f => f.push c)
  | addThread : Decoded p p.addThread
  | join {t : ThreadId} : t ∈ p.threads →
      Decoded p (p.modify t fun f => { f with joined := true })
  | store (m : Memory) :
      Decoded p { p with memory := m, log := p.log ++ [.store p.memory m] }

theorem threadLocal_eq_some {p p' : Process} {t : ThreadId} {layout : Layout} {value : Value}
    {ptr : ℕ} (h : p.threadLocal t layout value = some (ptr, p')) :
    ∃ m, p' = { p with memory := m, log := p.log ++ [.store p.memory m] } := by
  unfold threadLocal at h
  split_ifs at h with ht
  simp only [Option.bind_eq_bind, Option.bind_eq_some_iff] at h
  obtain ⟨_, -, m, -, h⟩ := h
  cases h
  exact ⟨m, rfl⟩

theorem decoded_of_decode {p p' : Process} {d : Decode} (h : p.decode d = some p') :
    p.Decoded p' := by
  cases d with
  | thunkImpl t address atomicity deps compute =>
    simp only [decode, thunkImpl, Option.map_eq_some_iff] at h
    obtain ⟨_, h, rfl⟩ := h
    split_ifs at h with hg
    rw [← Option.some.inj h]
    exact .push (c := ⟨t, _, deps, address, atomicity, compute⟩) hg.1 rfl
  | addThread =>
    rw [← Option.some.inj h]
    exact .addThread
  | join t =>
    simp only [decode, join] at h
    split_ifs at h with ht
    rw [← Option.some.inj h]
    exact .join ht
  | threadLocal t layout value =>
    simp only [decode, Option.map_eq_some_iff] at h
    obtain ⟨⟨ptr, q⟩, h, rfl⟩ := h
    obtain ⟨m, rfl⟩ := threadLocal_eq_some h
    exact .store m

theorem Decoded.value {p p' : Process} (h : p.Decoded p') (hp : p.WF) : p'.value = p.value := by
  funext u i
  cases h with
  | @push th _ _ =>
    exact congrFun (proj_modify p _ u DataFlow.value (fun f => f.push th) fun _ => rfl) i
  | addThread =>
    by_cases hu : u = p.nextThreadid
    · subst hu
      simp only [Process.value, Process.addThread, Function.update_self, hp.fresh le_rfl]
    · simp only [Process.value, Process.addThread, Function.update_of_ne hu]
  | join _ =>
    exact congrFun (proj_modify p _ u DataFlow.value
      (fun f => { f with joined := true }) fun _ => rfl) i
  | store m => rfl

theorem Decoded.extends {p p' : Process} (h : p.Decoded p') (hp : p.WF) : p.Extends p' := by
  refine ⟨fun u => ?_, fun hv => by rwa [h.value hp]⟩
  cases h with
  | @push th _ _ =>
    by_cases hu : u = th.threadid
    · subst hu
      rw [flows_modify_self]
      exact List.prefix_append _ _
    · rw [flows_modify_of_ne p hu]
  | addThread =>
    by_cases hu : u = p.nextThreadid
    · subst hu
      rw [hp.fresh le_rfl]
      exact List.nil_prefix
    · simp only [Process.addThread, Function.update_of_ne hu, List.prefix_rfl]
  | join _ =>
    rw [proj_modify p _ u DataFlow.decoded (fun f => { f with joined := true }) fun _ => rfl]
  | store m => exact List.prefix_rfl

theorem wf_push {p : Process} (h : p.WF) {th : ThunkInner} (ht : th.threadid ∈ p.threads)
    (hs : th.seq = (p.flows th.threadid).seq) :
    (p.modify th.threadid fun f => f.push th).WF := by
  have hval := (Decoded.push ht hs).value h
  refine ⟨fun {u i x} hd => ?_, fun u => ?_, fun {u i x} hd hv => ?_, fun {u i v} hv => ?_,
    fun {u} hu => ?_, fun {u} hu => ?_, h.started, fun {u i v} => by rw [hval]; exact h.logged⟩
  -- the pipeline that grows, and the others
  all_goals by_cases hut : u = th.threadid
  any_goals subst hut
  all_goals simp only [flows_modify_self, DataFlow.push] at *
  all_goals try simp only [flows_modify_of_ne p hut] at *
  · rw [List.getElem?_append] at hd
    split_ifs at hd with hi
    · exact h.numbered hd
    · obtain ⟨hi', rfl⟩ := List.getElem?_eq_some_iff.mp hd
      simp only [List.length_singleton] at hi'
      simp only [List.getElem_singleton, true_and]
      rw [hs, DataFlow.seq]
      omega
  · exact h.numbered hd
  · exact (h.sublist _).append (List.Sublist.refl _)
  · exact h.sublist u
  · rw [hval] at hv
    rw [List.getElem?_append] at hd
    split_ifs at hd with hi
    · exact List.mem_append_left _ (h.unresolved hd hv)
    · obtain ⟨_, rfl⟩ := List.getElem?_eq_some_iff.mp hd
      simp
  · rw [hval] at hv
    exact h.unresolved hd hv
  · rw [hval] at hv
    rw [List.length_append]
    exact Nat.lt_add_right _ (h.decoded_of_value hv)
  · rw [hval] at hv
    exact h.decoded_of_value hv
  · exact absurd ht hu
  · exact h.idle hu
  · exact absurd (h.started ht) (Nat.not_lt.mpr hu)
  · exact h.fresh hu

theorem flows_addThread {p : Process} (h : p.WF) : p.addThread.flows = p.flows := by
  rw [Process.addThread, ← h.fresh (le_refl p.nextThreadid)]
  exact Function.update_eq_self _ _

theorem wf_addThread {p : Process} (h : p.WF) : p.addThread.WF := by
  have hflows := flows_addThread h
  have hval : p.addThread.value = p.value := by
    funext t i
    rw [value, value, hflows]
  refine ⟨fun hd => h.numbered (hflows ▸ hd), fun u => hflows ▸ h.sublist u,
    fun hd hv => ?_, fun hv => ?_, fun {u} hu => ?_, fun {u} hu => ?_, fun {u} hu => ?_,
    by rw [hval]; exact h.logged⟩
  · rw [hval] at hv
    rw [hflows] at hd ⊢
    exact h.unresolved hd hv
  · rw [hval] at hv
    rw [hflows]
    exact h.decoded_of_value hv
  · rw [hflows]
    exact h.idle fun hm => hu (List.mem_append_left _ hm)
  · rw [hflows]
    exact h.fresh (Nat.le_of_succ_le hu)
  · rcases List.mem_append.mp hu with hu | hu
    · exact Nat.lt_succ_of_lt (h.started hu)
    · rw [List.mem_singleton.mp hu]
      exact Nat.lt_succ_self _

theorem wf_join {p : Process} (h : p.WF) {t : ThreadId} (ht : t ∈ p.threads) :
    (p.modify t fun f => { f with joined := true }).WF := by
  have hval := (Decoded.join ht).value h
  have hdec : ∀ u, ((p.modify t fun f => { f with joined := true }).flows u).decoded =
      (p.flows u).decoded := fun u =>
    proj_modify p t u DataFlow.decoded (fun f => { f with joined := true }) fun _ => rfl
  have hthunks : ∀ u, ((p.modify t fun f => { f with joined := true }).flows u).thunks =
      (p.flows u).thunks := fun u =>
    proj_modify p t u DataFlow.thunks (fun f => { f with joined := true }) fun _ => rfl
  refine ⟨fun hd => h.numbered (hdec _ ▸ hd), fun u => ?_, fun hd hv => ?_, fun hv => ?_,
    fun hu => ?_, fun {u} hu => ?_, h.started, by rw [hval]; exact h.logged⟩
  · rw [hdec, hthunks]
    exact h.sublist u
  · rw [hval] at hv
    rw [hdec] at hd
    rw [hthunks]
    exact h.unresolved hd hv
  · rw [hval] at hv
    rw [hdec]
    exact h.decoded_of_value hv
  · rw [hthunks]
    exact h.idle hu
  · have hne : u ≠ t := fun hut => absurd (h.started ht) (Nat.not_lt.mpr (hut ▸ hu))
    rw [flows_modify_of_ne p hne]
    exact h.fresh hu

theorem Decoded.wf {p p' : Process} (h : p.Decoded p') (hp : p.WF) : p'.WF := by
  have hval := h.value hp
  cases h with
  | push ht hs => exact wf_push hp ht hs
  | addThread => exact wf_addThread hp
  | join ht => exact wf_join hp ht
  | store m =>
    refine ⟨hp.numbered, hp.sublist, hp.unresolved, hp.decoded_of_value, hp.idle, hp.fresh,
      hp.started, fun {u i v} => ?_⟩
    rw [hval, hp.logged]
    simp only [List.mem_append, List.mem_singleton, reduceCtorEq, or_false]

end Process
end AtomicSim
