import AtomicSim.Polling

namespace AtomicSim

/-- The task ends with its join signal, and it joins only the thread that it has just looked
up, which `o` is. -/
def Task.Sound : Option ThreadId → Task → Prop
  | _, .ret | _, .panic _ | _, .send _ => True
  | _, .done => False
  | _, .thunk _ k => ∀ d, (k d).Sound none
  | _, .await _ k => ∀ v, (k v).Sound none
  | _, .threadLocal _ _ k => ∀ ptr, (k ptr).Sound none
  | _, .lock _ k | _, .unlock _ k | _, .wait _ _ k | _, .receive k | _, .notify _ k
  | _, .notifyAll _ k => k.Sound none
  | _, .tryLock _ k => ∀ b, (k b).Sound none
  | _, .addThread _ k => ∀ u, (k u).Sound none
  | _, .thread u k => k.Sound (some u)
  | o, .join u k => o = some u ∧ ∀ v, (k v).Sound none

section Sound

theorem sound_nativeReturn (v : ℕ) : (nativeReturn v).Sound none := fun _ => trivial

theorem sound_store {address : ℕ} {value : Value} {k : Task} (h : k.Sound none) :
    (FlowCtx.store address value k).Sound none := fun _ _ _ _ => h

theorem sound_cmpxchgU64 {address expected replacement : ℕ} {success failure : Ordering}
    {k : ℕ × Bool → Task} (h : ∀ r, (k r).Sound none) :
    (FlowCtx.cmpxchgU64 address expected replacement success failure k).Sound none := by
  intro _ _ _ _ output
  dsimp only
  split
  · exact h _
  · trivial

theorem sound_mutexLockAcquire {m : ℕ} {k : Task} (h : k.Sound none) :
    (mutexLockAcquire m k).Sound none := by
  refine sound_cmpxchgU64 fun r => ?_
  split_ifs
  · exact h
  · trivial

theorem sound_mutexLockRelease {m : ℕ} {k : Task} (h : k.Sound none) :
    (mutexLockRelease m k).Sound none := by
  refine sound_cmpxchgU64 fun r => ?_
  split_ifs
  · exact h
  · trivial

theorem sound_pthreadJoin (u : ThreadId) (retval : ℕ) : (pthreadJoin u retval).Sound none := by
  refine ⟨rfl, fun v => ?_⟩
  split_ifs
  · exact sound_store (sound_nativeReturn 0)
  · exact sound_nativeReturn 0

theorem sound_task (c : Call) : c.task.Sound none := by
  have hret := sound_nativeReturn 0
  cases c with
  | mutexTrylock m =>
    intro b
    cases b with
    | true => exact sound_mutexLockAcquire hret
    | false => exact sound_nativeReturn 1
  | mutexLock m => exact sound_mutexLockAcquire hret
  | mutexUnlock m => exact sound_mutexLockRelease hret
  | mutexInit m => exact sound_store hret
  | condWait c m => exact sound_mutexLockRelease (sound_mutexLockAcquire hret)
  | condBroadcast c | condSignal c => exact hret
  | create thread arg => exact fun u => sound_store hret
  | join callee args =>
    exact nativeCall_induction trivial trivial (fun _ => sound_pthreadJoin _ _) fun _ _ _ hk => hk
  | decode a | await d | threadLocal layout value | exit d => exact fun _ => trivial

theorem sound_start (params : List Value) : (Task.start params).Sound none := by
  induction params with
  | nil => trivial
  | cons v params ih => exact fun _ => ih

end Sound

namespace Machine

section Sane

variable {s s' : Machine} {p : Process} {t : ThreadId} {a : MachineAction}

/-- The task of a thread that has not ended goes on soundly. -/
def Sane (s : Machine) : Prop :=
  ∀ t < s.process.nextThreadid, s.sent t = none →
    ∃ o, (s.control t).Sound o ∧ ∀ u ∈ o, u < s.process.nextThreadid

theorem Performed.nextThreadid_le (hs : Performed s a s') :
    s.process.nextThreadid ≤ s'.process.nextThreadid := by
  have hdec : ∀ {p' : Process}, s.process.Decoded p' →
      s.process.nextThreadid ≤ p'.nextThreadid := by
    intro p' h
    cases h with
    | addThread => exact Nat.le_succ _
    | push _ _ | store _ | join _ => exact le_rfl
  cases hs with
  | main hc _ =>
    rw [process_eq hc]
    exact Nat.le_succ _
  | enter _ _ _ _ => exact le_rfl
  | poll hc _ hs =>
    have hp := process_eq hc
    subst hp
    rcases hs.process_decoded with h | h
    · rw [h]
    · exact hdec h
  | pass ha | choose ha => exact (passed_of_act ha nofun).nextThreadid.ge

theorem WF.control_of_new (h : s.WF) (hs : Performed s a s') (hle : s.process.nextThreadid ≤ t)
    (hlt : t < s'.process.nextThreadid) : ∃ params, s'.control t = .start params := by
  have hsame : s'.process.nextThreadid = s.process.nextThreadid →
      ∃ params, s'.control t = .start params := fun heq => absurd (heq ▸ hlt) (Nat.not_lt.mpr hle)
  have hspawn : ∀ (p : Process) params, t = p.nextThreadid →
      (s.spawn p params).control t = .start params :=
    fun p params ht => ht ▸ Function.update_self _ _ _
  cases hs with
  | @main p hc _ =>
    have hp := process_eq hc
    subst hp
    exact ⟨_, hspawn _ _ (Nat.le_antisymm (Nat.lt_succ_iff.mp hlt) hle)⟩
  | enter _ _ _ _ => exact hsame rfl
  | pass ha | choose ha => exact hsame (passed_of_act ha nofun).nextThreadid
  | @poll p u _ hc _ hp =>
    have hproc := process_eq hc
    subst hproc
    generalize hk : s.control u = k at hp
    cases hp with
    | @spawn params _ =>
      have hne : t ≠ u := by
        intro htu
        rw [← htu, (h.fresh t hle).1] at hk
        cases hk
      have ht := Nat.le_antisymm (Nat.lt_succ_iff.mp hlt) hle
      exact ⟨params, (Function.update_of_ne hne _ _).trans (hspawn _ _ ht)⟩
    | fail _ | suspend _ | full _ | decode _ | store | await _ | receive _ | thread _ | join _
    | lock | tryLock | unlock _ | wait _ | notify | notifyAll | finish _ => exact hsame rfl

theorem Sane.polled (hwf : s.WF) (hc : s.config = .decoding p) {o : Option ThreadId}
    (ho : (s.control t).Sound o) (hlt : ∀ u ∈ o, u < p.nextThreadid)
    (hs : Polled s p t (s.control t) s') (hsent : s'.sent t = none) :
    ∃ o', (s'.control t).Sound o' ∧ ∀ u ∈ o', u < p.nextThreadid := by
  have hgoto : ∀ {r : Machine} {k : Task}, k.Sound none →
      ∃ o', ((r.goto t k).control t).Sound o' ∧ ∀ u ∈ o', u < p.nextThreadid :=
    fun hk => ⟨none, by rwa [control_goto], nofun⟩
  generalize hk : s.control t = k at hs ho
  have hkeep : ∃ o', (s.control t).Sound o' ∧ ∀ u ∈ o', u < p.nextThreadid :=
    ⟨o, hk ▸ ho, hlt⟩
  cases hs with
  | fail _ | suspend _ | full _ => exact hkeep
  | decode _ | store | await _ | tryLock | spawn => exact hgoto (ho _)
  | join _ => exact hgoto (ho.2 _)
  | receive _ | lock | unlock _ | wait _ | notify | notifyAll => exact hgoto ho
  | @thread u k hu =>
    refine ⟨some u, by rw [control_goto]; exact ho, fun v hv => ?_⟩
    rw [← Option.some.inj hv]
    exact (process_eq hc ▸ hwf.process).started hu
  | finish _ =>
    rw [show (s.finish _ t _).sent t = some _ from Function.update_self _ _ _] at hsent
    cases hsent

theorem Sane.performed (h : s.Sane) (hwf : s.WF) (hs : Performed s a s') : s'.Sane := by
  have hf := hwf.frame hs
  have hle := hs.nextThreadid_le
  intro t ht hsent
  by_cases hlt : t < s.process.nextThreadid
  · have hold : s.sent t = none := by
      by_contra hne
      obtain ⟨v, hv⟩ := Option.ne_none_iff_exists'.mp hne
      rw [hf.sent hv] at hsent
      cases hsent
    obtain ⟨o, ho, hou⟩ := h t hlt hold
    have hmono : ∀ {k : Task}, (∃ o', k.Sound o' ∧ ∀ u ∈ o', u < s.process.nextThreadid) →
        ∃ o', k.Sound o' ∧ ∀ u ∈ o', u < s'.process.nextThreadid :=
      fun ⟨o', hk, hu⟩ => ⟨o', hk, fun u h => (hu u h).trans_le hle⟩
    by_cases hact : actor a = some t
    · cases hs with
      | main _ _ | pass _ | choose _ => cases hact
      | enter _ _ _ _ =>
        cases hact
        refine ⟨none, ?_, nofun⟩
        show (Function.update s.control t _ t).Sound none
        rw [Function.update_self]
        exact sound_task _
      | poll hc _ hp =>
        cases hact
        have hproc := process_eq hc
        subst hproc
        exact hmono (Sane.polled hwf hc ho hou hp hsent)
    · rw [hf.control t hlt hact]
      exact hmono ⟨o, ho, hou⟩
  · obtain ⟨params, hk⟩ := hwf.control_of_new hs (Nat.not_lt.mp hlt) ht
    exact ⟨none, hk ▸ sound_start params, nofun⟩

end Sane

end Machine

/-- Where a future that is pending has left the waker of the task. -/
def Task.waker : Task → Option Waker
  | .await d _ => some (.thunk d)
  | .receive _ => some .receiver
  | .join u _ => some (.join u)
  | _ => none

namespace Machine

section Suspended

variable {s s' : Machine} {p : Process} {t : ThreadId} {a : MachineAction}

/-- A waker is that of a task which the pool does not poll, at the future that is pending. -/
def Suspended (s : Machine) : Prop :=
  ∀ w t, (w, t) ∈ s.wakers → s.ready t = false ∧ (s.control t).waker = some w

theorem Suspended.wake (h : s.Suspended) : s.wake.Suspended := by
  intro w t hw
  obtain ⟨hmem, hfire⟩ := List.mem_filter.mp hw
  obtain ⟨hr, hk⟩ := h w t hmem
  refine ⟨Bool.or_eq_false_iff.mpr ⟨hr, List.any_eq_false.mpr fun e he => ?_⟩, hk⟩
  -- the task has no other waker
  by_cases het : e.2 = t
  · have hk' := (h e.1 t (het ▸ he)).2
    rw [hk, Option.some.injEq] at hk'
    simpa [het, ← hk'] using hfire
  · simp [het]

theorem Suspended.performed (h : s.Suspended) (hwf : s.WF) (hs : Performed s a s') :
    s'.Suspended := by
  have hcontrol : ∀ {w u}, (w, u) ∈ s.wakers → s.control u ≠ .done := by
    intro w u hw hdone
    have hk := (h w u hw).2
    rw [hdone] at hk
    cases hk
  -- a task that is not ready keeps what it has
  have hkeep : ∀ {w u}, (w, u) ∈ s.wakers → actor a ≠ some u →
      s'.ready u = false ∧ (s'.control u).waker = some w := by
    intro w u hw hu
    obtain ⟨hr, hk⟩ := h w u hw
    have hlt := (hwf.lt_of_control (hcontrol hw)).1
    exact ⟨(hs.ready hlt hu).1.trans hr, ((hwf.frame hs).control u hlt hu) ▸ hk⟩
  have hactor : ∀ {w u}, (w, u) ∈ s.wakers → s.ready u = true → False := fun hw hr => by
    rw [(h _ _ hw).1] at hr
    cases hr
  cases hs with
  | main _ _ | pass _ | choose _ => exact fun _ _ hw => hkeep hw nofun
  | enter _ hr _ _ =>
    exact fun _ _ hw => hkeep hw fun ht => hactor hw (Option.some.inj ht ▸ hr)
  | @poll p t _ hc hr hp =>
    have hold : ∀ {w u}, (w, u) ∈ s.wakers → s'.ready u = false ∧ (s'.control u).waker = some w :=
      fun hw => hkeep hw fun ht => hactor hw (Option.some.inj ht ▸ hr)
    generalize hk : s.control t = k at hp
    cases hp with
    | @suspend k w hsus =>
      intro w' u hw
      rcases List.mem_append.mp hw with hw | hw
      · exact hold hw
      · obtain ⟨rfl, rfl⟩ := Prod.mk.inj (List.mem_singleton.mp hw)
        refine ⟨Function.update_self _ _ _, ?_⟩
        show (s.control u).waker = some w'
        rw [hk]
        cases hsus with
        | await _ | receive _ | join _ => rfl
    | full _ =>
      intro w u hw
      exact hold ((List.append_nil s.wakers) ▸ hw)
    | fail _ | decode _ | store | await _ | receive _ | thread _ | join _ | lock | tryLock
    | unlock _ | wait _ | notify | notifyAll | spawn | finish _ => exact fun _ _ => hold

/-- No waker is left whose event has come. -/
def Settled (s : Machine) : Prop := ∀ e ∈ s.wakers, s.fires e.2 e.1 = false

theorem settled_wake (s : Machine) : s.wake.Settled := by
  intro e he
  have hfire := (List.mem_filter.mp he).2
  exact Bool.not_eq_true' _ ▸ hfire

end Suspended
end Machine

/-- What a pass without progress has offered. -/
def Config.offered : Config → Option (List ThunkInner)
  | decoding _ => none
  | offering _ resolvable => some resolvable

section Pass

variable {p p' : Process} {ts : List ThreadId} {r r' : List ThunkInner} {b : Bool}

theorem passFrom_thunks (h : Process.passFrom ts (p, r, b) = some (p', r', false))
    (t : ThreadId) :
    (p'.flows t).thunks = if t ∈ ts then p.unresolved t else (p.flows t).thunks := by
  induction ts generalizing p r b with
  | nil =>
    cases h
    rfl
  | cons u ts ih =>
    obtain ⟨s, -, -, h⟩ := passFrom_cons_quiet h
    rw [ih h, Process.unresolved_retain]
    by_cases htu : t = u
    · subst htu
      simp only [List.mem_cons, true_or, if_true, Process.thunks_retain_self, ite_self]
    · simp only [List.mem_cons, htu, false_or, Process.thunks_retain, if_false]

/-- If nothing is offered, nothing is left in the pipelines, and what stays in the table is
the threads without a join signal. -/
theorem pass_nil (hp : p.WF) (hd : p.DepsEarlier) (h : p.pass = some (p', [], false)) :
    (∀ t, (p'.flows t).thunks = []) ∧ ∀ t ∈ p'.threads, (p'.flows t).joined = false := by
  obtain ⟨q, hq, rfl⟩ := pass_eq_some.mp h
  have hnil : ∀ t, (q.flows t).thunks = [] := by
    intro t
    rw [passFrom_thunks hq]
    split_ifs with ht
    · by_contra hne
      exact passFrom_ne_nil hp hd hq ht hne rfl
    · exact hp.idle ht
  refine ⟨hnil, fun t ht => ?_⟩
  have halive := (List.mem_filter.mp ht).2
  rw [DataFlow.alive, DataFlow.len, hnil t] at halive
  show (q.flows t).joined = false
  simpa using halive

end Pass

namespace Machine

section Offers

variable {s s' : Machine} {p : Process} {r : List ThunkInner} {t : ThreadId}

/-- Once a pass has made no progress, no task is ready; if it has offered nothing either, all
pipelines are empty. -/
def Offers (s : Machine) : Prop :=
  ∀ p r, s.config = .offering p r → s.Stalled ∧ (r = [] →
    (∀ t, (p.flows t).thunks = []) ∧ ∀ t ∈ p.threads, (p.flows t).joined = false)

theorem perform_pass (h : s.perform .pass = some s') :
    s.Stalled ∧ ∃ p config, s.config = .decoding p ∧ s.config.act .pass = some config ∧
      s' = { s with config } := by
  unfold perform at h
  cases hc : s.config with
  | offering p r =>
    simp only [hc] at h
    cases h
  | decoding p =>
    simp only [hc] at h
    split_ifs at h with hst
    obtain ⟨config, hact, rfl⟩ := Option.map_eq_some_iff.mp h
    exact ⟨hst, p, config, rfl, hact, rfl⟩

theorem perform_choose {n : ℕ} (h : s.perform (.choose n) = some s') :
    ∃ p, s'.config = .decoding p := by
  unfold perform at h
  cases hc : s.config with
  | decoding p =>
    simp only [hc] at h
    cases h
  | offering p r =>
    simp only [hc, Config.act] at h
    obtain ⟨config, hact, rfl⟩ := Option.map_eq_some_iff.mp h
    split at hact
    · cases hact
    · split at hact
      · exact ⟨_, (Option.some.inj hact).symm⟩
      · cases hact

theorem Reachable.settled {D : Machine → MachineAction → Prop} {memory : Memory}
    (h : Reachable D memory s) : s.Settled := by
  cases h with
  | new => exact fun e he => absurd he List.not_mem_nil
  | act _ _ ha =>
    obtain ⟨-, s₁, -, rfl⟩ := act_eq_some ha
    exact settled_wake s₁

theorem stalled_of_pass (hset : s.Settled) (hst : s.Stalled) {config : Config}
    (hc : s.config = .decoding p) {p' : Process}
    (hp : p.pass = some (p', r, false)) (hconfig : config = .offering p' r) :
    (wake { s with config }).Stalled := by
  subst hconfig
  obtain ⟨q, hq, rfl⟩ := pass_eq_some.mp hp
  have hvalue : q.reapThreads.value = s.process.value := by
    rw [process_eq hc]
    show q.value = p.value
    exact passFrom_value hq
  have hnext : q.reapThreads.nextThreadid = s.process.nextThreadid := by
    rw [process_eq hc]
    exact (passFrom_kept hq).nextThreadid
  intro t ht
  refine Bool.or_eq_false_iff.mpr ⟨hst t (hnext ▸ ht), List.any_eq_false.mpr fun e he => ?_⟩
  have hfire := hset e he
  obtain ⟨w, u⟩ := e
  -- the values are those of before
  have hsame : Machine.fires { s with config := .offering q.reapThreads r } u w = s.fires u w := by
    cases w with
    | thunk d =>
      cases d with
      | constant v => rfl
      | cell u i => exact congrArg Option.isSome (congrFun (congrFun hvalue u) i)
    | receiver | join u => rfl
  by_cases hut : u = t
  · subst hut
    simp only [beq_self_eq_true, Bool.true_and, Bool.not_eq_true]
    exact hsame.trans hfire
  · simp [hut]

theorem Reachable.offers {D : Machine → MachineAction → Prop} {memory : Memory}
    (h : Reachable D memory s) : s.Offers := by
  cases h with
  | new => exact fun p r hc => by cases hc
  | @act s s' a hs _ ha =>
    obtain ⟨-, s₁, hp, rfl⟩ := act_eq_some ha
    have hwf := hs.wf
    intro p r hc
    have hc : s₁.config = .offering p r := hc
    cases a with
    | pass =>
      obtain ⟨hst, p₀, config, hc₀, hact, rfl⟩ := perform_pass hp
      rw [hc₀] at hact
      obtain ⟨⟨p', r', b⟩, hpass, rfl⟩ := Option.map_eq_some_iff.mp hact
      cases b with
      | true => cases hc
      | false =>
        cases hc
        refine ⟨stalled_of_pass hs.settled hst hc₀ hpass rfl, fun hr => ?_⟩
        subst hr
        have hproc := process_eq hc₀
        exact pass_nil (hproc ▸ hwf.process) (hproc ▸ hwf.deps) hpass
    | choose n =>
      obtain ⟨p', hp'⟩ := perform_choose hp
      exact nomatch hp'.symm.trans hc
    | addMain =>
      cases performed_of_perform hp with
      | main _ _ => cases hc
    | call t c =>
      cases performed_of_perform hp with
      | enter hc₀ _ _ _ => exact nomatch hc₀.symm.trans hc
    | poll t =>
      cases performed_of_perform hp with
      | poll hc₀ _ hs =>
        rcases hs.decoded with hd | ⟨p', -, hd⟩
        · exact nomatch hc₀.symm.trans (hd.symm.trans hc)
        · exact nomatch hd.symm.trans hc

/-- The thread waits for a mutex that is locked, for a notification, or for another thread of
the table. -/
inductive Blocked (s : Machine) (t : ThreadId) : Prop
  | mutex {m : ℕ} {x : Sender} {k : Task} : s.control t = .receive k →
      s.sync.waiting t = some (x, m) → x ∈ s.sync.queue (.mutex m) →
      (s.sync.mutexes m).locked = true → Blocked s t
  | condvar {c m : ℕ} {x : Sender} {k : Task} : s.control t = .receive k →
      s.sync.waiting t = some (x, m) → x ∈ s.sync.queue (.condvar c) → Blocked s t
  | join {u : ThreadId} {k : ℕ → Task} : s.control t = .join u k → u ∈ s.process.threads →
      Blocked s t

theorem WF.blocked_of_receive (h : s.WF) (hi : s.sync.Idle) {k : Task}
    (hk : s.control t = .receive k) (hw : s.sync.waiting t ≠ none) : s.Blocked t := by
  obtain ⟨⟨x, m⟩, hw⟩ := Option.ne_none_iff_exists'.mp hw
  obtain ⟨q, hq⟩ := (h.queued.waiting hw).resolve_left nofun
  cases q with
  | condvar c => exact .condvar hk hw hq
  | mutex n =>
    obtain ⟨u, hu⟩ := h.owned.mutex hq
    cases h.owned.unique hw hu
    cases hw.symm.trans hu
    refine .mutex hk hw hq ?_
    by_contra hl
    rw [Sync.queue, hi m (Bool.eq_false_iff.mpr hl)] at hq
    exact absurd hq List.not_mem_nil

theorem Reachable.invariant_wf {D : Machine → MachineAction → Prop} {memory : Memory}
    {P : Machine → Prop} (h : Reachable D memory s) (hnew : P (.new memory))
    (hwake : ∀ s, P s → P s.wake)
    (hstep : ∀ s s' a, s.WF → P s → Performed s a s' → P s') : P s := by
  have hall : s.WF ∧ P s := by
    refine Reachable.invariant (P := fun s => s.WF ∧ P s) h ⟨wf_new memory, hnew⟩
      (fun s h => ⟨h.1.wake, hwake s h.2⟩) fun s s' a _ _ hs hp => ?_
    have hperf := performed_of_perform hp
    exact ⟨hs.1.performed hperf, hstep s s' a hs.1 hs.2 hperf⟩
  exact hall.2

theorem Reachable.idle {D : Machine → MachineAction → Prop} {memory : Memory}
    (h : Reachable D memory s) : s.sync.Idle :=
  h.invariant_wf (P := fun s => s.sync.Idle) (fun _ _ => rfl) (fun _ => id)
    fun _ _ _ hwf hi hs => (hwf.steps_of_performed hs).invariant (fun _ _ hi h => h.idle hi) hi

theorem Reachable.suspended {D : Machine → MachineAction → Prop} {memory : Memory}
    (h : Reachable D memory s) : s.Suspended :=
  h.invariant_wf (fun _ _ hw => absurd hw List.not_mem_nil) (fun _ hs => hs.wake)
    fun _ _ _ hwf h hs => h.performed hwf hs

theorem Reachable.sane {D : Machine → MachineAction → Prop} {memory : Memory}
    (h : Reachable D memory s) : s.Sane :=
  h.invariant_wf nofun (fun _ => id) fun _ _ _ hwf h hs => h.performed hwf hs

theorem Reachable.awake {memory : Memory} (h : Reachable HasRoom memory s) : s.Awake :=
  h.invariant (fun _ hk => absurd rfl hk) (fun _ => Awake.wake)
    fun _ _ _ hroom _ hs hp => hs.performed hroom (performed_of_perform hp)

/-- When `step` finds nothing to resolve, the threads in the table are those that have not
ended, and each of them is blocked by another or by itself. So its assertion that the table
is empty fails exactly in a deadlock. -/
theorem threads_blocked {memory : Memory} (h : Reachable HasRoom memory s)
    (hc : s.config = .offering p []) :
    (∀ t, t ∈ p.threads ↔ t < p.nextThreadid ∧ s.sent t = none) ∧ ∀ t ∈ p.threads, s.Blocked t := by
  have hwf := h.wf
  have hproc : s.process = p := by
    rw [process, hc]
    rfl
  subst hproc
  obtain ⟨hstalled, hempty⟩ := h.offers _ _ hc
  obtain ⟨hnil, hjoined⟩ := hempty rfl
  have hiff : ∀ t, t ∈ s.process.threads ↔ t < s.process.nextThreadid ∧ s.sent t = none := by
    intro t
    refine ⟨fun ht => ⟨hwf.process.started ht, ?_⟩, fun ht => hwf.live t ht.1 ht.2⟩
    have hj := hjoined t ht
    rw [hwf.joined] at hj
    exact Option.isNone_iff_eq_none.mp (by simpa using hj)
  refine ⟨hiff, fun t ht => ?_⟩
  obtain ⟨hlt, hsent⟩ := (hiff t).mp ht
  obtain ⟨o, hsound, hlooked⟩ := h.sane t hlt hsent
  have hne : s.control t ≠ .done := by
    intro hdone
    rw [hdone] at hsound
    exact hsound
  -- the task has left its waker, and the event has not come
  obtain ⟨w, hw⟩ := h.awake t hne (hstalled t hlt)
  have hk := (h.suspended w t hw).2
  have hfire := h.settled (w, t) hw
  unfold Task.waker at hk
  split at hk
  · rename_i d k hk'
    cases hk
    -- all thunks of the thread have their values
    have hown := (hwf.own t)
    rw [hk'] at hown
    cases d with
    | constant v => cases hfire
    | cell u i =>
      obtain ⟨rfl, hi⟩ := hown.1
      have hval : s.process.value u i = none :=
        Option.isNone_iff_eq_none.mp (by simpa [fires, Thunk.tryGet] using hfire)
      have hmem := hwf.process.unresolved (List.getElem?_eq_getElem hi) hval
      rw [hnil u] at hmem
      exact absurd hmem List.not_mem_nil
  · rename_i k hk'
    cases hk
    refine hwf.blocked_of_receive h.idle hk' fun hnone => ?_
    simp [fires, hnone] at hfire
  · rename_i u k hk'
    cases hk
    rw [hk'] at hsound
    refine .join hk' ((hiff u).mpr ⟨hlooked u hsound.1, ?_⟩)
    exact Option.isNone_iff_eq_none.mp (by simpa [fires] using hfire)
  · cases hk

/-- The first thread locks a mutex that it holds. -/
theorem threads_blocked_relock : ∃ s p, Reachable HasRoom .new s ∧ s.config = .offering p [] ∧
    0 ∈ p.threads ∧ (∀ t, t ∈ p.threads ↔ t < p.nextThreadid ∧ s.sent t = none) ∧
    ∀ t ∈ p.threads, s.Blocked t := by
  let acts : List MachineAction := [.addMain, .poll 0, .poll 0,
    .call 0 (.mutexInit 128), .poll 0, .poll 0, .poll 0, .poll 0, .pass, .poll 0, .poll 0,
    .call 0 (.mutexLock 128), .poll 0, .poll 0, .poll 0, .poll 0, .poll 0, .poll 0, .poll 0, .pass,
    .pass, .choose 0, .poll 0, .poll 0,
    .call 0 (.mutexLock 128), .poll 0, .poll 0, .pass, .pass]
  have hrun : ∃ s ∈ (new .new).runWhile HasRoom acts, 0 ∈ s.process.threads ∧
      s.config.offered.map List.length = some 0 := by decide +kernel
  obtain ⟨s, hs, h0, hlen⟩ := hrun
  have h : Reachable HasRoom .new s := Reachable.new.runWhile hs
  cases hc : s.config with
  | decoding p =>
    rw [hc] at hlen
    cases hlen
  | offering p r =>
    rw [hc] at hlen
    obtain rfl := List.length_eq_zero_iff.mp (Option.some.inj hlen)
    rw [process, hc] at h0
    exact ⟨s, p, h, hc, h0, threads_blocked h hc⟩

end Offers
end Machine
end AtomicSim
