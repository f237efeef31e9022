import AtomicSim.Machine
import AtomicSim.Progress

namespace AtomicSim

/-- The same threads, decoded thunks and join signals. -/
structure Process.Kept (p q : Process) : Prop where
  decoded : ∀ t, (q.flows t).decoded = (p.flows t).decoded
  joined : ∀ t, (q.flows t).joined = (p.flows t).joined
  threads : q.threads = p.threads
  nextThreadid : q.nextThreadid = p.nextThreadid

namespace Process.Kept

theorem refl (p : Process) : p.Kept p := ⟨fun _ => rfl, fun _ => rfl, rfl, rfl⟩

theorem trans {p q r : Process} (h : p.Kept q) (h' : q.Kept r) : p.Kept r :=
  ⟨fun t => (h'.decoded t).trans (h.decoded t), fun t => (h'.joined t).trans (h.joined t),
    h'.threads.trans h.threads, h'.nextThreadid.trans h.nextThreadid⟩

theorem modify (p : Process) (t : ThreadId) (f : DataFlow → DataFlow)
    (hd : ∀ x, (f x).decoded = x.decoded) (hj : ∀ x, (f x).joined = x.joined) :
    p.Kept (p.modify t f) :=
  ⟨fun u => proj_modify p t u DataFlow.decoded f hd,
    fun u => proj_modify p t u DataFlow.joined f hj, rfl, rfl⟩

theorem resolve (p : Process) (c : ThunkInner) (v : Value) (m : Memory) :
    p.Kept (p.resolve c v m) := by
  have h := modify p c.threadid (fun f => f.resolve c.seq v) (fun _ => rfl) fun _ => rfl
  exact ⟨h.decoded, h.joined, rfl, rfl⟩

end Process.Kept

theorem Stepped.kept {p p' : Process} {c : ThunkInner} {b : Bool} (h : Stepped p c p' b) :
    p.Kept p' := by
  cases h with
  | stuck => exact .refl p
  | resolved _ _ _ _ => exact .resolve p c _ _

section Pass

variable {p p' : Process} {t : ThreadId} {ts : List ThreadId} {r r' : List ThunkInner}
variable {b b' : Bool} {s s' : Scan} {cs : List ThunkInner}

theorem loop_kept (hl : Scan.loop cs s = some s') : s.process.Kept s'.process := by
  induction cs generalizing s with
  | nil =>
    cases hl
    exact .refl _
  | cons c cs ih =>
    obtain ⟨s₁, brk, hv, hl⟩ := loop_cons.mp hl
    have hs₁ : s.process.Kept s₁.process := by
      cases visited_of_visit hv with
      | pure _ hs | direct _ _ _ hs => exact hs.kept
      | unknown _ _ | aliased _ _ | blocked _ _ _ _ | offered _ _ _ _ => exact .refl _
    rcases hl with ⟨rfl, rfl⟩ | ⟨rfl, hl⟩
    · exact hs₁
    · exact hs₁.trans (ih hl)

theorem loop_thunks (hl : Scan.loop cs s = some s') (t : ThreadId) :
    (s'.process.flows t).thunks = (s.process.flows t).thunks := by
  induction cs generalizing s with
  | nil =>
    cases hl
    rfl
  | cons c cs ih =>
    obtain ⟨s₁, brk, hv, hl⟩ := loop_cons.mp hl
    have hs₁ : (s₁.process.flows t).thunks = (s.process.flows t).thunks := by
      cases visited_of_visit hv with
      | pure _ hs | direct _ _ _ hs =>
        cases hs with
        | stuck => rfl
        | resolved _ _ _ _ => exact Process.thunks_resolve _ _ _ _ _
      | unknown _ _ | aliased _ _ | blocked _ _ _ _ | offered _ _ _ _ => rfl
    rcases hl with ⟨rfl, rfl⟩ | ⟨rfl, hl⟩
    · exact hs₁
    · exact (ih hl).trans hs₁

theorem passFrom_kept (h : Process.passFrom ts (p, r, b) = some (p', r', b')) : p.Kept p' := by
  induction ts generalizing p r b with
  | nil =>
    cases h
    exact .refl _
  | cons t ts ih =>
    obtain ⟨p₁, r₁, b₁, hs, h⟩ := passFrom_cons.mp h
    obtain ⟨s, hl, rfl, rfl, -⟩ := stepPure_eq_some.mp hs
    have hret := Process.Kept.modify p t DataFlow.retain (fun _ => rfl) fun _ => rfl
    exact (hret.trans (loop_kept hl)).trans (ih h)

/-- What resolving thunks and reaping threads leave alone. -/
structure Process.Passed (p q : Process) : Prop where
  decoded : ∀ t, (q.flows t).decoded = (p.flows t).decoded
  joined : ∀ t, (q.flows t).joined = (p.flows t).joined
  nextThreadid : q.nextThreadid = p.nextThreadid
  threads : ∀ t ∈ q.threads, t ∈ p.threads
  /-- Only a thread that has sent its join signal is reaped. -/
  live : ∀ t ∈ p.threads, (p.flows t).joined = false → t ∈ q.threads

theorem Process.Kept.passed (h : p.Kept p') : p.Passed p' :=
  ⟨h.decoded, h.joined, h.nextThreadid, fun _ => h.threads ▸ id, fun _ ht _ => h.threads ▸ ht⟩

theorem passed_of_act {c c' : Config} {a : Action} (h : c.act a = some c')
    (ha : ∀ d, a ≠ .decode d) : c.process.Passed c'.process := by
  cases c with
  | decoding p =>
    cases a with
    | decode d => exact absurd rfl (ha d)
    | pass =>
      obtain ⟨⟨p', r, b⟩, hp, hc'⟩ := Option.map_eq_some_iff.mp h
      obtain ⟨q, hq, rfl⟩ := pass_eq_some.mp hp
      have hk := (passFrom_kept hq).passed
      have hc' : c'.process = q.reapThreads := by
        rw [← hc']
        cases b <;> rfl
      rw [hc']
      refine ⟨hk.decoded, hk.joined, hk.nextThreadid, fun t ht => ?_, fun t ht hj => ?_⟩
      · exact hk.threads t (List.mem_of_mem_filter ht)
      · refine List.mem_filter.mpr ⟨hk.live t ht hj, ?_⟩
        rw [DataFlow.alive, hk.joined, show (p.flows t).joined = false from hj]
        rfl
    | choose n => cases h
  | offering p r =>
    cases a with
    | decode d => exact absurd rfl (ha d)
    | pass => cases h
    | choose n =>
      simp only [Config.act] at h
      cases hn : r[n]? with
      | none =>
        rw [hn] at h
        cases h
      | some u =>
        simp only [hn] at h
        split at h
        · rename_i p' hs
          cases h
          exact (stepped_of_step hs).kept.passed
        · cases h

end Pass

theorem Process.decoded_push {p : Process} {t : ThreadId} (ht : t ∈ p.threads) (a : ThunkArgs) :
    p.Decoded (p.modify t fun f => f.push (a.thunk t (p.flows t).seq)) :=
  .push (c := a.thunk t (p.flows t).seq) ht rfl

namespace Machine

theorem process_eq {s : Machine} {p : Process} (hc : s.config = .decoding p) : s.process = p := by
  rw [process, hc]
  rfl

@[simp] theorem control_goto (s : Machine) (t : ThreadId) (k : Task) : (s.goto t k).control t = k :=
  Function.update_self _ _ _

/-- The operations that fail. -/
inductive Fails (s : Machine) (p : Process) (t : ThreadId) : Task → Failure → Prop
  | panic {f : Failure} : Fails s p t (.panic f) f
  | await {d : Thunk} {k : Value → Task} : d.threadid ∉ p.threads →
      Fails s p t (.await d k) (.noThread d.threadid)
  | unlock {m : ℕ} {k : Task} : s.sync.unlock t m = none → Fails s p t (.unlock m k) (.unlock m)
  | wait {c m : ℕ} {k : Task} : s.sync.wait t c m = none → Fails s p t (.wait c m k) (.unlock m)
  | thread {u : ThreadId} {k : Task} : u ∉ p.threads → Fails s p t (.thread u k) (.noThread u)

/-- The operations whose future is pending, and where it leaves its waker. -/
inductive Suspends (s : Machine) (p : Process) (t : ThreadId) : Task → Waker → Prop
  | await {d : Thunk} {k : Value → Task} : d.tryGet p = none →
      Suspends s p t (.await d k) (.thunk d)
  | receive {k : Task} : s.sync.waiting t ≠ none → Suspends s p t (.receive k) .receiver
  | join {u : ThreadId} {k : ℕ → Task} : s.sent u = none → Suspends s p t (.join u k) (.join u)

/-- The ways an operation of the task of `t` goes. -/
inductive Polled (s : Machine) (p : Process) (t : ThreadId) : Task → Machine → Prop
  | fail {k : Task} {f : Failure} : Fails s p t k f → Polled s p t k (s.fail f)
  | suspend {k : Task} {w : Waker} : Suspends s p t k w → Polled s p t k (s.suspend t (some w))
  | full {a : ThunkArgs} {k : Thunk → Task} : Process.pipelineSize ≤ (p.flows t).len →
      Polled s p t (.thunk a k) (s.suspend t none)
  | decode {a : ThunkArgs} {k : Thunk → Task} : t ∈ p.threads →
      Polled s p t (.thunk a k) ((s.decoded
        (p.modify t fun f => f.push (a.thunk t (p.flows t).seq)) t).goto t
          (k (.cell t (p.flows t).seq)))
  | store {layout : Layout} {value : Value} {k : ℕ → Task} {m : Memory} {ptr : ℕ} :
      Polled s p t (.threadLocal layout value k)
        ((s.setProcess { p with memory := m, log := p.log ++ [.store p.memory m] }).goto t (k ptr))
  | await {d : Thunk} {k : Value → Task} {v : Value} : d.tryGet p = some v →
      Polled s p t (.await d k) (s.goto t (k v))
  | receive {k : Task} : s.sync.waiting t = none → Polled s p t (.receive k) (s.goto t k)
  | thread {u : ThreadId} {k : Task} : u ∈ p.threads → Polled s p t (.thread u k) (s.goto t k)
  | join {u : ThreadId} {k : ℕ → Task} {value : ℕ} : s.sent u = some value →
      Polled s p t (.join u k) (s.goto t (k value))
  | lock {m : ℕ} {k : Task} :
      Polled s p t (.lock m k) ((s.setSync (s.sync.lock t m)).goto t (.receive k))
  | tryLock {m : ℕ} {k : Bool → Task} : Polled s p t (.tryLock m k)
      ((s.setSync (s.sync.tryLock t m)).goto t (k (s.sync.mutexes m).tryLock.1))
  | unlock {m : ℕ} {k : Task} {sync : Sync} : s.sync.unlock t m = some sync →
      Polled s p t (.unlock m k) ((s.setSync sync).goto t k)
  | wait {c m : ℕ} {k : Task} {sync : Sync} : s.sync.wait t c m = some sync →
      Polled s p t (.wait c m k) ((s.setSync sync).goto t (.receive k))
  | notify {c : ℕ} {k : Task} :
      Polled s p t (.notify c k) ((s.setSync (s.sync.notify c)).goto t k)
  | notifyAll {c : ℕ} {k : Task} :
      Polled s p t (.notifyAll c k) ((s.setSync (s.sync.notifyAll c)).goto t k)
  | spawn {params : List Value} {k : ThreadId → Task} : Polled s p t (.addThread params k)
      ((s.spawn p params).goto t (k p.nextThreadid))
  | finish {value : ℕ} : t ∈ p.threads → Polled s p t (.send value)
      (s.finish (p.modify t fun f => { f with joined := true }) t value)

theorem polled_of_poll {s s' : Machine} {p : Process} {t : ThreadId} {k : Task}
    (h : s.poll p t k = some s') : Polled s p t k s' := by
  cases k with
  | ret | done => cases h
  | panic f =>
    cases h
    exact .fail .panic
  | thunk a k =>
    simp only [poll] at h
    split_ifs at h with hlen
    · obtain ⟨⟨d, p'⟩, hd, h⟩ := Option.map_eq_some_iff.mp h
      -- the pipeline has room, and so the task decodes one more thunk
      unfold Process.thunkImpl at hd
      simp only at hd
      split_ifs at hd with hg
      cases hd
      cases h
      exact .decode hg.1
    · cases h
      exact .full (Nat.not_lt.mp hlen)
  | await d k =>
    simp only [poll, Thunk.poll] at h
    -- the thread of the thunk may be gone, and its value may not be there yet
    by_cases hth : p.thread d.threadid = true
    · rw [if_pos hth] at h
      cases hv : d.tryGet p with
      | none =>
        simp only [hv] at h
        cases h
        exact .suspend (.await hv)
      | some v =>
        simp only [hv] at h
        cases h
        exact .await hv
    · rw [if_neg hth] at h
      cases h
      exact .fail (.await (by simpa [Process.thread] using hth))
  | threadLocal layout value k =>
    simp only [poll, Option.map_eq_some_iff] at h
    obtain ⟨⟨ptr, q⟩, h, rfl⟩ := h
    obtain ⟨m, rfl⟩ := Process.threadLocal_eq_some h
    exact .store
  | lock m k =>
    cases h
    exact .lock
  | tryLock m k =>
    cases h
    exact .tryLock
  | unlock m k =>
    simp only [poll] at h
    cases hu : s.sync.unlock t m with
    | none =>
      simp only [hu] at h
      cases h
      exact .fail (.unlock hu)
    | some sync =>
      simp only [hu] at h
      cases h
      exact .unlock hu
  | wait c m k =>
    simp only [poll] at h
    cases hu : s.sync.wait t c m with
    | none =>
      simp only [hu] at h
      cases h
      exact .fail (.wait hu)
    | some sync =>
      simp only [hu] at h
      cases h
      exact .wait hu
  | receive k =>
    simp only [poll] at h
    split_ifs at h with hw
    · cases h
      exact .receive hw
    · cases h
      exact .suspend (.receive hw)
  | notify c k =>
    cases h
    exact .notify
  | notifyAll c k =>
    cases h
    exact .notifyAll
  | addThread params k =>
    cases h
    exact .spawn
  | thread u k =>
    simp only [poll, Process.thread, decide_eq_true_eq] at h
    split_ifs at h with hu
    · cases h
      exact .thread hu
    · cases h
      exact .fail (.thread hu)
  | join u k =>
    simp only [poll] at h
    cases hs : s.sent u with
    | none =>
      simp only [hs] at h
      cases h
      exact .suspend (.join hs)
    | some value =>
      simp only [hs] at h
      cases h
      exact .join hs
  | send value =>
    simp only [poll, Process.join, Option.map_eq_some_iff] at h
    obtain ⟨p', h, rfl⟩ := h
    split_ifs at h with ht
    cases h
    exact .finish ht

/-- What an action does to the machine, before the wakers are run. -/
inductive Performed (s : Machine) : MachineAction → Machine → Prop
  | main {p : Process} : s.config = .decoding p → p.nextThreadid = 0 →
      Performed s .addMain (s.spawn p [Value.new 32 0, Process.addr 0])
  | enter {p : Process} {t : ThreadId} {c : Call} : s.config = .decoding p → s.ready t →
      s.control t = .ret → (∀ d ∈ c.operands, d.Own t (p.flows t).seq) →
      Performed s (.call t c) { s with
        control := Function.update s.control t c.task
        call := Function.update s.call t (some c) }
  | poll {p : Process} {t : ThreadId} {s' : Machine} : s.config = .decoding p → s.ready t →
      Polled s p t (s.control t) s' → Performed s (.poll t) s'
  | pass {config : Config} : s.config.act .pass = some config →
      Performed s .pass { s with config }
  | choose {config : Config} {n : ℕ} : s.config.act (.choose n) = some config →
      Performed s (.choose n) { s with config }

theorem performed_of_perform {s s' : Machine} {a : MachineAction}
    (h : s.perform a = some s') : Performed s a s' := by
  unfold perform at h
  cases hc : s.config with
  | decoding p =>
    cases a with
    | addMain =>
      simp only [hc] at h
      split_ifs at h with h0
      cases h
      exact .main hc h0
    | call t c =>
      simp only [hc] at h
      unfold enter at h
      split at h
      · rename_i hk
        split_ifs at h with hg
        cases h
        exact .enter hc hg.1 hk (process_eq hc ▸ hg.2)
      · cases h
    | poll t =>
      simp only [hc] at h
      split_ifs at h with hr
      exact .poll hc hr (polled_of_poll h)
    | pass =>
      simp only [hc] at h
      split_ifs at h
      obtain ⟨config, hact, rfl⟩ := Option.map_eq_some_iff.mp h
      exact .pass (hc ▸ hact)
    | choose n =>
      simp only [hc] at h
      cases h
  | offering p r =>
    cases a with
    | choose n =>
      simp only [hc] at h
      obtain ⟨config, hact, rfl⟩ := Option.map_eq_some_iff.mp h
      exact .choose (hc ▸ hact)
    | addMain | call _ _ | poll _ | pass =>
      simp only [hc] at h
      cases h

theorem act_eq_some {s s' : Machine} {a : MachineAction} (h : s.act a = some s') :
    s.failure = none ∧ ∃ s₁, s.perform a = some s₁ ∧ s' = s₁.wake := by
  unfold act at h
  split_ifs at h with hf
  obtain ⟨s₁, hs₁, rfl⟩ := Option.map_eq_some_iff.mp h
  exact ⟨hf, s₁, hs₁, rfl⟩

section Act

variable {s s' : Machine} {p : Process} {t : ThreadId} (hf : s.failure = none)
  (hc : s.config = .decoding p)
include hf hc

theorem act_poll (hr : s.ready t) (h : s.poll p t (s.control t) = some s') :
    s.act (.poll t) = some s'.wake := by
  unfold act perform
  rw [if_pos hf, hc]
  simp only [hr, if_true, h, Option.map_some]

theorem act_call {c : Call} (h : s.enter t c = some s') : s.act (.call t c) = some s'.wake := by
  unfold act perform
  rw [if_pos hf, hc]
  simp only [h, Option.map_some]

theorem act_pass {config : Config} (hst : s.Stalled) (h : s.config.act .pass = some config) :
    s.act .pass = some (wake { s with config }) := by
  unfold act perform
  rw [if_pos hf]
  simp only [hc, if_pos hst]
  rw [hc] at h
  simp only [h, Option.map_some]

end Act

theorem Reachable.invariant {D : Machine → MachineAction → Prop} {memory : Memory}
    {P : Machine → Prop} {s : Machine} (h : Reachable D memory s) (hnew : P (Machine.new memory))
    (hwake : ∀ s, P s → P s.wake)
    (hstep : ∀ s s' a, D s a → s.failure = none → P s → s.perform a = some s' → P s') : P s := by
  induction h with
  | new => exact hnew
  | @act s s' a _ hD ha ih =>
    obtain ⟨hf, s₁, hs₁, rfl⟩ := act_eq_some ha
    exact hwake s₁ (hstep s s₁ a hD hf ih hs₁)

end Machine

/-- Whatever the task decodes or awaits is a constant or an earlier thunk of its thread, of
which `n` are decoded so far. -/
def Task.Own (t : ThreadId) : ℕ → Task → Prop
  | _, .ret | _, .done | _, .panic _ | _, .send _ => True
  | n, .thunk a k => (∀ d ∈ a.operands, d.Own t n) ∧ ∀ i, n ≤ i → (k (.cell t i)).Own t (i + 1)
  | n, .await d k => d.Own t n ∧ ∀ v, (k v).Own t n
  | n, .threadLocal _ _ k => ∀ ptr, (k ptr).Own t n
  | n, .lock _ k | n, .unlock _ k | n, .wait _ _ k | n, .receive k | n, .notify _ k
  | n, .notifyAll _ k | n, .thread _ k => k.Own t n
  | n, .tryLock _ k => ∀ b, (k b).Own t n
  | n, .addThread _ k => ∀ u, (k u).Own t n
  | n, .join _ k => ∀ v, (k v).Own t n

section Own

variable {t : ThreadId} {n : ℕ}

theorem own_cell {i : ℕ} (h : i < n) : (Thunk.cell t i).Own t n := ⟨rfl, h⟩

theorem own_constant {v : Value} {k : Thunk → Task}
    (h : ∀ i, n ≤ i → (k (.cell t i)).Own t (i + 1)) : (FlowCtx.constant v k).Own t n :=
  ⟨nofun, h⟩

theorem own_nativeReturn (v : ℕ) : (nativeReturn v).Own t n := own_constant fun _ _ => trivial

theorem own_store {address : ℕ} {value : Value} {k : Task} (h : ∀ n' ≥ n, k.Own t n') :
    (FlowCtx.store address value k).Own t n := by
  refine own_constant fun i hi => own_constant fun j hj => ⟨fun d hd => ?_, fun l hl => ⟨?_, ?_⟩⟩
  · have hd' : d = .cell t i ∨ d = .cell t j := by
      simp only [ThunkArgs.operands, DataFlow.store, List.mem_append, List.mem_cons,
        List.not_mem_nil, or_false, Option.toList_some, List.map_cons, List.map_nil] at hd
      tauto
    rcases hd' with rfl | rfl <;> exact own_cell (by omega)
  · exact own_cell (by omega)
  · exact fun _ => h _ (by omega)

theorem own_cmpxchgU64 {address expected replacement : ℕ} {success failure : Ordering}
    {k : ℕ × Bool → Task} (h : ∀ r, ∀ n' ≥ n, (k r).Own t n') :
    (FlowCtx.cmpxchgU64 address expected replacement success failure k).Own t n := by
  refine own_constant fun a ha => own_constant fun e he => own_constant fun r hr =>
    ⟨fun d hd => ?_, fun i hi => ⟨?_, fun v => ?_⟩⟩
  · have hd' : d = .cell t a ∨ d = .cell t e ∨ d = .cell t r := by
      simp only [ThunkArgs.operands, FlowCtx.cmpxchg, List.mem_append, List.mem_cons,
        List.not_mem_nil, or_false, Option.toList_some, List.map_cons, List.map_nil] at hd
      tauto
    rcases hd' with rfl | rfl | rfl <;> exact own_cell (by omega)
  · exact own_cell (by omega)
  · dsimp only
    split
    · exact h _ _ (by omega)
    · trivial

theorem own_mutexLockAcquire {m : ℕ} {k : Task} (h : ∀ n' ≥ n, k.Own t n') :
    (mutexLockAcquire m k).Own t n := by
  refine own_cmpxchgU64 fun r n' hn' => ?_
  split_ifs
  · exact h n' hn'
  · trivial

theorem own_mutexLockRelease {m : ℕ} {k : Task} (h : ∀ n' ≥ n, k.Own t n') :
    (mutexLockRelease m k).Own t n := by
  refine own_cmpxchgU64 fun r n' hn' => ?_
  split_ifs
  · exact h n' hn'
  · trivial

theorem own_pthreadJoin (u : ThreadId) (retval : ℕ) : (pthreadJoin u retval).Own t n := by
  intro v
  dsimp only
  split_ifs
  · exact own_store fun _ _ => own_nativeReturn 0
  · exact own_nativeReturn 0

theorem own_task {c : Call} (h : ∀ d ∈ c.operands, d.Own t n) : c.task.Own t n := by
  cases c with
  | mutexTrylock m =>
    intro b
    cases b with
    | true => exact own_mutexLockAcquire fun _ _ => own_nativeReturn 0
    | false => exact own_nativeReturn 1
  | mutexLock m => exact own_mutexLockAcquire fun _ _ => own_nativeReturn 0
  | mutexUnlock m => exact own_mutexLockRelease fun _ _ => own_nativeReturn 0
  | mutexInit m => exact own_store fun _ _ => own_nativeReturn 0
  | condWait c m =>
    exact own_mutexLockRelease fun _ _ => own_mutexLockAcquire fun _ _ => own_nativeReturn 0
  | condBroadcast c | condSignal c => exact own_nativeReturn 0
  | create thread arg => exact fun u => own_store fun _ _ => own_nativeReturn 0
  | join callee args =>
    exact nativeCall_induction trivial trivial (fun _ => own_pthreadJoin _ _)
      fun d hd _ hk => ⟨h d hd, hk⟩
  | decode a => exact ⟨h, fun _ _ => trivial⟩
  | await d | exit d => exact ⟨h d (by simp [Call.operands]), fun _ => trivial⟩
  | threadLocal layout value => exact fun _ => trivial

theorem own_start (params : List Value) : (Task.start params).Own t n := by
  induction params generalizing n with
  | nil => trivial
  | cons v params ih => exact own_constant fun _ _ => ih

end Own

namespace Machine

/-- A task that has not ended belongs to a thread in the table and reaches only its own
thunks, and only a task that awaits a receiver waits for a mutex. -/
structure WF (s : Machine) : Prop where
  good : s.config.Good (fun _ _ => True) fun _ => True
  own : ∀ t, (s.control t).Own t (s.process.flows t).seq
  deps : s.process.DepsEarlier
  joined : ∀ t, (s.process.flows t).joined = (s.sent t).isSome
  ended : ∀ t, s.sent t ≠ none → s.control t = .done
  live : ∀ t < s.process.nextThreadid, s.sent t = none → t ∈ s.process.threads
  fresh : ∀ t, s.process.nextThreadid ≤ t → s.control t = .done ∧ s.call t = none
  waiting : ∀ t, s.sync.waiting t ≠ none → ∃ k, s.control t = .receive k
  queued : Sync.Queued none s.sync
  owned : Sync.Owned s.sync

theorem wf_new (memory : Memory) : (new memory).WF where
  good := Config.good_new trivial
  own _ := trivial
  deps := nofun
  joined _ := rfl
  ended _ h := absurd rfl h
  live := nofun
  fresh _ _ := ⟨rfl, rfl⟩
  waiting _ h := absurd rfl h
  queued := Sync.queued_new
  owned := Sync.exclusive_new.owned

namespace WF

variable {s : Machine} {p : Process} {t : ThreadId}

theorem process (h : s.WF) : s.process.WF := h.good.wf

theorem wake (h : s.WF) : s.wake.WF :=
  ⟨h.good, h.own, h.deps, h.joined, h.ended, h.live, h.fresh, h.waiting, h.queued, h.owned⟩

theorem suspend (h : s.WF) (t : ThreadId) (w : Option Waker) : (s.suspend t w).WF :=
  ⟨h.good, h.own, h.deps, h.joined, h.ended, h.live, h.fresh, h.waiting, h.queued, h.owned⟩

theorem fail (h : s.WF) (f : Failure) : (s.fail f).WF :=
  ⟨h.good, h.own, h.deps, h.joined, h.ended, h.live, h.fresh, h.waiting, h.queued, h.owned⟩

theorem lt_of_control (h : s.WF) (hk : s.control t ≠ .done) :
    t < s.process.nextThreadid ∧ s.sent t = none :=
  ⟨Nat.lt_of_not_le fun hle => hk (h.fresh t hle).1,
    not_not.mp fun hs => hk (h.ended t hs)⟩

theorem mem_threads (h : s.WF) (hk : s.control t ≠ .done) : t ∈ s.process.threads :=
  h.live t (h.lt_of_control hk).1 (h.lt_of_control hk).2

theorem waiting_eq_none (h : s.WF) (hk : ∀ k, s.control t ≠ .receive k) :
    s.sync.waiting t = none :=
  not_not.mp fun hw => (h.waiting t hw).elim hk

theorem move (h : s.WF) (hk : s.control t ≠ .done) {sync : Sync} {k : Task}
    (hown : k.Own t (s.process.flows t).seq)
    (hself : sync.waiting t ≠ none → ∃ k', k = .receive k')
    (hother : ∀ u ≠ t, Sync.Woken s.sync sync u)
    (hq : Sync.Queued none sync) (ho : Sync.Owned sync) : ((s.setSync sync).goto t k).WF := by
  obtain ⟨hlt, hsent⟩ := h.lt_of_control hk
  have hcontrol : ∀ u ≠ t, ((s.setSync sync).goto t k).control u = s.control u :=
    fun u hu => Function.update_of_ne hu _ _
  have hcontrol' : ((s.setSync sync).goto t k).control t = k := Function.update_self _ _ _
  refine ⟨h.good, fun u => ?_, h.deps, h.joined, fun u hu => ?_, h.live, fun u hu => ?_,
    fun u hu => ?_, hq, ho⟩ <;> by_cases hut : u = t
  · subst hut
    rw [hcontrol']
    exact hown
  · rw [hcontrol u hut]
    exact h.own u
  · subst hut
    exact absurd hsent hu
  · rw [hcontrol u hut]
    exact h.ended u hu
  · subst hut
    exact absurd hlt (Nat.not_lt.mpr hu)
  · rw [hcontrol u hut]
    exact h.fresh u hu
  · subst hut
    rw [hcontrol']
    exact hself hu
  · rw [hcontrol u hut]
    refine h.waiting u fun hn => hu ?_
    exact ((hother u hut).waiting_eq_none hn).1

theorem goto (h : s.WF) (hk : s.control t ≠ .done) {k : Task}
    (hown : k.Own t (s.process.flows t).seq) (hw : s.sync.waiting t = none) : (s.goto t k).WF :=
  have hown' : Sync.Owned s.sync := h.owned
  h.move hk hown (fun hn => absurd hw hn) (fun _ _ => .of_eq rfl rfl) h.queued hown'

theorem store (h : s.WF) (hc : s.config = .decoding p) (m : Memory) :
    (s.setProcess { p with memory := m, log := p.log ++ [.store p.memory m] }).WF := by
  have hp := process_eq hc
  subst hp
  exact ⟨⟨(Process.Decoded.store m).wf h.process, trivial, nofun⟩, h.own, h.deps, h.joined,
    h.ended, h.live, h.fresh, h.waiting, h.queued, h.owned⟩

theorem decode (h : s.WF) (hc : s.config = .decoding p) {a : ThunkArgs} {k : Thunk → Task}
    (hk : s.control t = .thunk a k) (ht : t ∈ p.threads) :
    ((s.decoded (p.modify t fun f => f.push (a.thunk t (p.flows t).seq)) t).goto t
      (k (.cell t (p.flows t).seq))).WF := by
  have hp := process_eq hc
  subst hp
  let c := a.thunk t (s.process.flows t).seq
  let s' := (s.decoded (s.process.modify t fun f => f.push c) t).goto t
    (k (.cell t (s.process.flows t).seq))
  obtain ⟨hops, hrest⟩ : (Task.thunk a k).Own t (s.process.flows t).seq := hk ▸ h.own t
  have hne : s.control t ≠ .done := by rw [hk]; nofun
  obtain ⟨hlt, hsent⟩ := h.lt_of_control hne
  have hself : s'.process.flows t = (s.process.flows t).push c :=
    Process.flows_modify_self s.process t fun f => f.push c
  have hother : ∀ u ≠ t, s'.process.flows u = s.process.flows u :=
    fun u hu => Process.flows_modify_of_ne s.process hu fun f => f.push c
  have hcontrol : ∀ u ≠ t, s'.control u = s.control u := fun u hu => Function.update_of_ne hu _ _
  have hc' : c.threadid ∈ s.process.threads := ht
  refine ⟨⟨Process.wf_push h.process hc' rfl, trivial, nofun⟩, fun u => ?_, ?_,
    fun u => ?_, fun u hu => ?_, h.live, fun u hu => ?_, fun u hu => ?_, h.queued, h.owned⟩
  · by_cases hut : u = t
    · subst hut
      show Task.Own u (s'.process.flows u).seq (s'.control u)
      have hkk : s'.control u = k (.cell u (s.process.flows u).seq) := Function.update_self _ _ _
      have hseq : (s'.process.flows u).seq = (s.process.flows u).seq + 1 := by
        rw [hself, DataFlow.seq, DataFlow.push, List.length_append]
        rfl
      rw [hkk, hseq]
      exact hrest _ le_rfl
    · show Task.Own u (s'.process.flows u).seq (s'.control u)
      rw [hcontrol u hut, hother u hut]
      exact h.own u
  · intro u hu b hb d hd
    have hb : b ∈ (s'.process.flows u).decoded := hb
    by_cases hut : u = t
    · subst hut
      rw [hself] at hb
      rcases List.mem_append.mp hb with hb | hb
      · exact h.deps u hlt b hb d hd
      · rw [List.mem_singleton.mp hb] at hd ⊢
        exact hops d hd
    · rw [hother u hut] at hb
      exact h.deps u hu b hb d hd
  · have hj : (s'.process.flows u).joined = (s.process.flows u).joined :=
      Process.proj_modify s.process t u DataFlow.joined (fun f => f.push c) fun _ => rfl
    exact hj.trans (h.joined u)
  · have hut : u ≠ t := fun hut => hu (hut ▸ hsent)
    exact (hcontrol u hut).trans (h.ended u hu)
  · have hut : u ≠ t := fun hut => absurd hlt (Nat.not_lt.mpr (hut ▸ hu))
    exact ⟨(hcontrol u hut).trans (h.fresh u hu).1, (h.fresh u hu).2⟩
  · have hut : u ≠ t := fun hut => hu (h.waiting_eq_none fun k' hk' => by
      rw [hut, hk] at hk'
      cases hk')
    exact (h.waiting u hu).imp fun k' hk' => (hcontrol u hut).trans hk'

theorem spawn (h : s.WF) (hc : s.config = .decoding p) (params : List Value) :
    (s.spawn p params).WF := by
  have hp := process_eq hc
  subst hp
  have hflows : (s.spawn s.process params).process.flows = s.process.flows :=
    Process.flows_addThread h.process
  have hnext : (s.spawn s.process params).process.nextThreadid = s.process.nextThreadid + 1 := rfl
  have hcontrol : ∀ u ≠ s.process.nextThreadid,
      (s.spawn s.process params).control u = s.control u := fun u hu => Function.update_of_ne hu _ _
  have hnone : s.sent s.process.nextThreadid = none := by
    have hj := h.joined s.process.nextThreadid
    rw [h.process.fresh le_rfl] at hj
    exact Option.not_isSome_iff_eq_none.mp fun hs => by rw [hs] at hj; cases hj
  refine ⟨⟨Process.wf_addThread h.process, trivial, nofun⟩, fun u => ?_, fun u hu b hb => ?_,
    fun u => ?_, fun u hu => ?_, fun u hu hs => ?_, fun u hu => ?_, fun u hu => ?_, h.queued,
    h.owned⟩
  · rw [hflows]
    by_cases hun : u = s.process.nextThreadid
    · subst hun
      rw [show (s.spawn s.process params).control s.process.nextThreadid = .start params from
        Function.update_self _ _ _]
      exact own_start params
    · rw [hcontrol u hun]
      exact h.own u
  · rw [hflows] at hb
    exact fun d hd => h.deps.before h.process hb hd
  · rw [hflows]
    exact h.joined u
  · have hun : u ≠ s.process.nextThreadid := fun hun => hu (hun ▸ hnone)
    rw [hcontrol u hun]
    exact h.ended u hu
  · rw [hnext] at hu
    rcases Nat.lt_succ_iff_lt_or_eq.mp hu with hu | rfl
    · exact List.mem_append_left _ (h.live u hu hs)
    · exact List.mem_append_right _ (List.mem_singleton_self _)
  · rw [hnext] at hu
    rw [hcontrol u (by omega)]
    exact h.fresh u (by omega)
  · have hun : u ≠ s.process.nextThreadid := fun hun => by
      obtain ⟨k, hk⟩ := h.waiting u hu
      rw [hun, (h.fresh _ le_rfl).1] at hk
      cases hk
    exact (h.waiting u hu).imp fun k hk => (hcontrol u hun).trans hk

theorem finish (h : s.WF) (hc : s.config = .decoding p) {value : ℕ}
    (hk : s.control t = .send value) (ht : t ∈ p.threads) :
    (s.finish (p.modify t fun f => { f with joined := true }) t value).WF := by
  have hp := process_eq hc
  subst hp
  let s' := s.finish (s.process.modify t fun f => { f with joined := true }) t value
  have hdec : ∀ u, (s'.process.flows u).decoded = (s.process.flows u).decoded := fun u =>
    Process.proj_modify s.process t u DataFlow.decoded (fun f => { f with joined := true })
      fun _ => rfl
  have hcontrol : ∀ u ≠ t, s'.control u = s.control u := fun u hu => Function.update_of_ne hu _ _
  have hself : s'.control t = .done := Function.update_self _ _ _
  have hsent : ∀ u ≠ t, s'.sent u = s.sent u := fun u hu => Function.update_of_ne hu _ _
  refine ⟨⟨Process.wf_join h.process ht, trivial, nofun⟩, fun u => ?_, fun u hu b hb => ?_,
    fun u => ?_, fun u hu => ?_, fun u hu hs => ?_, fun u hu => ?_, fun u hu => ?_, h.queued,
    h.owned⟩
  · show Task.Own u (s'.process.flows u).seq (s'.control u)
    rw [DataFlow.seq, hdec]
    by_cases hut : u = t
    · subst hut
      rw [hself]
      trivial
    · rw [hcontrol u hut]
      exact h.own u
  · have hb : b ∈ (s'.process.flows u).decoded := hb
    rw [hdec] at hb
    exact h.deps u hu b hb
  · show (s'.process.flows u).joined = (s'.sent u).isSome
    by_cases hut : u = t
    · subst hut
      have hflow : s'.process.flows u = { s.process.flows u with joined := true } :=
        Process.flows_modify_self s.process u fun f => { f with joined := true }
      rw [hflow, show s'.sent u = some value from Function.update_self _ _ _]
      rfl
    · have hflow : s'.process.flows u = s.process.flows u :=
        Process.flows_modify_of_ne s.process hut fun f => { f with joined := true }
      rw [hflow, hsent u hut]
      exact h.joined u
  · by_cases hut : u = t
    · rw [hut]
      exact hself
    · rw [show (s.finish _ t value).sent u = s.sent u from hsent u hut] at hu
      exact (hcontrol u hut).trans (h.ended u hu)
  · have hut : u ≠ t := fun hut => by
      have hsome : s'.sent u = some value := hut ▸ Function.update_self _ _ _
      rw [show (s.finish _ t value).sent u = s'.sent u from rfl, hsome] at hs
      cases hs
    exact h.live u hu ((hsent u hut).symm.trans hs)
  · have hut : u ≠ t := fun hut => absurd (h.process.started ht) (Nat.not_lt.mpr (hut ▸ hu))
    exact ⟨(hcontrol u hut).trans (h.fresh u hu).1, (h.fresh u hu).2⟩
  · have hut : u ≠ t := fun hut => hu (h.waiting_eq_none fun k' hk' => by
      rw [hut, hk] at hk'
      cases hk')
    exact (h.waiting u hu).imp fun k' hk' => (hcontrol u hut).trans hk'

theorem enter (h : s.WF) {c : Call} (hk : s.control t = .ret)
    (hc : ∀ d ∈ c.operands, d.Own t (s.process.flows t).seq) : WF { s with
      control := Function.update s.control t c.task
      call := Function.update s.call t (some c) } := by
  have hw : s.sync.waiting t = none := h.waiting_eq_none fun k => by rw [hk]; nofun
  have hne : s.control t ≠ .done := by rw [hk]; nofun
  have hlt := (h.lt_of_control hne).1
  have hgo := h.goto hne (own_task hc) hw
  refine ⟨hgo.good, hgo.own, hgo.deps, hgo.joined, hgo.ended, hgo.live, fun u hu => ?_,
    hgo.waiting, hgo.queued, hgo.owned⟩
  have hut : u ≠ t := fun hut => absurd hlt (Nat.not_lt.mpr (hut ▸ hu))
  exact ⟨(hgo.fresh u hu).1, (Function.update_of_ne hut _ _).trans (h.fresh u hu).2⟩

theorem processAct (h : s.WF) {a : Action} {config : Config} (ha : s.config.act a = some config)
    (hd : ∀ d, a ≠ .decode d) : WF { s with config } := by
  have hpass : s.process.Passed config.process := passed_of_act ha hd
  have hgood := invariant_true.act h.good ha fun _ _ => trivial
  refine ⟨hgood, fun t => ?_, fun t ht c hc => ?_, fun t => (hpass.joined t).trans (h.joined t),
    h.ended, fun t ht hs => ?_, fun t ht => h.fresh t (hpass.nextThreadid ▸ ht), h.waiting,
    h.queued, h.owned⟩
  · show (s.control t).Own t (config.process.flows t).seq
    rw [DataFlow.seq, hpass.decoded]
    exact h.own t
  · exact h.deps t (hpass.nextThreadid ▸ ht) c (hpass.decoded t ▸ hc)
  · refine hpass.live t (h.live t (hpass.nextThreadid ▸ ht) hs) ?_
    rw [h.joined, hs]
    rfl

theorem steps_of_polled (h : s.WF) {s' : Machine} (hs : Polled s p t (s.control t) s') :
    Sync.Steps False s.sync s'.sync := by
  generalize hk : s.control t = k at hs
  have hidle : (∀ k', k ≠ .receive k') → s.sync.waiting t = none :=
    fun hne => h.waiting_eq_none fun k' => hk ▸ hne k'
  cases hs with
  | lock => exact Sync.steps_lock (hidle nofun) _
  | tryLock => exact Sync.steps_tryLock (hidle nofun) _
  | unlock hu => exact .single (Sync.step_unlock (hidle nofun) nofun hu).1
  | wait hu => exact Sync.steps_wait (hidle nofun) nofun hu
  | notify => exact (Sync.steps_notify nofun).1
  | notifyAll => exact Sync.steps_notifyAll nofun
  | fail _ | suspend _ | full _ | decode _ | store | await _ | receive _ | thread _ | join _
  | spawn | finish _ => exact .refl

theorem steps_of_performed (h : s.WF) {s' : Machine} {a : MachineAction}
    (hs : Performed s a s') : Sync.Steps False s.sync s'.sync := by
  cases hs with
  | poll _ _ hs => exact h.steps_of_polled hs
  | main _ _ | enter _ _ _ _ | pass _ | choose _ => exact .refl

theorem polled (h : s.WF) (hc : s.config = .decoding p) {s' : Machine}
    (hs : Polled s p t (s.control t) s') : s'.WF := by
  have hp := process_eq hc
  obtain ⟨hq, ho⟩ := (h.steps_of_polled hs).owned h.queued h.owned
  generalize hk : s.control t = k at hs
  have hown : k.Own t (p.flows t).seq := hk ▸ hp ▸ h.own t
  have hidle : (∀ k', k ≠ .receive k') → s.sync.waiting t = none :=
    fun hne => h.waiting_eq_none fun k' => hk ▸ hne k'
  cases hs with
  | fail _ => exact h.fail _
  | suspend _ => exact h.suspend t _
  | full _ => exact h.suspend t none
  | decode ht => exact h.decode hc hk ht
  | @store _ _ _ m _ =>
    exact (h.store hc m).goto (by rw [show (s.setProcess _).control t = _ from hk]; nofun)
      (hown _) (hidle nofun)
  | await _ => exact h.goto (by rw [hk]; nofun) (hp ▸ hown.2 _) (hidle nofun)
  | receive hw => exact h.goto (by rw [hk]; nofun) (hp ▸ hown) hw
  | thread _ => exact h.goto (by rw [hk]; nofun) (hp ▸ hown) (hidle nofun)
  | join _ => exact h.goto (by rw [hk]; nofun) (hp ▸ hown _) (hidle nofun)
  | lock =>
    exact h.move (by rw [hk]; nofun) (hp ▸ hown) (fun _ => ⟨_, rfl⟩)
      (fun u hu => Sync.woken_lock_of_ne hu) hq ho
  | tryLock =>
    refine h.move (by rw [hk]; nofun) (hp ▸ hown _) (fun hw => absurd ?_ hw)
      (fun u hu => Sync.woken_tryLock_of_ne hu) hq ho
    rw [Sync.waiting_tryLock]
    exact hidle nofun
  | unlock hu =>
    exact h.move (by rw [hk]; nofun) (hp ▸ hown)
      (fun hw => absurd ((Sync.woken_unlock (u := t) hu).2 (hidle nofun)).1 hw)
      (fun u hut => (Sync.woken_unlock hu).1 hut) hq ho
  | wait hu =>
    exact h.move (by rw [hk]; nofun) (hp ▸ hown) (fun _ => ⟨_, rfl⟩)
      (fun u hut => Sync.woken_wait_of_ne hu hut) hq ho
  | @notify c _ =>
    exact h.move (by rw [hk]; nofun) (hp ▸ hown)
      (fun hw => absurd ((Sync.woken_notify s.sync c t).waiting_eq_none (hidle nofun)).1 hw)
      (fun u _ => Sync.woken_notify s.sync c u) hq ho
  | @notifyAll c _ =>
    exact h.move (by rw [hk]; nofun) (hp ▸ hown)
      (fun hw => absurd ((Sync.woken_notifyAll s.sync c t).waiting_eq_none (hidle nofun)).1 hw)
      (fun u _ => Sync.woken_notifyAll s.sync c u) hq ho
  | @spawn params k =>
    have hlt := (h.lt_of_control (t := t) (by rw [hk]; nofun)).1
    have hself : (s.spawn p params).control t = .addThread params k :=
      (Function.update_of_ne (Nat.ne_of_lt (hp ▸ hlt)) _ _).trans hk
    have hflows : (s.spawn p params).process.flows = p.flows :=
      Process.flows_addThread (hp ▸ h.process)
    refine (h.spawn hc params).goto (by rw [hself]; nofun) ?_ (hidle nofun)
    rw [hflows]
    exact hown _
  | finish ht => exact h.finish hc hk ht

theorem performed (h : s.WF) {s' : Machine} {a : MachineAction} (hs : Performed s a s') :
    s'.WF := by
  cases hs with
  | main hc _ => exact h.spawn hc _
  | enter hc _ hk hops => exact h.enter hk (process_eq hc ▸ hops)
  | poll hc _ hs => exact h.polled hc hs
  | pass ha | choose ha => exact h.processAct ha nofun

theorem act (h : s.WF) {s' : Machine} {a : MachineAction} (ha : s.act a = some s') : s'.WF := by
  obtain ⟨-, s₁, hs₁, rfl⟩ := act_eq_some ha
  exact (h.performed (performed_of_perform hs₁)).wake

end WF

theorem run_invariant {P : Machine → Prop}
    (hact : ∀ {s s' a}, P s → s.act a = some s' → P s') {s s' : Machine}
    {l : List MachineAction} (hr : s.run l = some s') (h : P s) : P s' := by
  induction l generalizing s with
  | nil =>
    cases hr
    exact h
  | cons a l ih =>
    obtain ⟨s₁, hs₁, hr⟩ := Option.bind_eq_some_iff.mp hr
    exact ih hr (hact h hs₁)

theorem Reachable.run {memory : Memory} {s s' : Machine} {as : List MachineAction}
    (h : Reachable (fun _ _ => True) memory s) (hr : s.run as = some s') :
    Reachable (fun _ _ => True) memory s' :=
  run_invariant (fun h ha => h.act trivial ha) hr h

theorem runWhile_invariant {D : Machine → MachineAction → Prop} [∀ s a, Decidable (D s a)]
    {P : Machine → Prop} (hact : ∀ {s s' a}, D s a → P s → s.act a = some s' → P s')
    {s s' : Machine} {l : List MachineAction} (hr : s.runWhile D l = some s') (h : P s) : P s' := by
  induction l generalizing s with
  | nil =>
    cases hr
    exact h
  | cons a l ih =>
    rw [Machine.runWhile] at hr
    split_ifs at hr with hD
    obtain ⟨s₁, hs₁, hr⟩ := Option.bind_eq_some_iff.mp hr
    exact ih hr (hact hD h hs₁)

theorem Reachable.runWhile {D : Machine → MachineAction → Prop} [∀ s a, Decidable (D s a)]
    {memory : Memory} {s s' : Machine} {as : List MachineAction} (h : Reachable D memory s)
    (hr : s.runWhile D as = some s') : Reachable D memory s' :=
  runWhile_invariant (fun hD h ha => h.act hD ha) hr h

theorem Reachable.weaken {D E : Machine → MachineAction → Prop} {memory : Memory} {s : Machine}
    (hE : ∀ s a, D s a → E s a) (h : Reachable D memory s) : Reachable E memory s := by
  induction h with
  | new => exact .new
  | act _ hD ha ih => exact ih.act (hE _ _ hD) ha

theorem Reachable.wf {D : Machine → MachineAction → Prop} {memory : Memory} {s : Machine}
    (h : Reachable D memory s) : s.WF :=
  h.invariant (wf_new memory) (fun _ hs => hs.wake)
    fun _ _ _ _ _ hs hp => hs.performed (performed_of_perform hp)

/-- Nothing in a process is undone, and what happens is added to the trace. -/
structure Grows (p q : Process) : Prop extends p.Extends q where
  log : p.log <+: q.log

theorem invariant_grows (p : Process) : Invariant (fun _ _ => True) (Grows p) where
  same {q r} hs h := by
    have hext : q.Extends r :=
      ⟨fun t => by rw [hs.decoded], fun hv => by rw [hs.value]; exact hv⟩
    exact ⟨h.toExtends.trans hext, hs.log ▸ h.log⟩
  push hp ht hseq h := ⟨h.toExtends.trans ((Process.Decoded.push ht hseq).extends hp), h.log⟩
  store _ h := ⟨⟨h.decoded, h.value⟩, h.log.trans (List.prefix_append _ _)⟩
  resolve {q q' c} _ h _ _ hs := by
    refine ⟨h.toExtends.trans hs.extends, ?_⟩
    cases hs with
    | resolved _ _ _ _ => exact h.log.trans (List.prefix_append _ _)

def actor : MachineAction → Option ThreadId
  | .call t _ | .poll t => some t
  | .addMain | .pass | .choose _ => none

/-- What an action does to the tasks of the other threads, and to what all can see. -/
structure Frame (s : Machine) (a : MachineAction) (s' : Machine) : Prop where
  control : ∀ u < s.process.nextThreadid, actor a ≠ some u → s'.control u = s.control u
  call : ∀ u, actor a ≠ some u → s'.call u = s.call u
  backtrace : ∀ u, actor a ≠ some u → s'.backtrace u = s.backtrace u
  woken : ∀ u, actor a ≠ some u → Sync.Woken s.sync s'.sync u
  sent : ∀ {u v}, s.sent u = some v → s'.sent u = some v
  grows : Grows s.process s'.process

/-- What an action does to the process: nothing, a step of decoding, a pass or a choice. -/
inductive Configured (c : Config) : Config → Prop
  | same : Configured c c
  | decoded {p p' : Process} : c = .decoding p → p.Decoded p' → Configured c (.decoding p')
  | act {b : Action} {c' : Config} : c.act b = some c' → Configured c c'

theorem Polled.decoded {s s' : Machine} {p : Process} {t : ThreadId} {k : Task}
    (h : Polled s p t k s') :
    s'.config = s.config ∨ ∃ p', p.Decoded p' ∧ s'.config = .decoding p' := by
  cases h with
  | decode ht => exact .inr ⟨_, Process.decoded_push ht _, rfl⟩
  | store => exact .inr ⟨_, .store _, rfl⟩
  | spawn => exact .inr ⟨_, .addThread, rfl⟩
  | finish ht => exact .inr ⟨_, .join ht, rfl⟩
  | fail _ | suspend _ | full _ | await _ | receive _ | thread _ | join _ | lock | tryLock
  | unlock _ | wait _ | notify | notifyAll => exact .inl rfl

theorem Polled.process_decoded {s s' : Machine} {t : ThreadId} {k : Task}
    (h : Polled s s.process t k s') : s'.process = s.process ∨ s.process.Decoded s'.process := by
  rcases h.decoded with hd | ⟨p', hd, hp'⟩
  · exact .inl (congrArg Config.process hd)
  · exact .inr (process_eq hp' ▸ hd)

theorem WF.value_of_decoded {s s' : Machine} (h : s.WF)
    (hd : s'.process = s.process ∨ s.process.Decoded s'.process) :
    s'.process.value = s.process.value := by
  rcases hd with hd | hd
  · rw [hd]
  · exact hd.value h.process

theorem Polled.configured {s s' : Machine} {p : Process} {t : ThreadId} {k : Task}
    (h : Polled s p t k s') (hc : s.config = .decoding p) : Configured s.config s'.config := by
  rcases h.decoded with h | ⟨p', hd, h⟩
  · rw [h]
    exact .same
  · rw [h]
    exact .decoded hc hd

theorem Performed.configured {s s' : Machine} {a : MachineAction} (h : Performed s a s') :
    Configured s.config s'.config := by
  cases h with
  | main hc _ => exact .decoded hc .addThread
  | enter _ _ _ _ => exact .same
  | poll hc _ hs => exact hs.configured hc
  | pass ha | choose ha => exact .act ha

theorem Configured.good {Inv : Process → Prop} (hi : Invariant (fun _ _ => True) Inv)
    {c c' : Config} (h : Configured c c') (hc : c.Good (fun _ _ => True) Inv) :
    c'.Good (fun _ _ => True) Inv := by
  cases h with
  | same => exact hc
  | decoded hp hd =>
    subst hp
    exact ⟨hd.wf hc.wf, hi.decoded hc.wf hc.inv hd, nofun⟩
  | act ha => exact hi.act hc ha fun _ _ => trivial

theorem Reachable.good {D : Machine → MachineAction → Prop} {memory : Memory} {s : Machine}
    {Inv : Process → Prop} (hi : Invariant (fun _ _ => True) Inv) (hnew : Inv (.new memory))
    (h : Reachable D memory s) : s.config.Good (fun _ _ => True) Inv :=
  Reachable.invariant h (Config.good_new hnew) (fun _ => id)
    fun _ _ _ _ _ hs hp => (performed_of_perform hp).configured.good hi hs

theorem Configured.grows {c c' : Config} (h : Configured c c')
    (hc : c.Good (fun _ _ => True) fun _ => True) : Grows c.process c'.process :=
  (h.good (invariant_grows c.process) ⟨hc.wf, ⟨.refl c.process, List.prefix_rfl⟩, hc.offered⟩).inv

theorem Performed.grows {s s' : Machine} {a : MachineAction} (h : Performed s a s')
    (hs : s.config.Good (fun _ _ => True) fun _ => True) : Grows s.process s'.process :=
  h.configured.grows hs

theorem WF.extends_of_polled {s s' : Machine} {p : Process} {t : ThreadId} {k : Task} (h : s.WF)
    (hc : s.config = .decoding p) (hs : Polled s p t k s') : s.process.Extends s'.process :=
  ((hs.configured hc).grows h.good).toExtends

theorem Polled.frame {s s' : Machine} {p : Process} {t : ThreadId} {k : Task}
    (h : Polled s p t k s') (hc : s.config = .decoding p) :
    (∀ u < s.process.nextThreadid, u ≠ t → s'.control u = s.control u) ∧ s'.call = s.call ∧
    (∀ u ≠ t, s'.backtrace u = s.backtrace u) ∧ ∀ u ≠ t, Sync.Woken s.sync s'.sync u := by
  have hgoto : ∀ {s' : Machine} {k : Task}, s'.control = s.control →
      ∀ u < s.process.nextThreadid, u ≠ t → (s'.goto t k).control u = s.control u :=
    fun hk u _ hu => (Function.update_of_ne hu _ _).trans (congrFun hk u)
  have hsame : ∀ u ≠ t, Sync.Woken s.sync s.sync u := fun u _ => .of_eq rfl rfl
  cases h with
  | fail _ | suspend _ | full _ => exact ⟨fun _ _ _ => rfl, rfl, fun _ _ => rfl, hsame⟩
  | decode _ => exact ⟨hgoto rfl, rfl, fun u hu => Function.update_of_ne hu _ _, hsame⟩
  | store | await _ | receive _ | thread _ | join _ =>
    exact ⟨hgoto rfl, rfl, fun _ _ => rfl, hsame⟩
  | lock => exact ⟨hgoto rfl, rfl, fun _ _ => rfl, fun u hu => Sync.woken_lock_of_ne hu⟩
  | tryLock => exact ⟨hgoto rfl, rfl, fun _ _ => rfl, fun u hu => Sync.woken_tryLock_of_ne hu⟩
  | unlock hu => exact ⟨hgoto rfl, rfl, fun _ _ => rfl, fun u => (Sync.woken_unlock hu).1⟩
  | wait hu => exact ⟨hgoto rfl, rfl, fun _ _ => rfl, fun u => Sync.woken_wait_of_ne hu⟩
  | notify => exact ⟨hgoto rfl, rfl, fun _ _ => rfl, fun u _ => Sync.woken_notify _ _ u⟩
  | notifyAll => exact ⟨hgoto rfl, rfl, fun _ _ => rfl, fun u _ => Sync.woken_notifyAll _ _ u⟩
  | spawn =>
    refine ⟨fun u hlt hu => ?_, rfl, fun _ _ => rfl, hsame⟩
    have hne : u ≠ p.nextThreadid := Nat.ne_of_lt (process_eq hc ▸ hlt)
    exact (Function.update_of_ne hu _ _).trans (Function.update_of_ne hne _ _)
  | finish _ =>
    exact ⟨fun u _ hu => Function.update_of_ne hu _ _, rfl, fun _ _ => rfl, hsame⟩

theorem Performed.ready {s s' : Machine} {a : MachineAction} (h : Performed s a s')
    {u : ThreadId} (hlt : u < s.process.nextThreadid) (hu : actor a ≠ some u) :
    s'.ready u = s.ready u ∧ ∀ w, (w, u) ∈ s.wakers → (w, u) ∈ s'.wakers := by
  have hspawn : ∀ {p : Process} (params : List Value), s.config = .decoding p →
      (s.spawn p params).ready u = s.ready u := fun params hc =>
    Function.update_of_ne (Nat.ne_of_lt (process_eq hc ▸ hlt)) _ _
  cases h with
  | main hc _ => exact ⟨hspawn _ hc, fun _ => id⟩
  | enter _ _ _ _ | pass _ | choose _ => exact ⟨rfl, fun _ => id⟩
  | @poll p t _ hc _ hs =>
    have hut : u ≠ t := fun hut => hu (hut ▸ rfl)
    generalize s.control t = k at hs
    cases hs with
    | suspend _ | full _ =>
      exact ⟨Function.update_of_ne hut _ _, fun _ hw => List.mem_append_left _ hw⟩
    | finish _ => exact ⟨Function.update_of_ne hut _ _, fun _ => id⟩
    | @spawn params _ => exact ⟨hspawn params hc, fun _ => id⟩
    | fail _ | decode _ | store | await _ | receive _ | thread _ | join _ | lock | tryLock
    | unlock _ | wait _ | notify | notifyAll => exact ⟨rfl, fun _ => id⟩

theorem WF.sent_of_performed {s s' : Machine} {a : MachineAction} (h : s.WF)
    (hs : Performed s a s') {u : ThreadId} {v : ℕ} (hv : s.sent u = some v) :
    s'.sent u = some v := by
  cases hs with
  | main _ _ | enter _ _ _ _ | pass _ | choose _ => exact hv
  | @poll p t _ hc _ hs =>
    generalize hk : s.control t = k at hs
    cases hs with
    | finish _ =>
      have hut : u ≠ t := fun hut => by
        rw [← hut, h.ended u (by rw [hv]; nofun)] at hk
        cases hk
      exact (Function.update_of_ne hut _ _).trans hv
    | fail _ | suspend _ | full _ | decode _ | store | await _ | receive _ | thread _ | join _
    | lock | tryLock | unlock _ | wait _ | notify | notifyAll | spawn => exact hv

theorem WF.control_fresh {s s' : Machine} {a : MachineAction} (h : s.WF) (hs : Performed s a s')
    {u : ThreadId} (hu : s.process.nextThreadid ≤ u) :
    s'.control u = .done ∨ ∃ params, s'.control u = .start params := by
  have hdone := (h.fresh u hu).1
  have hne : ∀ {t}, s.control t ≠ .done → u ≠ t := fun ht hut => ht (hut ▸ hdone)
  have hspawn : ∀ (p : Process) params,
      (s.spawn p params).control u = .done ∨
        ∃ params', (s.spawn p params).control u = .start params' := by
    intro p params
    by_cases hun : u = p.nextThreadid
    · exact .inr ⟨params, hun ▸ Function.update_self _ _ _⟩
    · exact .inl ((Function.update_of_ne hun _ _).trans hdone)
  cases hs with
  | main _ _ => exact hspawn _ _
  | enter _ _ hk _ =>
    exact .inl ((Function.update_of_ne (hne (by rw [hk]; nofun)) _ _).trans hdone)
  | @poll p t _ _ _ hs =>
    generalize hk : s.control t = k at hs
    have hgoto : ∀ {r : Machine} {k'}, k ≠ .done → r.control u = s.control u →
        (r.goto t k').control u = .done := fun hk' hr =>
      (Function.update_of_ne (hne (hk ▸ hk')) _ _).trans (hr.trans hdone)
    cases hs with
    | fail _ | suspend _ | full _ => exact .inl hdone
    | decode _ | store | await _ | receive _ | thread _ | join _ | lock | tryLock | unlock _
    | wait _ | notify | notifyAll => exact .inl (hgoto nofun rfl)
    | @spawn params k' =>
      rw [show ((s.spawn p params).goto t _).control u = (s.spawn p params).control u from
        Function.update_of_ne (hne (by rw [hk]; nofun)) _ _]
      exact hspawn p params
    | finish _ =>
      exact .inl ((Function.update_of_ne (hne (by rw [hk]; nofun)) _ _).trans hdone)
  | pass _ | choose _ => exact .inl hdone

theorem WF.frame {s s' : Machine} {a : MachineAction} (h : s.WF) (hs : Performed s a s') :
    Frame s a s' := by
  have hgrows := hs.grows h.good
  have hsent := fun {u v} => h.sent_of_performed hs (u := u) (v := v)
  have hsame : ∀ u, Sync.Woken s.sync s.sync u := fun u => .of_eq rfl rfl
  cases hs with
  | main hc _ =>
    refine ⟨fun u hlt _ => Function.update_of_ne ?_ _ _, fun _ _ => rfl, fun _ _ => rfl,
      fun u _ => hsame u, hsent, hgrows⟩
    exact Nat.ne_of_lt (process_eq hc ▸ hlt)
  | enter _ _ _ _ =>
    have hne : ∀ {t u : ThreadId}, some t ≠ some u → u ≠ t := fun h hu => h (hu ▸ rfl)
    exact ⟨fun u _ hu => Function.update_of_ne (hne hu) _ _,
      fun u hu => Function.update_of_ne (hne hu) _ _, fun _ _ => rfl, fun u _ => hsame u, hsent,
      hgrows⟩
  | poll hc _ hs =>
    have hne : ∀ {t u : ThreadId}, some t ≠ some u → u ≠ t := fun h hu => h (hu ▸ rfl)
    obtain ⟨hcontrol, hcall, hback, hwoken⟩ := hs.frame hc
    exact ⟨fun u hlt hu => hcontrol u hlt (hne hu), fun u _ => congrFun hcall u,
      fun u hu => hback u (hne hu), fun u hu => hwoken u (hne hu), hsent, hgrows⟩
  | pass _ | choose _ =>
    exact ⟨fun _ _ _ => rfl, fun _ _ => rfl, fun _ _ => rfl, fun u _ => hsame u, hsent, hgrows⟩

theorem WF.decoded_of_ne {s s' : Machine} {a : MachineAction} (h : s.WF) (hs : Performed s a s')
    {t : ThreadId} (ht : actor a ≠ some t) :
    (s'.process.flows t).decoded = (s.process.flows t).decoded := by
  have hspawn : ∀ {p : Process} (params : List Value), s.config = .decoding p →
      (s.spawn p params).process.flows = s.process.flows := fun params hc => by
    rw [process_eq hc]
    exact Process.flows_addThread (process_eq hc ▸ h.process)
  cases hs with
  | main hc _ => rw [hspawn _ hc]
  | enter _ _ _ _ => rfl
  | pass ha | choose ha => exact (passed_of_act ha nofun).decoded t
  | @poll p u _ hc _ hs =>
    have htu : t ≠ u := fun htu => ht (htu ▸ rfl)
    have hp := process_eq hc
    subst hp
    generalize s.control u = task at hs
    cases hs with
    | @decode a _ _ =>
      have hf := Process.flows_modify_of_ne s.process htu
        fun f => f.push (a.thunk u (s.process.flows u).seq)
      exact congrArg DataFlow.decoded hf
    | finish _ =>
      have hf := Process.flows_modify_of_ne s.process htu fun f => { f with joined := true }
      exact congrArg DataFlow.decoded hf
    | @spawn params _ => exact congrArg (fun f => (f t).decoded) (hspawn params hc)
    | fail _ | suspend _ | full _ | store | await _ | receive _ | thread _ | join _ | lock
    | tryLock | unlock _ | wait _ | notify | notifyAll => rfl

end Machine

end AtomicSim
