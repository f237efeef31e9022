import AtomicSim.MachineRuns

namespace AtomicSim

/-- The task only decodes and awaits thunks until it waits at `c` with `m`. -/
def Task.UntilWait (c m : ℕ) : Task → Prop
  | .panic _ => True
  | .thunk _ k => ∀ d, (k d).UntilWait c m
  | .await _ k => ∀ v, (k v).UntilWait c m
  | .wait c' m' _ => c' = c ∧ m' = m
  | _ => False

theorem untilWait_pthreadCondWait (c m : ℕ) : (pthreadCondWait c m).UntilWait c m := by
  intro a e r d output
  dsimp only
  split
  · split_ifs
    · exact ⟨rfl, rfl⟩
    · trivial
  · trivial

namespace Machine

/-- In `pthread_cond_wait`, before the mutex is given up. -/
structure BeforeWait (s : Machine) (a : ThreadId) (c m : ℕ) : Prop where
  wf : s.WF
  control : (s.control a).UntilWait c m
  holds : s.sync.holds a m

section BeforeWait

variable {s s' : Machine} {a : ThreadId} {c m : ℕ}

theorem BeforeWait.waiting (h : s.BeforeWait a c m) : s.sync.waiting a = none :=
  h.wf.waiting_eq_none fun k hk => by
    have hu := h.control
    rw [hk] at hu
    exact hu

theorem BeforeWait.polled {p : Process} (h : s.BeforeWait a c m) (hwf : s'.WF)
    (hs : Polled s p a (s.control a) s') :
    s'.BeforeWait a c m ∨ s.sync.wait a c m = some s'.sync := by
  have hu := h.control
  generalize hk : s.control a = k at hs hu
  have hgoto : ∀ {r : Machine} {k : Task}, k.UntilWait c m →
      ((r.goto a k).control a).UntilWait c m := fun hk => by rwa [control_goto]
  cases hs with
  | fail _ | suspend _ | full _ => exact .inl ⟨hwf, hk ▸ hu, h.holds⟩
  | decode _ => exact .inl ⟨hwf, hgoto (hu _), h.holds⟩
  | await _ => exact .inl ⟨hwf, hgoto (hu _), h.holds⟩
  | wait hw =>
    obtain ⟨rfl, rfl⟩ := hu
    exact .inr hw
  | store | receive _ | thread _ | join _ | lock | tryLock | unlock _ | notify | notifyAll
  | spawn | finish _ => exact hu.elim

theorem BeforeWait.performed {b : MachineAction} (h : s.BeforeWait a c m)
    (hs : Performed s b s') :
    s'.BeforeWait a c m ∨ (b = .poll a ∧ s.sync.wait a c m = some s'.sync) := by
  have hwf := h.wf.performed hs
  by_cases ha : actor b = some a
  · cases hs with
    | main _ _ | pass _ | choose _ => cases ha
    | enter _ _ hk _ =>
      cases ha
      have hu := h.control
      rw [hk] at hu
      exact hu.elim
    | poll hc _ hs =>
      cases ha
      exact (h.polled hwf hs).imp_right fun hw => ⟨rfl, hw⟩
  · have hf := h.wf.frame hs
    have hne : s.control a ≠ .done := fun hd => by
      have hu := h.control
      rw [hd] at hu
      exact hu
    refine .inl ⟨hwf, ?_, ?_⟩
    · rw [hf.control a (h.wf.lt_of_control hne).1 ha]
      exact h.control
    · rw [((hf.woken a ha).waiting_eq_none h.waiting).2]
      exact h.holds

theorem BeforeWait.wake (h : s.BeforeWait a c m) : s.wake.BeforeWait a c m :=
  ⟨h.wf.wake, h.control, h.holds⟩

theorem BeforeWait.run {l : List MachineAction} (h : s.BeforeWait a c m)
    (hr : s.run l = some s') (hgave : s'.sync.holds a m = false) :
    ∃ l₁ l₂ r r', l = l₁ ++ .poll a :: l₂ ∧ s.run l₁ = some r ∧ r.act (.poll a) = some r' ∧
      r'.run l₂ = some s' ∧ r.BeforeWait a c m ∧ r.sync.wait a c m = some r'.sync ∧
      ∀ l₀ q, l₀ <+: l₁ → s.run l₀ = some q → q.sync.holds a m := by
  induction l generalizing s with
  | nil =>
    cases hr
    rw [h.holds] at hgave
    cases hgave
  | cons b l ih =>
    obtain ⟨s₁, hact, hrest⟩ := Option.bind_eq_some_iff.mp hr
    obtain ⟨-, s₀, hperf, rfl⟩ := act_eq_some hact
    rcases h.performed (performed_of_perform hperf) with hb | ⟨rfl, hw⟩
    · obtain ⟨l₁, l₂, r, r', rfl, hr₁, hact', hr₂, hbef, hw, hall⟩ := ih hb.wake hrest
      refine ⟨b :: l₁, l₂, r, r', rfl, ?_, hact', hr₂, hbef, hw, fun l₀ q hl hq => ?_⟩
      · rw [Machine.run, hact]
        exact hr₁
      · rcases List.prefix_cons_iff.mp hl with rfl | ⟨l₀, rfl, hl'⟩
        · cases hq
          exact h.holds
        · rw [Machine.run, hact] at hq
          exact hall l₀ q hl' hq
    · refine ⟨[], l, s, s₀.wake, rfl, rfl, hact, hrest, h, hw, fun l₀ q hl hq => ?_⟩
      cases List.prefix_nil.mp hl
      cases hq
      exact h.holds

end BeforeWait

theorem WF.parked {s s' : Machine} {a : ThreadId} {c m : ℕ} {x : Sender}
    {l : List MachineAction} (h : s.WF) (hr : s.run l = some s') (hp : s.sync.Parked a c m x) :
    s'.WF ∧ s'.sync.Parked a c m x := by
  refine run_invariant (P := fun s => s.WF ∧ s.sync.Parked a c m x)
    (fun {s s' b} hs ha => ⟨hs.1.act ha, ?_⟩) hr ⟨h, hp⟩
  obtain ⟨-, s₁, hs₁, rfl⟩ := act_eq_some ha
  exact (hs.1.steps_of_performed (performed_of_perform hs₁)).parked hs.1.queued hs.2

/-- A thread that holds `m` calls `pthread_cond_wait`, and some time later it has given up `m`.
There is one poll of its task that did so, and this poll has put the task into the queue of
the condition variable: whatever other threads do from then on, the task is found there
until a notification takes it. -/
theorem condWait_parked {D : Machine → MachineAction → Prop} {memory : Memory}
    {s₀ s₁ s s₂ : Machine} {a : ThreadId} {c m : ℕ} {l l' : List MachineAction}
    (h₀ : Reachable D memory s₀) (hheld : s₀.sync.holds a m)
    (hcall : s₀.act (.call a (.condWait c m)) = some s₁) (hrun : s₁.run l = some s)
    (hgave : s.sync.holds a m = false) (hlater : s.run l' = some s₂) :
    ∃ l₁ l₂ r r', l = l₁ ++ .poll a :: l₂ ∧ s₁.run l₁ = some r ∧ r.act (.poll a) = some r' ∧
      r'.run l₂ = some s ∧ (∀ l₀ q, l₀ <+: l₁ → s₁.run l₀ = some q → q.sync.holds a m) ∧
      r'.sync.holds a m = false ∧
      ∃ x, r'.sync.waiting a = some (x, m) ∧ x ∈ r'.sync.queue (.condvar c) ∧
        ((s₂.sync.waiting a = some (x, m) ∧ x ∈ s₂.sync.queue (.condvar c)) ∨
          x ∈ s₂.sync.left (.condvar c)) := by
  have hwf := h₀.wf
  obtain ⟨-, s₁, hperf, rfl⟩ := act_eq_some hcall
  have hcalled := performed_of_perform hperf
  have hbefore : s₁.BeforeWait a c m := by
    refine ⟨hwf.performed hcalled, ?_, ?_⟩ <;> cases hcalled
    · show ((Function.update s₀.control a (pthreadCondWait c m)) a).UntilWait c m
      rw [Function.update_self]
      exact untilWait_pthreadCondWait c m
    · exact hheld
  obtain ⟨l₁, l₂, r, r', hl, hr₁, hact, hr₂, hbef, hw, hall⟩ := hbefore.wake.run hrun hgave
  obtain ⟨hholds, hwait, hmem⟩ := Sync.parked_wait hw hbef.waiting
  have hfree : r'.sync.holds a m = false := by rw [hholds, Function.update_self]
  obtain ⟨hwfs, hs⟩ := (hbef.wf.act hact).parked hr₂ (.inl ⟨hwait, hmem⟩)
  exact ⟨l₁, l₂, r, r', hl, hr₁, hact, hr₂, hall, hfree, _, hwait, hmem, (hwfs.parked hlater hs).2⟩

/-- Thread 1 is handed the mutex that thread 0 gives up, and goes on to signal. -/
theorem condWait_parked_signal : ∃ memory s₀ s₁ s s₂,
    Reachable (fun _ _ => True) memory s₀ ∧ s₀.sync.holds 0 4096 ∧
    s₀.act (.call 0 (.condWait 8192 4096)) = some s₁ ∧ (∃ l, s₁.run l = some s) ∧
    s.sync.holds 0 4096 = false ∧ (∃ l, s.run l = some s₂) ∧ s₂.sync.holds 1 4096 ∧
    ∃ x, (s₂.sync.waiting 0 = some (x, 4096) ∧ x ∈ s₂.sync.queue (.condvar 8192)) ∨
      x ∈ s₂.sync.left (.condvar 8192) := by
  let memory := Memory.new.write 4096 (Value.new 64 unlocked).imp
  let polls (t : ThreadId) (n : ℕ) : List MachineAction := List.replicate n (.poll t)
  let before : List MachineAction := List.flatten [.addMain :: polls 0 2,
    .call 0 (.create 64 (Value.new 64 0)) :: polls 0 5, polls 1 1,
    .call 1 (.await (.cell 1 0)) :: polls 1 1, .pass :: polls 0 2,
    .call 0 (.mutexLock 4096) :: polls 0 7, polls 1 1,
    .call 1 (.mutexLock 4096) :: polls 1 2, [.pass, .pass, .choose 0], polls 0 2]
  let l : List MachineAction := polls 0 5 ++ [.pass, .pass, .choose 0] ++ polls 0 2
  let l' : List MachineAction := polls 0 1 ++ polls 1 6 ++ [.pass, .pass, .choose 0] ++
    polls 1 2 ++ [.call 1 (.condSignal 8192)]
  have hrun : ∃ s₀ ∈ (new memory).run before, s₀.sync.holds 0 4096 ∧
      ∃ s₁ ∈ s₀.act (.call 0 (.condWait 8192 4096)), ∃ s ∈ s₁.run l,
        s.sync.holds 0 4096 = false ∧ ∃ s₂ ∈ s.run l', s₂.sync.holds 1 4096 := by
    decide +kernel
  obtain ⟨s₀, h₀, hheld, s₁, hcall, s, hrun, hgave, s₂, hlater, hheld'⟩ := hrun
  have hreach : Reachable (fun _ _ => True) memory s₀ := Reachable.new.run h₀
  obtain ⟨-, -, -, -, -, -, -, -, -, -, x, -, -, hx⟩ :=
    condWait_parked hreach hheld hcall hrun hgave hlater
  exact ⟨memory, s₀, s₁, s, s₂, hreach, hheld, hcall, ⟨l, hrun⟩, hgave, ⟨l', hlater⟩, hheld', x, hx⟩

end Machine
end AtomicSim
