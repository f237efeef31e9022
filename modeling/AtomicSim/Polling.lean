import AtomicSim.MachineRuns

namespace AtomicSim

namespace Machine

theorem poll_isSome {p : Process} {d : Thunk} : (d.poll p).isSome ↔ d.threadid ∈ p.threads := by
  unfold Thunk.poll Process.thread
  split_ifs with h
  · simpa using h
  · simpa using h

theorem WF.own_of_polls {s : Machine} (h : s.WF) {t : ThreadId} {d : Thunk}
    (hd : (s.control t).polls = some d) : d.Own t (s.process.flows t).seq := by
  have hown := h.own t
  unfold Task.polls at hd
  split at hd
  · rename_i hk
    rw [hk] at hown
    exact Option.some.inj hd ▸ hown.1
  · cases hd

/-- A task polls only constants and thunks of its own thread. All of these can be polled by
every task that has not ended, exactly if no such task is left or thread 0 is in the table. -/
theorem poll_isSome_iff {D : Machine → MachineAction → Prop} {memory : Memory} {s : Machine}
    (h : Reachable D memory s) :
    (∀ t d, (s.control t).polls = some d → d.Own t (s.process.flows t).seq) ∧
    ((∀ t < s.process.nextThreadid, s.sent t = none → ∀ d : Thunk,
        d.Own t (s.process.flows t).seq → (d.poll s.process).isSome) ↔
      ((∃ t < s.process.nextThreadid, s.sent t = none) → 0 ∈ s.process.threads)) := by
  have hwf := h.wf
  refine ⟨fun t d => hwf.own_of_polls, fun hall ⟨t, ht, hs⟩ => ?_, fun h0 t ht hs d hd => ?_⟩
  · exact poll_isSome.mp (hall t ht hs (.constant Value.ofUnit) trivial)
  · rw [poll_isSome]
    cases d with
    | constant v => exact h0 ⟨t, ht, hs⟩
    | cell u i => exact hd.1 ▸ hwf.live t ht hs

/-- Thread 1 waits for a load while thread 0 ends and is reaped; then it polls a constant. -/
theorem poll_isSome_fails : ∃ s, Reachable (fun _ _ => True) .new s ∧
    ∃ t ∈ s.process.threads, s.sent t = none ∧
      ∃ d ∈ (s.control t).polls, (d.poll s.process).isSome = false := by
  let acts : List MachineAction := [.addMain, .poll 0, .poll 0,
    .call 0 (.create 64 (Value.new 64 0)), .poll 0, .poll 0, .poll 0, .poll 0, .poll 0,
    .poll 1, .call 1 (.decode (DataFlow.load (ptr 128) i32 .relaxed)), .poll 1,
    .call 1 (.await (.cell 1 1)), .poll 1, .pass, .poll 0, .poll 0,
    .call 0 (.exit (.constant (Value.new 64 0))), .poll 0, .poll 0, .pass, .pass, .choose 0,
    .poll 1, .call 1 (.await (.constant (Value.new 64 0)))]
  have hrun : ∃ s ∈ (new .new).run acts, 1 ∈ s.process.threads ∧ s.sent 1 = none ∧
      ∃ d ∈ (s.control 1).polls, (d.poll s.process).isSome = false := by decide +kernel
  obtain ⟨s, hs, h1, hsent, hd⟩ := hrun
  exact ⟨s, Reachable.new.run hs, 1, h1, hsent, hd⟩

/-- Thread 0 waits for the thread that it has made. -/
theorem poll_isSome_iff_main : ∃ s, Reachable (fun _ _ => True) .new s ∧
    s.sent 1 = none ∧ 1 < s.process.nextThreadid ∧
    ∀ d : Thunk, d.Own 1 (s.process.flows 1).seq → (d.poll s.process).isSome := by
  let acts : List MachineAction := [.addMain, .poll 0, .poll 0,
    .call 0 (.create 64 (Value.new 64 0)), .poll 0, .poll 1]
  have hrun : ∃ s ∈ (new .new).run acts, s.sent 1 = none ∧ 1 < s.process.nextThreadid ∧
      0 ∈ s.process.threads := by decide +kernel
  obtain ⟨s, hs, hsent, hlt, h0⟩ := hrun
  have h := Reachable.new.run hs
  exact ⟨s, h, hsent, hlt, fun d => (poll_isSome_iff h).2.mpr (fun _ => h0) 1 hlt hsent d⟩

/-- The task waits in `thunk_impl` for room that its pipeline has, and nothing will make the
pool poll it. -/
def Lost (s : Machine) (t : ThreadId) : Prop :=
  (s.control t).decodes ∧ s.ready t = false ∧
    (s.process.flows t).len < Process.pipelineSize ∧ ∀ w ∈ s.wakers, w.2 ≠ t

/-- No poll of `thunk_impl` finds the pipeline of its thread full. -/
def HasRoom (s : Machine) : MachineAction → Prop
  | .poll t => (s.control t).decodes → (s.process.flows t).len < Process.pipelineSize
  | _ => True

instance (s : Machine) : DecidablePred s.HasRoom
  | .poll t => inferInstanceAs (Decidable ((s.control t).decodes → _))
  | .addMain | .call _ _ | .pass | .choose _ => inferInstanceAs (Decidable True)

/-- A task that has not ended is ready or has left its waker somewhere. -/
def Awake (s : Machine) : Prop :=
  ∀ t, s.control t ≠ .done → s.ready t = false → ∃ w, (w, t) ∈ s.wakers

theorem Awake.wake {s : Machine} (h : s.Awake) : s.wake.Awake := by
  intro t hk hr
  obtain ⟨hready, hany⟩ := Bool.or_eq_false_iff.mp hr
  obtain ⟨w, hw⟩ := h t hk hready
  -- the waker is still there, since it has not fired
  refine ⟨w, List.mem_filter.mpr ⟨hw, ?_⟩⟩
  have hfire := List.any_eq_false.mp hany (w, t) hw
  simpa using hfire

theorem Awake.of_eq {s s' : Machine} {t : ThreadId} (h : s.Awake) (hr : s.ready t = true)
    (hready : s'.ready = s.ready) (hwakers : s'.wakers = s.wakers)
    (hcontrol : ∀ u ≠ t, s'.control u = s.control u) : s'.Awake := by
  intro u hk hu
  rw [hready] at hu
  have hut : u ≠ t := fun hut => by rw [hut, hr] at hu; cases hu
  rw [hcontrol u hut] at hk
  rw [hwakers]
  exact h u hk hu

theorem Awake.spawn {s : Machine} (h : s.Awake) (p : Process) (params : List Value) :
    (s.spawn p params).Awake := by
  intro u hk hu
  by_cases hun : u = p.nextThreadid
  · subst hun
    rw [show (s.spawn p params).ready p.nextThreadid = true from Function.update_self _ _ _] at hu
    cases hu
  · rw [show (s.spawn p params).ready u = s.ready u from Function.update_of_ne hun _ _] at hu
    rw [show (s.spawn p params).control u = s.control u from Function.update_of_ne hun _ _] at hk
    exact h u hk hu

theorem Awake.polled {s s' : Machine} {p : Process} {t : ThreadId} (h : s.Awake)
    (hr : s.ready t = true) (hroom : (s.control t).decodes → (p.flows t).len < Process.pipelineSize)
    (hs : Polled s p t (s.control t) s') : s'.Awake := by
  have hgoto : ∀ {s' : Machine} (k : Task), s'.Awake → s'.ready t = true → (s'.goto t k).Awake :=
    fun k h hr => h.of_eq hr rfl rfl fun u hu => Function.update_of_ne hu _ _
  -- the process and the mutexes do not matter
  have hdecoded : ∀ p', (s.decoded p' t).Awake := fun _ => h
  have hprocess : ∀ p', (s.setProcess p').Awake := fun _ => h
  have hsync : ∀ sync, (s.setSync sync).Awake := fun _ => h
  generalize hk : s.control t = k at hs hroom
  cases hs with
  | fail _ => exact h
  | @suspend _ w _ =>
    intro u hku hu
    by_cases hut : u = t
    · exact ⟨w, hut ▸ List.mem_append_right _ (List.mem_singleton_self _)⟩
    · rw [show (s.suspend t (some w)).ready u = s.ready u from
        Function.update_of_ne hut _ _] at hu
      exact (h u hku hu).imp fun _ => List.mem_append_left _
  | full hlen => exact absurd (hroom rfl) (Nat.not_lt.mpr hlen)
  | decode _ => exact hgoto _ (hdecoded _) hr
  | store => exact hgoto _ (hprocess _) hr
  | await _ | receive _ | thread _ | join _ => exact hgoto _ h hr
  | lock | tryLock | unlock _ | wait _ | notify | notifyAll =>
    exact hgoto _ (hsync _) hr
  | @spawn params k =>
    refine hgoto _ (h.spawn p params) ?_
    by_cases htn : t = p.nextThreadid
    · exact htn ▸ Function.update_self _ _ _
    · exact (Function.update_of_ne htn _ _).trans hr
  | @finish value _ =>
    intro u hku hu
    by_cases hut : u = t
    · subst hut
      exact absurd (Function.update_self _ _ _) hku
    · rw [show (s.finish _ t value).control u = s.control u from
        Function.update_of_ne hut _ _] at hku
      rw [show (s.finish _ t value).ready u = s.ready u from Function.update_of_ne hut _ _] at hu
      exact h u hku hu

theorem Awake.performed {s s' : Machine} {a : MachineAction} (h : s.Awake) (hroom : s.HasRoom a)
    (hs : Performed s a s') : s'.Awake := by
  cases hs with
  | main _ _ => exact h.spawn _ _
  | enter _ hr _ _ => exact h.of_eq hr rfl rfl fun u hu => Function.update_of_ne hu _ _
  | poll hc hr hs => exact h.polled hr (process_eq hc ▸ hroom) hs
  | pass _ | choose _ => exact h

/-- As long as no pipeline is found full, no task is stranded in `thunk_impl`. -/
theorem not_lost {memory : Memory} {s : Machine} (h : Reachable HasRoom memory s)
    (t : ThreadId) : ¬ s.Lost t := by
  have hawake : s.Awake := h.invariant (fun _ hk => absurd rfl hk) (fun _ => Awake.wake)
    fun _ _ _ hroom _ hs hp => hs.performed hroom (performed_of_perform hp)
  rintro ⟨hk, hr, -, hw⟩
  have hne : s.control t ≠ .done := fun hd => by rw [hd] at hk; cases hk
  obtain ⟨w, hmem⟩ := hawake t hne hr
  exact hw (w, t) hmem rfl

theorem not_lost_decoding : ∃ s, Reachable HasRoom .new s ∧ (s.control 0).decodes ∧ ¬ s.Lost 0 := by
  let acts : List MachineAction := [.addMain, .poll 0, .poll 0,
    .call 0 (.decode (DataFlow.load (ptr 128) i32 .relaxed))]
  have hrun : ∃ s ∈ (new .new).runWhile HasRoom acts, (s.control 0).decodes := by decide +kernel
  obtain ⟨s, hs, hk⟩ := hrun
  have h : Reachable HasRoom .new s := Reachable.new.runWhile hs
  exact ⟨s, h, hk, not_lost h 0⟩

/-- Thread 0 is alone, and its pipeline holds `n` constants that are not yet resolved. -/
structure Filled (n : ℕ) (k : Task) (s : Machine) : Prop where
  reachable : Reachable (fun _ _ => True) .new s
  config : s.config = .decoding s.process
  threads : s.process.threads = [0]
  nextThreadid : s.process.nextThreadid = 1
  len : (s.process.flows 0).len = n
  joined : (s.process.flows 0).joined = false
  constants : ∀ c ∈ (s.process.flows 0).thunks, ∃ v i, v.debug.isSome ∧
    c = (DataFlow.constant v).thunk 0 i
  control : s.control 0 = k
  wakers : s.wakers = []
  failure : s.failure = none

theorem wake_of_wakers {s : Machine} (h : s.wakers = []) : s.wake = s := by
  obtain ⟨config, sync, control, call, backtrace, sent, ready, wakers, failure⟩ := s
  cases h
  simp [wake]

theorem Filled.poll {n : ℕ} {v : Value} {f : Thunk → Task} {s : Machine}
    (h : Filled n (FlowCtx.constant v f) s) (hr : s.ready 0 = true)
    (hn : n < Process.pipelineSize) (hv : v.debug.isSome) :
    ∃ s', s'.ready 0 = true ∧ Filled (n + 1) (f (.cell 0 (s.process.flows 0).seq)) s' := by
  let a := DataFlow.constant v
  let c := a.thunk 0 (s.process.flows 0).seq
  let p' := s.process.modify 0 fun f => f.push c
  let s' := (s.decoded p' 0).goto 0 (f (.cell 0 (s.process.flows 0).seq))
  have himpl : s.process.thunkImpl 0 a.address a.atomicity a.deps a.compute =
      some (.cell 0 (s.process.flows 0).seq, p') := by
    have hlen := h.len
    exact if_pos ⟨by simp [h.threads], by simp [h.joined], by omega, nofun, nofun⟩
  have hact : s.act (.poll 0) = some s' := by
    have hpoll : s.poll s.process 0 (s.control 0) = some s' := by
      rw [h.control]
      show (if (s.process.flows 0).len < Process.pipelineSize then _ else _) = _
      rw [if_pos (by rw [h.len]; exact hn), himpl]
      rfl
    rw [act_poll h.failure h.config hr hpoll]
    exact congrArg some (wake_of_wakers h.wakers)
  have hcontrol : s'.control 0 = f (.cell 0 (s.process.flows 0).seq) :=
    Function.update_self (0 : ThreadId) _ s.control
  have hflow : s'.process.flows 0 = (s.process.flows 0).push c :=
    Process.flows_modify_self s.process 0 fun f => f.push c
  refine ⟨s', hr, h.reachable.act trivial hact, rfl, h.threads, h.nextThreadid, ?_, ?_, ?_,
    hcontrol, h.wakers, h.failure⟩
  · rw [hflow, DataFlow.len, DataFlow.push, List.length_append]
    exact congrArg (· + 1) h.len
  · rw [hflow]
    exact h.joined
  · intro d hd
    rw [hflow] at hd
    rcases List.mem_append.mp hd with hd | hd
    · exact h.constants d hd
    · exact ⟨v, _, hv, List.mem_singleton.mp hd⟩

theorem Filled.call {n : ℕ} {s : Machine} (h : Filled n .ret s) (hr : s.ready 0 = true) :
    ∃ s', s'.ready 0 = true ∧ Filled n (FlowCtx.constant .ofUnit fun _ => .ret) s' := by
  let c : Call := .decode (DataFlow.constant .ofUnit)
  let s' : Machine := { s with
    control := Function.update s.control 0 c.task
    call := Function.update s.call 0 (some c) }
  have hact : s.act (.call 0 c) = some s' := by
    have henter : s.enter 0 c = some s' := by
      unfold enter
      rw [h.control]
      exact if_pos ⟨hr, nofun⟩
    rw [act_call h.failure h.config henter]
    exact congrArg some (wake_of_wakers h.wakers)
  have hcontrol : s'.control 0 = c.task := Function.update_self (0 : ThreadId) _ s.control
  exact ⟨s', hr, h.reachable.act trivial hact, h.config, h.threads, h.nextThreadid, h.len,
    h.joined, h.constants, hcontrol, h.wakers, h.failure⟩

theorem exists_filled {n : ℕ} (hn : 2 ≤ n) (hle : n ≤ Process.pipelineSize) :
    ∃ s, s.ready 0 = true ∧ Filled n .ret s := by
  induction n, hn using Nat.le_induction with
  | base =>
    let s := (new .new).spawn (.new .new) [Value.new 32 0, Process.addr 0]
    have hact : (new .new).act .addMain = some s := congrArg some (wake_of_wakers rfl)
    have h : Filled 0 (.start [Value.new 32 0, Process.addr 0]) s :=
      ⟨Reachable.new.act trivial hact, rfl, rfl, rfl, rfl, rfl, nofun, rfl, rfl, rfl⟩
    obtain ⟨s₁, hr₁, h₁⟩ := h.poll rfl (by decide) (by decide)
    exact h₁.poll hr₁ (by decide) (by decide)
  | succ n hn ih =>
    obtain ⟨s, hr, h⟩ := ih (by omega)
    obtain ⟨s₁, hr₁, h₁⟩ := h.call hr
    exact h₁.poll hr₁ (by omega) rfl

theorem visit_constant (s : Scan) {v : Value} (hv : v.debug.isSome) (t : ThreadId) (i : ℕ) :
    ∃ s', s.visit ((DataFlow.constant v).thunk t i) = some (s', false) ∧
      s'.process.value t i ≠ none := by
  let c := (DataFlow.constant v).thunk t i
  have hargs : c.deps.mapM (Thunk.tryGet s.process) = some [] := rfl
  have hstep : ∃ p b, c.step s.process = some (p, b) ∧ p.value t i ≠ none := by
    cases hval : s.process.value t i with
    | some w =>
      refine ⟨s.process, false, ?_, by rw [hval]; nofun⟩
      have hval' : s.process.value c.threadid c.seq = some w := hval
      simp only [ThunkInner.step, hargs, hval']
    | none =>
      obtain ⟨str, hstr⟩ := Option.isSome_iff_exists.mp hv
      have hcomp : c.compute s.process.memory [] = some (v, s.process.memory) := rfl
      refine ⟨s.process.resolve c v s.process.memory, true, ?_, ?_⟩
      · rw [step_of_ready hargs hval, hcomp]
        simp only [Option.bind_some, hstr, Option.map_some]
      · rw [Process.value_resolve, if_pos ⟨rfl, rfl⟩]
        nofun
  obtain ⟨p, b, hstep, hp⟩ := hstep
  refine ⟨{ s with process := p, progress := s.progress || b }, ?_, hp⟩
  have haddr : c.address = none := rfl
  show s.visit c = _
  simp only [Scan.visit, haddr, Scan.step, hstep, Option.bind_eq_bind, Option.bind_some,
    Option.map_some]

theorem loop_constants {cs : List ThunkInner} {s : Scan}
    (h : ∀ c ∈ cs, ∃ v t i, v.debug.isSome ∧ c = (DataFlow.constant v).thunk t i) :
    ∃ s', Scan.loop cs s = some s' ∧ ∀ c ∈ cs, s'.process.value c.threadid c.seq ≠ none := by
  induction cs generalizing s with
  | nil => exact ⟨s, rfl, nofun⟩
  | cons c cs ih =>
    obtain ⟨v, t, i, hv, rfl⟩ := h c List.mem_cons_self
    obtain ⟨s₁, hvisit, hvalue⟩ := visit_constant s hv t i
    obtain ⟨s', hl, hall⟩ := ih (s := s₁) fun c hc => h c (List.mem_cons_of_mem _ hc)
    refine ⟨s', loop_cons.mpr ⟨s₁, false, hvisit, .inr ⟨rfl, hl⟩⟩, fun c hc => ?_⟩
    rcases List.mem_cons.mp hc with rfl | hc
    · obtain ⟨w, hw⟩ := Option.ne_none_iff_exists'.mp hvalue
      rw [Option.ne_none_iff_exists']
      exact ⟨w, (loop_extends hl).value hw⟩
    · exact hall c hc

theorem pass_single {p : Process} {s : Scan} (ht : p.threads = [0])
    (hl : Scan.loop (p.unresolved 0) (p.scan 0 []) = some s) :
    p.pass = some (s.process.reapThreads, s.resolvable, s.progress) := by
  refine pass_eq_some.mpr ⟨s.process, ?_, rfl⟩
  rw [ht]
  exact passFrom_cons.mpr ⟨_, _, _, stepPure_eq_some.mpr ⟨s, hl, rfl, rfl, rfl⟩, rfl⟩

theorem act_pass_single {s : Machine} {c : Scan} (hf : s.failure = none)
    (hc : s.config = .decoding s.process) (hw : s.wakers = []) (hst : s.Stalled)
    (ht : s.process.threads = [0])
    (hl : Scan.loop (s.process.unresolved 0) (s.process.scan 0 []) = some c) :
    s.act .pass = some { s with
      config := if c.progress then .decoding c.process.reapThreads
        else .offering c.process.reapThreads c.resolvable } := by
  have hact : s.config.act .pass = some (if c.progress then .decoding c.process.reapThreads
      else .offering c.process.reapThreads c.resolvable) := by
    rw [hc, Config.act, pass_single ht hl]
    rfl
  rw [act_pass hf hc hst hact]
  exact congrArg some (wake_of_wakers hw)

/-- The pipeline is drained in two passes, but the task in `thunk_impl` is not polled. -/
theorem Filled.exists_lost {n : ℕ} {v : Value} {f : Thunk → Task} {s : Machine}
    (h : Filled n (FlowCtx.constant v f) s) (hr : s.ready 0 = false) :
    ∃ s, Reachable (fun _ _ => True) .new s ∧ s.Lost 0 := by
  have hstalled : s.Stalled := by
    intro t ht
    rw [h.nextThreadid] at ht
    rw [Nat.lt_one_iff.mp ht]
    exact hr
  -- the state with the drained pipeline is the one to exhibit
  have hlost : ∀ {s' : Machine}, s'.control = s.control → s'.ready = s.ready →
      s'.wakers = s.wakers → (s'.process.flows 0).thunks = [] → s'.Lost 0 := by
    intro s' hk hr' hw hnil
    refine ⟨by rw [hk, h.control]; rfl, by rw [hr', hr], ?_, by rw [hw, h.wakers]; nofun⟩
    rw [DataFlow.len, hnil]
    decide
  obtain ⟨c, hl, hvalue⟩ := loop_constants (s := s.process.scan 0 [])
    fun c hc => (h.constants c (Process.mem_unresolved.mp hc).1).imp fun v ⟨i, hv, hc⟩ =>
      ⟨0, i, hv, hc⟩
  have hact := act_pass_single h.failure h.config h.wakers hstalled h.threads hl
  have hthunks : (c.process.flows 0).thunks = s.process.unresolved 0 :=
    (loop_thunks hl 0).trans (Process.thunks_retain_self s.process 0)
  have hconst : ∀ b ∈ s.process.unresolved 0, b.threadid = 0 := by
    intro b hb
    obtain ⟨v, i, -, rfl⟩ := h.constants b (Process.mem_unresolved.mp hb).1
    rfl
  -- whether the pass made progress decides where it goes on
  cases hq : c.progress with
  | false =>
    -- there was nothing to resolve, so the pipeline is empty already
    rw [hq] at hact
    refine ⟨_, h.reachable.act trivial hact, hlost rfl rfl rfl (hthunks.trans ?_)⟩
    refine List.eq_nil_iff_forall_not_mem.mpr fun b hb => hvalue b hb ?_
    rw [(loop_quiet hl hq).1, hconst b hb]
    exact (congrFun₂ (Process.value_retain _ _) _ _).trans (Process.mem_unresolved.mp hb).2
  | true =>
    rw [hq] at hact
    let q := c.process.reapThreads
    let s₂ : Machine := { s with config := .decoding q }
    have hk := loop_kept hl
    have hjoined : (c.process.flows 0).joined = false := by
      rw [hk.joined]
      exact (Process.proj_modify s.process 0 0 DataFlow.joined DataFlow.retain fun _ => rfl).trans
        h.joined
    have hthreads : q.threads = [0] := by
      have hct : c.process.threads = [0] := hk.threads.trans h.threads
      simp [q, Process.reapThreads, hct, DataFlow.alive, hjoined]
    -- every thunk of the pipeline has its value now, and the next pass drops it
    have hnil : q.unresolved 0 = [] := by
      refine List.eq_nil_iff_forall_not_mem.mpr fun b hb => ?_
      obtain ⟨hb, hn⟩ := Process.mem_unresolved.mp hb
      have hb' : b ∈ s.process.unresolved 0 := hthunks ▸ hb
      have hsome := hvalue b hb'
      rw [hconst b hb'] at hsome
      exact hsome hn
    have hact₂ : s₂.act .pass = some { s₂ with
        config := .offering (q.modify 0 DataFlow.retain).reapThreads [] } :=
      act_pass_single (c := q.scan 0 []) h.failure rfl h.wakers
        (fun t ht => hstalled t (hk.nextThreadid ▸ ht)) hthreads (by
          show Scan.loop (q.unresolved 0) _ = _
          rw [hnil]
          rfl)
    refine ⟨_, (h.reachable.act trivial hact).act trivial hact₂, hlost rfl rfl rfl ?_⟩
    exact (Process.thunks_retain_self q 0).trans hnil

/-- The first thread decodes constants until its pipeline is full, and one more. -/
theorem exists_lost : ∃ s, Reachable (fun _ _ => True) .new s ∧ ∃ t, s.Lost t := by
  obtain ⟨s, hr, h⟩ := exists_filled (n := Process.pipelineSize) (by decide) le_rfl
  obtain ⟨s₁, hr₁, h₁⟩ := h.call hr
  have hact : s₁.act (.poll 0) = some (s₁.suspend 0 none) := by
    have hpoll : s₁.poll s₁.process 0 (s₁.control 0) = some (s₁.suspend 0 none) := by
      rw [h₁.control]
      show (if (s₁.process.flows 0).len < Process.pipelineSize then _ else _) = _
      rw [if_neg (by rw [h₁.len]; exact Nat.lt_irrefl _)]
    rw [act_poll h₁.failure h₁.config hr₁ hpoll]
    exact congrArg some (wake_of_wakers (by rw [suspend, h₁.wakers]; rfl))
  have h₂ : Filled Process.pipelineSize (FlowCtx.constant .ofUnit fun _ => .ret)
      (s₁.suspend 0 none) :=
    ⟨h₁.reachable.act trivial hact, h₁.config, h₁.threads, h₁.nextThreadid, h₁.len, h₁.joined,
      h₁.constants, h₁.control, by rw [suspend, h₁.wakers]; rfl, h₁.failure⟩
  obtain ⟨s', hs', hlost⟩ := h₂.exists_lost (Function.update_self (0 : ThreadId) _ s₁.ready)
  exact ⟨s', hs', 0, hlost⟩

end Machine
end AtomicSim
