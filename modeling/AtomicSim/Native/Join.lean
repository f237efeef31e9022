import AtomicSim.Native.Points

namespace AtomicSim

def Task.NoSend : Task → Prop
  | .ret | .done | .panic _ => True
  | .send _ => False
  | .thunk _ k => ∀ d, (k d).NoSend
  | .await _ k => ∀ v, (k v).NoSend
  | .threadLocal _ _ k => ∀ ptr, (k ptr).NoSend
  | .lock _ k | .unlock _ k | .wait _ _ k | .receive k | .notify _ k | .notifyAll _ k
  | .thread _ k => k.NoSend
  | .tryLock _ k => ∀ b, (k b).NoSend
  | .addThread _ k => ∀ u, (k u).NoSend
  | .join _ k => ∀ v, (k v).NoSend

section NoSend

theorem noSend_nativeReturn (v : ℕ) : (nativeReturn v).NoSend := fun _ => trivial

theorem noSend_store {address : ℕ} {value : Value} {k : Task} (h : k.NoSend) :
    (FlowCtx.store address value k).NoSend := fun _ _ _ _ => h

theorem noSend_cmpxchgU64 {address expected replacement : ℕ} {success failure : Ordering}
    {k : ℕ × Bool → Task} (h : ∀ r, (k r).NoSend) :
    (FlowCtx.cmpxchgU64 address expected replacement success failure k).NoSend := by
  intro a e r d output
  dsimp only
  split
  · exact h _
  · trivial

theorem noSend_mutexLockAcquire {m : ℕ} {k : Task} (h : k.NoSend) :
    (mutexLockAcquire m k).NoSend := by
  refine noSend_cmpxchgU64 fun r => ?_
  split_ifs
  · exact h
  · trivial

theorem noSend_mutexLockRelease {m : ℕ} {k : Task} (h : k.NoSend) :
    (mutexLockRelease m k).NoSend := by
  refine noSend_cmpxchgU64 fun r => ?_
  split_ifs
  · exact h
  · trivial

theorem noSend_pthreadJoin (u : ThreadId) (retval : ℕ) : (pthreadJoin u retval).NoSend := by
  intro v
  dsimp only
  split_ifs
  · exact noSend_store (noSend_nativeReturn 0)
  · exact noSend_nativeReturn 0

theorem noSend_task {c : Call} (h : ∀ d, c ≠ .exit d) : c.task.NoSend := by
  cases c with
  | mutexTrylock m =>
    intro b
    cases b with
    | true => exact noSend_mutexLockAcquire (noSend_nativeReturn 0)
    | false => exact noSend_nativeReturn 1
  | mutexLock m => exact noSend_mutexLockAcquire (noSend_nativeReturn 0)
  | mutexUnlock m => exact noSend_mutexLockRelease (noSend_nativeReturn 0)
  | mutexInit m => exact noSend_store (noSend_nativeReturn 0)
  | condWait c m =>
    exact noSend_mutexLockRelease (noSend_mutexLockAcquire (noSend_nativeReturn 0))
  | condBroadcast c | condSignal c => exact noSend_nativeReturn 0
  | create thread arg => exact fun u => noSend_store (noSend_nativeReturn 0)
  | join callee args =>
    exact nativeCall_induction trivial trivial (fun _ => noSend_pthreadJoin _ _) fun _ _ _ hk => hk
  | decode a => exact fun _ => trivial
  | await d => exact fun _ => trivial
  | threadLocal layout value => exact fun _ => trivial
  | exit d => exact absurd rfl (h d)

theorem noSend_start (params : List Value) : (Task.start params).NoSend := by
  induction params with
  | nil => trivial
  | cons v params ih => exact fun _ => ih

end NoSend

namespace Machine

/-- The start routine of `t` has returned `v`. -/
def Returned (s : Machine) (t : ThreadId) (v : ℕ) : Prop :=
  ∃ d w, s.call t = some (.exit d) ∧ d.tryGet s.process = some w ∧ v = w.asU64

/-- Where a task can be with respect to the end of its thread. -/
inductive Exiting (s : Machine) (t : ThreadId) : Prop
  | not : (s.control t).NoSend → Exiting s t
  | await {d : Thunk} : s.call t = some (.exit d) → s.control t = (Call.exit d).task → Exiting s t
  | send {v : ℕ} : s.Returned t v → s.control t = .send v → Exiting s t

/-- Only the return from the start routine sends the join signal. -/
structure Exits (s : Machine) : Prop where
  control : ∀ t, s.Exiting t
  sent : ∀ {t v}, s.sent t = some v → s.Returned t v

section Exits

variable {s s' : Machine} {t u : ThreadId} {v : ℕ}

theorem Returned.mono (h : s.Returned t v) (hcall : s'.call t = s.call t)
    (hext : s.process.Extends s'.process) : s'.Returned t v := by
  obtain ⟨d, w, hc, hw, hv⟩ := h
  exact ⟨d, w, hcall.trans hc, hext.tryGet hw, hv⟩

theorem Exiting.mono (h : s.Exiting t) (hk : s'.control t = s.control t)
    (hcall : s'.call t = s.call t) (hext : s.process.Extends s'.process) : s'.Exiting t := by
  cases h with
  | not hn => exact .not (hk ▸ hn)
  | await hc hk' => exact .await (hcall.trans hc) (hk.trans hk')
  | send hr hk' => exact .send (hr.mono hcall hext) (hk.trans hk')

theorem Exits.wake (h : s.Exits) : s.wake.Exits := by
  refine ⟨fun t => (h.control t).mono rfl rfl (.refl _), fun hv => ?_⟩
  exact (h.sent hv).mono rfl (.refl _)

theorem Exiting.polled {p : Process} (h : s.Exiting t) (hc : s.config = .decoding p)
    (hs : Polled s p t (s.control t) s')
    (hcall : s'.call = s.call) (hext : s.process.Extends s'.process) : s'.Exiting t := by
  have hp := process_eq hc
  have hkeep : s'.control t = s.control t → s'.Exiting t :=
    fun hk => h.mono hk (congrFun hcall t) hext
  have hgoto : ∀ {r : Machine} {k : Task}, k.NoSend → (r.goto t k).Exiting t :=
    fun hn => .not (by rwa [control_goto])
  cases h with
  | not hn =>
    generalize hk : s.control t = k at hs hn
    cases hs with
    | fail _ | suspend _ | full _ => exact hkeep rfl
    | decode _ | store | await _ | join _ | tryLock | spawn => exact hgoto (hn _)
    | receive _ | thread _ | lock | unlock _ | wait _ | notify | notifyAll => exact hgoto hn
    | finish _ => exact hn.elim
  | @await d hx hk =>
    rw [hk] at hs
    cases hs with
    | fail _ | suspend _ => exact hkeep rfl
    | await hv => exact .send ⟨d, _, hx, hp.symm ▸ hv, rfl⟩ (control_goto _ _ _)
  | send hx hk =>
    rw [hk] at hs
    cases hs with
    | fail _ | suspend _ => exact hkeep rfl
    | finish _ =>
      refine .not ?_
      rw [show (s.finish _ t _).control t = .done from Function.update_self _ _ _]
      trivial

theorem Exits.performed (h : s.Exits) (hwf : s.WF) {a : MachineAction} (hs : Performed s a s') :
    s'.Exits := by
  have hf := hwf.frame hs
  have hext := hf.grows.toExtends
  -- what is not the actor's is as it was, and a new thread sends nothing
  have hother : ∀ u, actor a ≠ some u → s'.Exiting u := by
    intro u hu
    by_cases hlt : u < s.process.nextThreadid
    · exact (h.control u).mono (hf.control u hlt hu) (hf.call u hu) hext
    · rcases hwf.control_fresh hs (Nat.not_lt.mp hlt) with hk | ⟨params, hk⟩
      · exact .not (by rw [hk]; trivial)
      · exact .not (by rw [hk]; exact noSend_start params)
  have hmono : ∀ u, actor a ≠ some u → ∀ {v}, s.sent u = some v → s'.Returned u v :=
    fun u hu _ hv => (h.sent hv).mono (hf.call u hu) hext
  cases hs with
  | main _ _ | pass _ | choose _ =>
    exact ⟨fun u => hother u nofun, fun {u _} hv => hmono u nofun hv⟩
  | @enter p t c _ _ hk _ =>
    have hne : ∀ {u}, u ≠ t → actor (.call t c) ≠ some u := fun hu h => hu (Option.some.inj h).symm
    refine ⟨fun u => ?_, fun {u v} hv => hmono u (hne fun hut => ?_) hv⟩
    · by_cases hut : u = t
      · subst hut
        by_cases hx : ∃ d, c = .exit d
        · obtain ⟨d, rfl⟩ := hx
          exact .await (Function.update_self _ _ _) (Function.update_self _ _ _)
        · refine .not ?_
          show (Function.update s.control u c.task u).NoSend
          rw [Function.update_self]
          exact noSend_task fun d hd => hx ⟨d, hd⟩
      · exact hother u (hne hut)
    · have hsent : s.sent t = none := (hwf.lt_of_control (by rw [hk]; nofun)).2
      rw [hut] at hv
      exact nomatch hsent.symm.trans hv
  | @poll p t _ hc _ hs =>
    have hne : ∀ {u}, u ≠ t → actor (.poll t) ≠ some u := fun hu h => hu (Option.some.inj h).symm
    have hcall := (hs.frame hc).2.1
    refine ⟨fun u => ?_, fun {u v} hv => ?_⟩
    · by_cases hut : u = t
      · subst hut
        exact (h.control u).polled hc hs hcall hext
      · exact hother u (hne hut)
    · -- a signal that is new is that of the task that was polled
      by_cases hold : s.sent u = some v
      · exact (h.sent hold).mono (congrFun hcall u) hext
      generalize hk : s.control t = k at hs
      cases hs with
      | @finish value _ =>
        have hut : u = t := by
          by_contra hut
          exact hold ((Function.update_of_ne hut _ _).symm.trans hv)
        subst hut
        have hval : (Function.update s.sent u (some value)) u = some v := hv
        rw [Function.update_self] at hval
        cases hval
        cases h.control u with
        | not hn =>
          rw [hk] at hn
          exact hn.elim
        | await _ hk' => exact nomatch hk.symm.trans hk'
        | send hr hk' =>
          cases hk.symm.trans hk'
          exact hr.mono rfl hext
      | fail _ | suspend _ | full _ | decode _ | store | await _ | receive _ | thread _ | join _
      | lock | tryLock | unlock _ | wait _ | notify | notifyAll | spawn => exact absurd hv hold

end Exits

end Machine

/-- As far as its value is known, the operand reads as the argument. -/
def NativeInput.Reads {α : Type} (i : NativeInput α) (p : Process) (x : Thunk) (a : α) : Prop :=
  ∀ v, x.tryGet p = some v → i.fromThunk (x, some v) = some a

theorem NativeInput.Reads.of_extends {α : Type} {i : NativeInput α} {p q : Process} {x : Thunk}
    {a : α} (h : i.Reads q x a) (hpq : p.Extends q) : i.Reads p x a :=
  fun v hv => h v (hpq.tryGet hv)

/-- `from_thunks_impl` in a call of `pthread_join`, behind the operands that it has read. -/
def joinOperands (read : List (Thunk × Option Value)) (args : List Thunk) : Task :=
  fromThunksLoop (.two .u64 .addr)
    (nativeBody "pthread_join" fun (thread, retval) => pthreadJoin thread retval) read args

section Operands

variable {x y : Thunk} {v w : Value} {t : ThreadId} {retval : ℕ}

theorem joinOperands_eq (hv : NativeInput.u64.fromThunk (x, some v) = some t)
    (hw : NativeInput.addr.fromThunk (y, some w) = some retval) :
    joinOperands [(x, some v), (y, some w)] [] = pthreadJoin t retval := by
  rw [joinOperands, fromThunksLoop, NativeInputs.fromThunks_two hv hw]
  rfl

theorem left_pthreadJoin (t : ThreadId) (retval : ℕ) :
    (pthreadJoin t retval).left = if retval ≠ 0 then 7 else 3 := by
  by_cases hne : retval ≠ 0
  · simp only [pthreadJoin, Task.left, if_pos hne, left_store]
    rfl
  · simp only [pthreadJoin, Task.left, if_neg hne]
    rfl

theorem left_joinOperands_last (y : Thunk) (hv : NativeInput.u64.fromThunk (x, some v) = some t) :
    (joinOperands [(x, some v)] [y]).left = 8 := by
  have hw : NativeInput.addr.fromThunk (y, some (Process.addr 1)) = some 1 :=
    NativeInput.fromThunk_addr (by decide) y
  show (joinOperands [(x, some v), (y, some (Process.addr 1))] []).left + 1 = 8
  rw [joinOperands_eq hv hw, left_pthreadJoin]
  rfl

theorem left_joinOperands (x y : Thunk) : (joinOperands [] [x, y]).left = 9 :=
  congrArg Nat.succ (left_joinOperands_last y (NativeInput.fromThunk_uint (n := 1) (by decide)
    (by decide) x))

end Operands

namespace Machine

/-- Where the call of `pthread_join` with the operands `x` and `y`, which read as `t` and
`retval`, is in thread `u`. The thunks of the call are those from the `n`-th on. -/
inductive Joining (s : Machine) (u : ThreadId) (x y : Thunk) (t : ThreadId) (retval n : ℕ) : Prop
  | callee {d : Thunk} : s.control u = (Call.join d [x, y]).task → Joining s u x y t retval n
  | operands : s.control u = joinOperands [] [x, y] → Joining s u x y t retval n
  | operand {v : Value} : x.tryGet s.process = some v →
      s.control u = joinOperands [(x, some v)] [y] → Joining s u x y t retval n
  | thread : s.control u = pthreadJoin t retval → s.ready u = true → Joining s u x y t retval n
  | join : (s.control u = .join t fun result =>
        if retval ≠ 0 then FlowCtx.store retval (Process.addr result) (nativeReturn 0)
        else nativeReturn 0) →
      (s.ready u = true ∨ (.join t, u) ∈ s.wakers) → Joining s u x y t retval n
  | store {v : ℕ} : s.sent t = some v → retval ≠ 0 →
      InStore s.process u n retval (Process.addr v) (nativeReturn 0) (s.control u) →
      Joining s u x y t retval n
  | ret {v : ℕ} : s.sent t = some v →
      (retval ≠ 0 → s.process.Stored u n retval (Process.addr v)) →
      (s.control u = nativeReturn 0 ∨ s.control u = .ret) → Joining s u x y t retval n

section Joining

variable {s s' : Machine} {u : ThreadId} {x y : Thunk} {t : ThreadId} {retval n : ℕ}
variable {memory : Memory} {p : Process}

theorem Joining.control_ne_done (h : s.Joining u x y t retval n) : s.control u ≠ .done := by
  intro hd
  cases h with
  | callee hk | operands hk | operand _ hk | thread hk _ | join hk _ =>
    exact nomatch hd.symm.trans hk
  | store _ _ hk =>
    rw [hd] at hk
    cases hk
  | ret _ _ hk => rcases hk with hk | hk <;> exact nomatch hd.symm.trans hk

theorem Joining.mono (h : s.Joining u x y t retval n) (hk : s'.control u = s.control u)
    (hsent : ∀ {v}, s.sent t = some v → s'.sent t = some v) (hg : Grows s.process s'.process)
    (hready : s.ready u = true → s'.ready u = true)
    (hwakers : ∀ w, (w, u) ∈ s.wakers → s'.ready u = true ∨ (w, u) ∈ s'.wakers) :
    s'.Joining u x y t retval n := by
  cases h with
  | callee hk' => exact .callee (hk.trans hk')
  | operands hk' => exact .operands (hk.trans hk')
  | operand hv hk' => exact .operand (hg.toExtends.tryGet hv) (hk.trans hk')
  | thread hk' hr => exact .thread (hk.trans hk') (hready hr)
  | join hk' hr => exact .join (hk.trans hk') (hr.elim (fun h => .inl (hready h)) (hwakers _))
  | store hv hne hi => exact .store (hsent hv) hne (hk ▸ hi.mono hg.toExtends)
  | ret hv hst hk' =>
    exact .ret (hsent hv) (fun hne => (hst hne).mono hg.log) (by rwa [hk])

theorem Joining.wake (h : s.Joining u x y t retval n) : s.wake.Joining u x y t retval n := by
  refine h.mono rfl id ⟨.refl _, List.prefix_rfl⟩ (fun hr => Bool.or_eq_true_iff.mpr (.inl hr))
    fun w hw => ?_
  -- a waker that has fired has made the task ready
  by_cases hf : s.fires u w = true
  · refine .inl (Bool.or_eq_true_iff.mpr (.inr (List.any_eq_true.mpr ⟨_, hw, ?_⟩)))
    simpa using hf
  · exact .inr (List.mem_filter.mpr ⟨hw, by simpa using hf⟩)

/-- What a poll of the call looks up is not in the table: the thread of the thunk that it awaits,
or the thread to join. -/
def JoinLost (s : Machine) (p : Process) (u t : ThreadId) (retval : ℕ) : Prop :=
  (∃ d, (s.control u).polls = some d ∧ d.threadid ∉ p.threads) ∨
    (s.control u = pthreadJoin t retval ∧ t ∉ p.threads)

theorem polled_operand {d : Thunk} {k : Value → Task} (hk : s.control u = .await d k)
    (hs : Polled s p u (s.control u) s') :
    (d.threadid ∉ p.threads ∧ s' = s.fail (.noThread d.threadid)) ∨
      (s' = s.suspend u (some (.thunk d))) ∨
      ∃ v, d.tryGet p = some v ∧ s' = s.goto u (k v) := by
  rw [hk] at hs
  cases hs with
  | fail hf =>
    cases hf with
    | await hno => exact .inl ⟨hno, rfl⟩
  | suspend hf =>
    cases hf with
    | await _ => exact .inr (.inl rfl)
  | await hv => exact .inr (.inr ⟨_, hv, rfl⟩)

theorem Joining.polled (h : s.Joining u x y t retval n) (hwf : s.WF)
    (hr : Recorded memory p) (hc : s.config = .decoding p) (hready : s.ready u = true)
    (hthread : NativeInput.u64.Reads p x t) (hretval : NativeInput.addr.Reads p y retval)
    (hx : retval < 2 ^ 64) (hn : n ≤ (p.flows u).seq) (hs : Polled s p u (s.control u) s') :
    s'.Joining u x y t retval n ∧
    ((s'.failure = s.failure ∧ (s'.ready u = false ∨ (s'.control u).left < (s.control u).left)) ∨
      (s.JoinLost p u t retval ∧ s'.failure ≠ none)) := by
  have hframe := hwf.frame (.poll hc hready hs)
  have hsleep : ∀ w, (s.suspend u w).ready u = false := fun _ => Function.update_self _ _ _
  have hp := process_eq hc
  -- an operand that is awaited may belong to a thread that is gone
  have hlost : ∀ {d : Thunk} {k : Value → Task}, s.control u = .await d k →
      d.threadid ∉ p.threads → s.JoinLost p u t retval :=
    fun hk hno => .inl ⟨_, by rw [hk]; rfl, hno⟩
  cases h with
  | @callee d hk =>
    rcases polled_operand hk hs with ⟨hno, rfl⟩ | rfl | ⟨v, -, rfl⟩
    · exact ⟨.callee hk, .inr ⟨hlost hk hno, nofun⟩⟩
    · exact ⟨.callee hk, .inl ⟨rfl, .inl (hsleep _)⟩⟩
    · refine ⟨.operands (control_goto _ _ _), .inl ⟨rfl, .inr ?_⟩⟩
      rw [control_goto, hk]
      exact Nat.lt_succ_self _
  | operands hk =>
    rcases polled_operand hk hs with ⟨hno, rfl⟩ | rfl | ⟨v, hv, rfl⟩
    · exact ⟨.operands hk, .inr ⟨hlost hk hno, nofun⟩⟩
    · exact ⟨.operands hk, .inl ⟨rfl, .inl (hsleep _)⟩⟩
    · refine ⟨.operand (hp.symm ▸ hv) (control_goto _ _ _), .inl ⟨rfl, .inr ?_⟩⟩
      rw [control_goto, hk, left_joinOperands]
      exact (left_joinOperands_last y (hthread v hv)).trans_lt (Nat.lt_succ_self _)
  | @operand v hv hk =>
    rcases polled_operand hk hs with ⟨hno, rfl⟩ | rfl | ⟨w, hw, rfl⟩
    · exact ⟨.operand hv hk, .inr ⟨hlost hk hno, nofun⟩⟩
    · exact ⟨.operand hv hk, .inl ⟨rfl, .inl (hsleep _)⟩⟩
    · have hv' := hthread v (hp ▸ hv)
      have heq := joinOperands_eq hv' (hretval w hw)
      refine ⟨.thread ((control_goto _ _ _).trans heq) hready, .inl ⟨rfl, .inr ?_⟩⟩
      rw [control_goto, hk, left_joinOperands_last y hv']
      show (joinOperands [(x, some v), (y, some w)] []).left < 8
      rw [heq, left_pthreadJoin]
      split_ifs <;> decide
  | thread hk _ =>
    rw [hk] at hs
    cases hs with
    | fail hf =>
      cases hf with
      | thread hno => exact ⟨.thread hk hready, .inr ⟨.inr ⟨hk, hno⟩, nofun⟩⟩
    | suspend hf => cases hf
    | thread _ =>
      refine ⟨.join (control_goto _ _ _) (.inl hready), .inl ⟨rfl, .inr ?_⟩⟩
      rw [control_goto, hk]
      exact Nat.lt_succ_self _
  | join hk _ =>
    rw [hk] at hs ⊢
    cases hs with
    | fail hf => cases hf
    | suspend hf =>
      cases hf with
      | join _ =>
        exact ⟨.join hk (.inr (List.mem_append_right _ (List.mem_singleton_self _))),
          .inl ⟨rfl, .inl (hsleep _)⟩⟩
    | join hv =>
      -- a null pointer asks for no value
      by_cases hne : retval ≠ 0
      · simp only [if_pos hne]
        refine ⟨.store hv hne ?_, .inl ⟨rfl, .inr ?_⟩⟩ <;> rw [control_goto]
        · exact .address
        · rw [Task.left, left_store, left_store]
          exact Nat.lt_succ_self _
      · simp only [if_neg hne]
        refine ⟨.ret hv (fun h => absurd h hne) (.inl (control_goto _ _ _)), .inl ⟨rfl, .inr ?_⟩⟩
        rw [control_goto]
        exact Nat.lt_succ_self _
  | store hv hne hi =>
    obtain ⟨hf, hleft, hi | ⟨hk, hst⟩⟩ := hi.polled hwf (hp ▸ hr) (by rw [hc, hp]) hx (hp ▸ hn) rfl
      (hp ▸ hs)
    · exact ⟨.store (hframe.sent hv) hne hi, .inl ⟨hf, hleft⟩⟩
    · exact ⟨.ret (hframe.sent hv) (fun _ => hst) (.inl hk), .inl ⟨hf, hleft⟩⟩
  | ret hv hst hk =>
    rcases hk with hk | hk
    · rw [hk] at hs ⊢
      rcases polled_thunk hs with rfl | rfl
      · exact ⟨.ret hv hst (.inl hk), .inl ⟨rfl, .inl (hsleep _)⟩⟩
      · refine ⟨.ret hv (fun hne => ?_) (.inr (control_goto _ _ _)), .inl ⟨rfl, .inr ?_⟩⟩
        · exact (hst hne).mono hframe.grows.log
        · rw [control_goto]
          exact Nat.lt_succ_self _
    · rw [hk] at hs
      cases hs with
      | fail hf => cases hf
      | suspend hf => cases hf

theorem Joining.exists_poll (h : s.Joining u x y t retval n) (hwf : s.WF)
    (hr : Recorded memory p) (hc : s.config = .decoding p) (hk : s.control u ≠ .ret) :
    ∃ s', s.poll p u (s.control u) = some s' := by
  cases h with
  | callee hk' | operands hk' | operand _ hk' =>
    rw [hk']
    exact exists_poll_await
  | thread hk' _ =>
    rw [hk']
    simp only [pthreadJoin, poll]
    split_ifs <;> exact ⟨_, rfl⟩
  | join hk' _ =>
    rw [hk']
    simp only [poll]
    cases s.sent t <;> exact ⟨_, rfl⟩
  | store _ _ hi =>
    exact hi.exists_poll hwf (process_eq hc ▸ hr) (by rw [hc, process_eq hc])
      (Process.debug_addr _) rfl |>.imp fun _ h => process_eq hc ▸ h
  | ret _ _ hk' =>
    have hk' := hk'.resolve_right hk
    rw [hk']
    exact exists_poll_thunk hwf hc hk' fun _ hd => absurd hd List.not_mem_nil

/-- What a run keeps after the call, as long as thread `u` makes no other. -/
structure InJoin (memory : Memory) (s : Machine) (u : ThreadId) (x y : Thunk) (t : ThreadId)
    (retval n : ℕ) : Prop where
  reachable : Reachable (fun _ _ => True) memory s
  seq : n ≤ (s.process.flows u).seq
  joining : s.Joining u x y t retval n
  /-- The wakers have been run. -/
  awake : (.join t, u) ∈ s.wakers → s.sent t = none

theorem sent_of_mem_wakers (h : (.join t, u) ∈ s.wake.wakers) : s.sent t = none := by
  have hf := (List.mem_filter.mp h).2
  simpa [fires] using hf

theorem InJoin.act {a : MachineAction} (h : InJoin memory s u x y t retval n)
    (hthread : NativeInput.u64.Reads s.process x t)
    (hretval : NativeInput.addr.Reads s.process y retval) (hx : retval < 2 ^ 64)
    (hcall : ∀ c, a ≠ .call u c) (ha : s.act a = some s') : InJoin memory s' u x y t retval n := by
  have hwf := h.reachable.wf
  have hreach := h.reachable.act trivial ha
  obtain ⟨-, s₁, hs₁, rfl⟩ := act_eq_some ha
  have hs := performed_of_perform hs₁
  have hf := hwf.frame hs
  refine ⟨hreach, h.seq.trans (hf.grows.decoded u).length_le, Joining.wake ?_, sent_of_mem_wakers⟩
  by_cases hu : actor a = some u
  · cases hs with
    | main _ _ | pass _ | choose _ => cases hu
    | enter _ _ _ _ =>
      cases hu
      exact absurd rfl (hcall _)
    | poll hc hr hs =>
      cases hu
      have hp := process_eq hc
      exact (h.joining.polled hwf (hp ▸ h.reachable.recorded) hc hr (hp ▸ hthread) (hp ▸ hretval)
        hx (hp ▸ h.seq) hs).1
  · have hlt := (hwf.lt_of_control h.joining.control_ne_done).1
    obtain ⟨hready, hwakers⟩ := hs.ready hlt hu
    exact h.joining.mono (hf.control u hlt hu) hf.sent hf.grows hready.trans
      fun w hw => .inr (hwakers w hw)

theorem extends_of_run (h : Reachable (fun _ _ => True) memory s) {l : List MachineAction}
    (hr : s.run l = some s') : s.process.Extends s'.process := by
  have hstep : ∀ {r r' : Machine} {a}, (r.WF ∧ s.process.Extends r.process) →
      r.act a = some r' → r'.WF ∧ s.process.Extends r'.process := by
    rintro r r' a ⟨hwf, hext⟩ ha
    obtain ⟨-, r₁, hr₁, rfl⟩ := act_eq_some ha
    have hgrows := (hwf.frame (performed_of_perform hr₁)).grows
    exact ⟨hwf.act ha, hext.trans hgrows.toExtends⟩
  exact (run_invariant hstep hr ⟨h.wf, .refl _⟩).2

theorem InJoin.run {l : List MachineAction} (h : InJoin memory s u x y t retval n)
    (hthread : NativeInput.u64.Reads s'.process x t)
    (hretval : NativeInput.addr.Reads s'.process y retval) (hx : retval < 2 ^ 64)
    (hcall : ∀ c, .call u c ∉ l) (hr : s.run l = some s') :
    InJoin memory s' u x y t retval n := by
  induction l generalizing s with
  | nil =>
    cases hr
    exact h
  | cons a l ih =>
    have hext := extends_of_run h.reachable hr
    obtain ⟨s₁, hs₁, hr⟩ := Option.bind_eq_some_iff.mp hr
    refine ih (h.act (hthread.of_extends hext) (hretval.of_extends hext) hx
      (fun c hc => hcall c (hc ▸ List.mem_cons_self)) hs₁) (fun c hc => ?_) hr
    exact hcall c (List.mem_cons_of_mem _ hc)

theorem InJoin.progress (h : InJoin memory s u x y t retval n)
    (hthread : NativeInput.u64.Reads s.process x t)
    (hretval : NativeInput.addr.Reads s.process y retval) (hx : retval < 2 ^ 64)
    (hc : s.config = .decoding s.process) (hready : s.ready u) (hk : s.control u ≠ .ret) :
    ∃ s', s.perform (.poll u) = some s' ∧ (s'.failure = none →
      s'.ready u = false ∨ (s'.control u).left < (s.control u).left) := by
  have hwf := h.reachable.wf
  have hrec := h.reachable.recorded
  obtain ⟨s', hs'⟩ := h.joining.exists_poll hwf hrec hc hk
  have hperform : s.perform (.poll u) = some s' := by
    unfold perform
    rw [hc]
    simp only [hready, if_true, hs']
  refine ⟨s', hperform, fun hf' => ?_⟩
  rcases (h.joining.polled hwf hrec hc hready hthread hretval hx h.seq (polled_of_poll hs')).2 with
    ⟨-, hleft⟩ | ⟨-, hfail⟩
  · exact hleft
  · exact absurd hf' hfail

/-- Once the thread has finished, the call waits for nothing but its operands and its own
store. -/
theorem InJoin.waits (h : InJoin memory s u x y t retval n) (hsent : s.sent t ≠ none)
    (hk : s.control u ≠ .ret) :
    s.ready u = true ∨ (s.control u).decodes ∨ (s.control u).polls.isSome := by
  cases h.joining with
  | callee hk' | operands hk' | operand _ hk' =>
    refine .inr (.inr ?_)
    rw [hk']
    rfl
  | thread _ hr => exact .inl hr
  | join _ hr => exact .inl (hr.resolve_right fun hw => hsent (h.awake hw))
  | store _ _ hi =>
    refine .inr ?_
    generalize s.control u = k at hi
    cases hi with
    | address | value _ | store _ _ => exact .inl rfl
    | await _ _ _ => exact .inr rfl
  | ret _ _ hk' =>
    rw [hk'.resolve_right hk]
    exact .inr (.inl rfl)

theorem InJoin.stored (h : InJoin memory s u x y t retval n) (hk : s.control u = .ret) :
    ∃ v, s.sent t = some v ∧
      (retval ≠ 0 → s.process.Stored u n retval (Process.addr v)) := by
  cases h.joining with
  | callee hk' | operands hk' | operand _ hk' | thread hk' _ | join hk' _ =>
    exact nomatch hk.symm.trans hk'
  | store _ _ hi =>
    rw [hk] at hi
    cases hi
  | ret hv hst _ => exact ⟨_, hv, hst⟩

end Joining

end Machine
end AtomicSim
