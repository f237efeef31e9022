import AtomicSim.Native.Points

namespace AtomicSim

def acquireExchange (m : ℕ) : Exchange := ⟨m, unlocked, locked, .acquire, .relaxed⟩

def releaseExchange (m : ℕ) : Exchange := ⟨m, locked, unlocked, .release, .relaxed⟩

/-- The assertion of `mutex_lock_acquire`. -/
def acquired (m : ℕ) (k : Task) (result : ℕ × Bool) : Task :=
  if (unlocked, true) = result then k else .panic (.mutexLockAcquire m)

/-- The assertion of `mutex_lock_release`. -/
def released (m : ℕ) (k : Task) (result : ℕ × Bool) : Task :=
  if (locked, true) = result then k else .panic (.mutexLockRelease m)

theorem mutexLockAcquire_eq (m : ℕ) (k : Task) :
    mutexLockAcquire m k = (acquireExchange m).task (acquired m k) := rfl

theorem mutexLockRelease_eq (m : ℕ) (k : Task) :
    mutexLockRelease m k = (releaseExchange m).task (released m k) := rfl

/-- The calls of `pthread_mutex_trylock`, `pthread_mutex_lock` and `pthread_mutex_unlock`. -/
def Call.OnMutex (m : ℕ) : Call → Prop
  | mutexTrylock n | mutexLock n | mutexUnlock n => n = m
  | _ => False

instance (m : ℕ) : DecidablePred (Call.OnMutex m)
  | .mutexTrylock n | .mutexLock n | .mutexUnlock n => inferInstanceAs (Decidable (n = m))
  | .mutexInit _ | .condWait _ _ | .condBroadcast _ | .condSignal _ | .create _ _ | .join _ _
  | .decode _ | .await _ | .threadLocal _ _ | .exit _ => inferInstanceAs (Decidable False)

/-- The calls that lock or unlock the mutex: those on it, and `pthread_cond_wait` with it. -/
def Call.Uses (m : ℕ) : Call → Prop
  | mutexTrylock n | mutexLock n | mutexUnlock n | condWait _ n => n = m
  | _ => False

instance (m : ℕ) : DecidablePred (Call.Uses m)
  | .mutexTrylock n | .mutexLock n | .mutexUnlock n | .condWait _ n =>
    inferInstanceAs (Decidable (n = m))
  | .mutexInit _ | .condBroadcast _ | .condSignal _ | .create _ _ | .join _ _ | .decode _
  | .await _ | .threadLocal _ _ | .exit _ => inferInstanceAs (Decidable False)

theorem Call.OnMutex.uses {m : ℕ} {c : Call} (h : c.OnMutex m) : c.Uses m := by
  cases c with
  | mutexTrylock n | mutexLock n | mutexUnlock n => exact h
  | mutexInit _ | condWait _ _ | condBroadcast _ | condSignal _ | create _ _ | join _ _
  | decode _ | await _ | threadLocal _ _ | exit _ => exact h.elim

def Failure.OnMutex (m : ℕ) : Failure → Prop
  | mutexLockAcquire n | mutexLockRelease n | unlock n => n = m
  | _ => False

def Task.Avoids (m : ℕ) : Task → Prop
  | .ret | .done | .send _ => True
  | .panic f => ¬ f.OnMutex m
  | .thunk _ k => ∀ d, (k d).Avoids m
  | .await _ k => ∀ v, (k v).Avoids m
  | .threadLocal _ _ k => ∀ ptr, (k ptr).Avoids m
  | .lock n k | .unlock n k | .wait _ n k => n ≠ m ∧ k.Avoids m
  | .tryLock n k => n ≠ m ∧ ∀ b, (k b).Avoids m
  | .receive k | .notify _ k | .notifyAll _ k | .thread _ k => k.Avoids m
  | .addThread _ k => ∀ u, (k u).Avoids m
  | .join _ k => ∀ v, (k v).Avoids m

section Avoids

variable {m n : ℕ} {k : Task}

theorem avoids_nativeReturn (v : ℕ) : (nativeReturn v).Avoids m := fun _ => trivial

theorem avoids_store {address : ℕ} {value : Value} (h : k.Avoids m) :
    (FlowCtx.store address value k).Avoids m := fun _ _ _ _ => h

theorem avoids_exchange {x : Exchange} {k : ℕ × Bool → Task} (h : ∀ r, (k r).Avoids m) :
    (x.task k).Avoids m := by
  intro a e r d output
  dsimp only
  split
  · exact h _
  · exact id

theorem avoids_mutexLockAcquire (hn : n ≠ m) (h : k.Avoids m) :
    (mutexLockAcquire n k).Avoids m := by
  rw [mutexLockAcquire_eq]
  refine avoids_exchange fun r => ?_
  unfold acquired
  split_ifs
  · exact h
  · exact hn

theorem avoids_mutexLockRelease (hn : n ≠ m) (h : k.Avoids m) :
    (mutexLockRelease n k).Avoids m := by
  rw [mutexLockRelease_eq]
  refine avoids_exchange fun r => ?_
  unfold released
  split_ifs
  · exact h
  · exact hn

theorem avoids_pthreadJoin (u : ThreadId) (retval : ℕ) : (pthreadJoin u retval).Avoids m := by
  intro v
  dsimp only
  split_ifs
  · exact avoids_store (avoids_nativeReturn 0)
  · exact avoids_nativeReturn 0

theorem avoids_task {c : Call} (h : ¬ c.Uses m) : c.task.Avoids m := by
  cases c with
  | mutexTrylock n =>
    refine ⟨h, fun b => ?_⟩
    cases b with
    | true => exact avoids_mutexLockAcquire h (avoids_nativeReturn 0)
    | false => exact avoids_nativeReturn 1
  | mutexLock n => exact ⟨h, avoids_mutexLockAcquire h (avoids_nativeReturn 0)⟩
  | mutexUnlock n => exact avoids_mutexLockRelease h ⟨h, avoids_nativeReturn 0⟩
  | mutexInit n => exact avoids_store (avoids_nativeReturn 0)
  | condWait d n =>
    exact avoids_mutexLockRelease h ⟨h, avoids_mutexLockAcquire h (avoids_nativeReturn 0)⟩
  | condBroadcast c | condSignal c => exact avoids_nativeReturn 0
  | create thread arg => exact fun u => avoids_store (avoids_nativeReturn 0)
  | join callee args =>
    exact nativeCall_induction id id (fun _ => avoids_pthreadJoin _ _) fun _ _ _ hk => hk
  | decode a => exact fun _ => trivial
  | await d | exit d => exact fun _ => trivial
  | threadLocal layout value => exact fun _ => trivial

theorem avoids_start (params : List Value) : (Task.start params).Avoids m := by
  induction params with
  | nil => trivial
  | cons v params ih => exact fun _ => ih

end Avoids

namespace Machine

/-- The task is in one of the exchanges of the mutex; `some i` once its thunk is decoded. -/
structure InMutexExchange (s : Machine) (p : Process) (m : ℕ) (t : ThreadId) (x : Exchange)
    (k : ℕ × Bool → Task) (o : Option ℕ) : Prop where
  point : ∃ n ≤ (p.flows t).seq, InExchange p t n x k o (s.control t)
  holds : s.sync.holds t m
  backtrace : ∀ {i}, o = some i → s.backtrace t i = s.call t
  result : ∀ {i v}, o = some i → p.value t i = some v →
    FlowCtx.cmpxchgOutputU64 v = some (x.expected, true)

/-- Where the task of `t` is. The flag says that the word of the mutex is `LOCKED`, and that a
thunk of `t` has made it so. -/
inductive MutexPoint (s : Machine) (p : Process) (m : ℕ) (t : ThreadId) (b : Bool) : Prop
  | elsewhere : (∀ c, s.call t = some c → ¬ c.OnMutex m) → (s.control t).Avoids m →
      (∀ x, s.sync.waiting t ≠ some (x, m)) → b = s.sync.holds t m → MutexPoint s p m t b
  | lock : s.call t = some (.mutexLock m) → s.control t = pthreadMutexLock m →
      b = s.sync.holds t m → MutexPoint s p m t b
  | queued {x : Sender} : s.call t = some (.mutexLock m) →
      s.control t = .receive (mutexLockAcquire m (nativeReturn 0)) →
      s.sync.waiting t = some (x, m) → b = s.sync.holds t m → MutexPoint s p m t b
  | granted : s.call t = some (.mutexLock m) →
      s.control t = .receive (mutexLockAcquire m (nativeReturn 0)) →
      s.sync.waiting t = none → s.sync.holds t m → b = false → MutexPoint s p m t b
  | tryLock : s.call t = some (.mutexTrylock m) → s.control t = pthreadMutexTrylock m →
      b = s.sync.holds t m → MutexPoint s p m t b
  | acquire {c : Call} {o : Option ℕ} : s.call t = some c → c.OnMutex m →
      s.InMutexExchange p m t (acquireExchange m) (acquired m (nativeReturn 0)) o →
      b = (o.bind (p.value t)).isSome → MutexPoint s p m t b
  | release {o : Option ℕ} : s.call t = some (.mutexUnlock m) →
      s.InMutexExchange p m t (releaseExchange m) (released m (.unlock m (nativeReturn 0))) o →
      b = !(o.bind (p.value t)).isSome → MutexPoint s p m t b
  | unlock : s.call t = some (.mutexUnlock m) → s.control t = .unlock m (nativeReturn 0) →
      s.sync.holds t m → b = false → MutexPoint s p m t b
  | returning {c : Call} : s.call t = some c → c.OnMutex m →
      (s.control t = .ret ∨ ∃ v, s.control t = nativeReturn v) → b = s.sync.holds t m →
      MutexPoint s p m t b

section MutexPoint

variable {s s' : Machine} {p q : Process} {m : ℕ} {t : ThreadId} {b : Bool}

theorem InMutexExchange.control_ne {x : Exchange} {k : ℕ × Bool → Task} {o : Option ℕ}
    {task : Task} (h : s.InMutexExchange p m t x k o) (hthunk : ∀ a k, task ≠ .thunk a k)
    (hawait : ∀ d k, task ≠ .await d k) : s.control t ≠ task := by
  obtain ⟨n, -, hx⟩ := h.point
  rintro rfl
  generalize s.control t = task at hx hthunk hawait
  cases hx with
  | address | expected _ | replacement _ _ | thunk _ _ _ => exact hthunk _ _ rfl
  | await _ => exact hawait _ _ rfl

theorem MutexPoint.holds (h : MutexPoint s p m t b) (hb : b = true) : s.sync.holds t m := by
  cases h with
  | elsewhere _ _ _ hb' | lock _ _ hb' | queued _ _ _ hb' | tryLock _ _ hb'
  | returning _ _ _ hb' => exact hb'.symm.trans hb
  | granted _ _ _ hh _ | unlock _ _ hh _ => exact hh
  | acquire _ _ hx _ | release _ hx _ => exact hx.holds

theorem InMutexExchange.mono {x : Exchange} {k : ℕ × Bool → Task} {o : Option ℕ}
    (h : s.InMutexExchange p m t x k o) (hk : s'.control t = s.control t)
    (hcall : s'.call t = s.call t) (hback : s'.backtrace t = s.backtrace t)
    (hext : p.Extends q) (hval : ∀ {i}, o = some i → q.value t i = p.value t i)
    (hholds : s'.sync.holds t m) : s'.InMutexExchange q m t x k o := by
  obtain ⟨n, hn, hx⟩ := h.point
  refine ⟨⟨n, hn.trans (hext.decoded t).length_le, hk ▸ hx.mono hext⟩, hholds, fun ho => ?_,
    fun ho hv => ?_⟩
  · rw [hback, hcall]
    exact h.backtrace ho
  · rw [hval ho] at hv
    exact h.result ho hv

theorem InMutexExchange.exchanges {x : Exchange} {k : ℕ × Bool → Task} {o : Option ℕ}
    (h : s.InMutexExchange p m t x k o) {i : ℕ} (ho : o = some i) :
    ∃ n, p.Exchanges t n x i := by
  subst ho
  obtain ⟨n, -, hx⟩ := h.point
  generalize s.control t = task at hx
  cases hx with
  | await hi => exact ⟨n, hi⟩

/-- What others do leaves a task where it is, except that it may be handed the mutex. -/
theorem MutexPoint.mono (h : MutexPoint s p m t b) (hwf : s.WF)
    (hk : s'.control t = s.control t) (hcall : s'.call t = s.call t)
    (hback : s'.backtrace t = s.backtrace t) (hext : p.Extends q)
    (hval : ∀ c n x i, s.backtrace t i = some c → c.OnMutex m → p.Exchanges t n x i →
      q.value t i = p.value t i)
    (hwoken : Sync.Woken s.sync s'.sync t)
    (hfree : ∀ x, s.sync.waiting t = some (x, m) → s'.sync.waiting t = none →
      s.sync.holds t m = false) : MutexPoint s' q m t b := by
  -- only a task in `receive` can be handed a mutex
  have hidle : (∀ k, s.control t ≠ .receive k) → s'.sync.holds t m = s.sync.holds t m :=
    fun hne => by rw [(hwoken.waiting_eq_none (hwf.waiting_eq_none hne)).2]
  have hvalue : ∀ {c o} {x : Exchange} {k}, s.call t = some c → c.OnMutex m →
      s.InMutexExchange p m t x k o → ∀ {i}, o = some i → q.value t i = p.value t i := by
    intro c o x k hc hm hx i ho
    obtain ⟨n, hn⟩ := hx.exchanges ho
    exact hval c n x i ((hx.backtrace ho).trans hc) hm hn
  have hbind : ∀ {o : Option ℕ}, (∀ {i}, o = some i → q.value t i = p.value t i) →
      o.bind (q.value t) = o.bind (p.value t) :=
    fun h => Option.bind_congr fun i hi => h hi
  have hreceive : ∀ {x : Exchange} {k o}, s.InMutexExchange p m t x k o →
      s'.sync.holds t m := by
    intro x k o hx
    rw [hidle fun k' => hx.control_ne nofun nofun]
    exact hx.holds
  cases h with
  | elsewhere hc ha hw hb =>
    rcases hwoken with ⟨hw', hh⟩ | ⟨x, n, hx, hw', hh⟩
    · exact .elsewhere (hcall ▸ hc) (hk ▸ ha) (hw' ▸ hw) (hb.trans (congrFun hh m).symm)
    -- it is handed another mutex than `m`
    · have hne : m ≠ n := fun hmn => hw x (hmn ▸ hx)
      refine .elsewhere (hcall ▸ hc) (hk ▸ ha) (fun y hy => nomatch hw'.symm.trans hy) ?_
      rw [hh, Function.update_of_ne hne]
      exact hb
  | lock hc hk' hb =>
    exact .lock (hcall.trans hc) (hk.trans hk') (hb.trans (hidle (by rw [hk']; nofun)).symm)
  | @queued x hc hk' hw hb =>
    rcases hwoken with ⟨hw', hh⟩ | ⟨y, n, hy, hw', hh⟩
    · exact .queued (hcall.trans hc) (hk.trans hk') (hw'.trans hw)
        (hb.trans (congrFun hh m).symm)
    · cases hw.symm.trans hy
      -- it is handed `m`, which nobody held
      refine .granted (hcall.trans hc) (hk.trans hk') hw' ?_ (hb.trans (hfree x hw hw'))
      rw [hh, Function.update_self]
  | granted hc hk' hw hh hb =>
    obtain ⟨hw', hh'⟩ := hwoken.waiting_eq_none hw
    exact .granted (hcall.trans hc) (hk.trans hk') hw' (hh' ▸ hh) hb
  | tryLock hc hk' hb =>
    exact .tryLock (hcall.trans hc) (hk.trans hk') (hb.trans (hidle (by rw [hk']; nofun)).symm)
  | acquire hc hm hx hb =>
    refine .acquire (hcall.trans hc) hm
      (hx.mono hk hcall hback hext (hvalue hc hm hx) (hreceive hx)) ?_
    rw [hbind (hvalue hc hm hx)]
    exact hb
  | release hc hx hb =>
    refine .release (hcall.trans hc)
      (hx.mono hk hcall hback hext (hvalue hc rfl hx) (hreceive hx)) ?_
    rw [hbind (hvalue hc rfl hx)]
    exact hb
  | unlock hc hk' hh hb =>
    refine .unlock (hcall.trans hc) (hk.trans hk') ?_ hb
    rw [hidle (by rw [hk']; nofun)]
    exact hh
  | returning hc hm hk' hb =>
    refine .returning (hcall.trans hc) hm (by rwa [hk]) (hb.trans (hidle fun k hr => ?_).symm)
    rcases hk' with hk' | ⟨v, hk'⟩ <;> exact nomatch hr.symm.trans hk'

theorem output_of_result {k : ℕ × Bool → Task} {v : Value} {r : ℕ × Bool}
    (h : FlowCtx.cmpxchgOutputU64 v = some r) : Exchange.output k v = k r := by
  rw [Exchange.output, h]

/-- A step in an exchange stays in it, or it is the last one, after which the assertion
holds. -/
theorem InMutexExchange.polled {x : Exchange} {k : ℕ × Bool → Task} {o : Option ℕ}
    (h : s.InMutexExchange s.process m t x k o) (hwf : s.WF)
    (hc : s.config = .decoding s.process)
    (hs : Polled s s.process t (s.control t) s') :
    s'.sync = s.sync ∧ s'.call = s.call ∧ s'.failure = s.failure ∧
    ((∃ o', s'.InMutexExchange s'.process m t x k o' ∧
        (o'.bind (s'.process.value t)).isSome = (o.bind (s.process.value t)).isSome ∧
        ∀ {j}, o' = some j → o = some j ∨ j = (s.process.flows t).seq) ∨
      ((o.bind (s.process.value t)).isSome = true ∧ s'.control t = k (x.expected, true))) := by
  obtain ⟨n, hn, hx⟩ := h.point
  have hmem : t ∈ s.process.threads := hwf.mem_threads (h.control_ne nofun nofun)
  have hdecoded := fun {a} => Process.decoded_push hmem a
  have hseq : ∀ {a : ThunkArgs}, n ≤ ((s.process.modify t fun f =>
      f.push (a.thunk t (s.process.flows t).seq)).flows t).seq := fun {a} =>
    hn.trans ((hdecoded.extends hwf.process).decoded t).length_le
  have hnone : ∀ {a : ThunkArgs}, (s.process.modify t fun f =>
      f.push (a.thunk t (s.process.flows t).seq)).value t (s.process.flows t).seq = none := by
    intro a
    rw [hdecoded.value hwf.process]
    exact hwf.process.value_seq t
  have hex := hx.polled hwf hc hn rfl hs
  generalize ho : o = o' at hex
  cases hex with
  | suspend =>
    subst ho
    exact ⟨rfl, rfl, rfl, .inl ⟨o, ⟨h.point, h.holds, h.backtrace, h.result⟩, rfl, .inl⟩⟩
  | constant hx' =>
    subst ho
    refine ⟨rfl, rfl, rfl, .inl ⟨none, ⟨⟨n, hseq, ?_⟩, h.holds, nofun, nofun⟩, rfl, nofun⟩⟩
    rw [control_goto]
    exact hx'
  | thunk hx' =>
    subst ho
    refine ⟨rfl, rfl, rfl, .inl ⟨some (s.process.flows t).seq,
      ⟨⟨n, hseq, ?_⟩, h.holds, fun ho => ?_, fun ho hv => ?_⟩, ?_,
      fun ho => .inr (Option.some.inj ho).symm⟩⟩
    · rw [control_goto]
      exact .await hx'
    · cases ho
      show Function.update s.backtrace t _ t _ = s.call t
      rw [Function.update_self, Function.update_self]
    · cases ho
      exact nomatch hnone.symm.trans hv
    · exact congrArg Option.isSome hnone
  | output hv =>
    subst ho
    refine ⟨rfl, rfl, rfl, .inr ⟨?_, ?_⟩⟩
    · simp [hv]
    · rw [control_goto, output_of_result (h.result rfl hv)]

theorem MutexPoint.polled_elsewhere (hcall : ∀ c, s.call t = some c → ¬ c.OnMutex m)
    (ha : (s.control t).Avoids m) (hw : ∀ x, s.sync.waiting t ≠ some (x, m)) (hwf : s.WF)
    (hs : Polled s p t (s.control t) s') : MutexPoint s' q m t (s.sync.holds t m) ∧
      ∀ f, s'.failure = some f → s.failure = some f ∨ ¬ f.OnMutex m := by
  have hold : ∀ {f}, s.failure = some f → s.failure = some f ∨ ¬ f.OnMutex m := .inl
  generalize hk : s.control t = k at hs ha
  have hidle : (∀ k', k ≠ .receive k') → s.sync.waiting t = none :=
    fun hne => hwf.waiting_eq_none fun k' => hk ▸ hne k'
  have hgoto : ∀ {r : Machine} {k}, r.call t = s.call t → k.Avoids m →
      (∀ x, r.sync.waiting t ≠ some (x, m)) → r.sync.holds t m = s.sync.holds t m →
      MutexPoint (r.goto t k) q m t (s.sync.holds t m) := by
    intro r k hc hk hw hh
    exact .elsewhere (fun c h => hcall c (hc.symm.trans h)) (by rwa [control_goto]) hw hh.symm
  cases hs with
  | fail hf =>
    refine ⟨.elsewhere hcall (hk ▸ ha) hw rfl, fun f hf' => ?_⟩
    cases hf'
    right
    cases hf with
    | panic => exact ha
    | unlock _ => exact ha.1
    | wait _ => exact ha.1
    | await _ | thread _ => exact id
  | suspend _ | full _ => exact ⟨.elsewhere hcall (hk ▸ ha) hw rfl, fun _ => hold⟩
  | decode _ | store | await _ | join _ | spawn =>
    exact ⟨hgoto rfl (ha _) hw rfl, fun _ => hold⟩
  | receive _ | thread _ => exact ⟨hgoto rfl ha hw rfl, fun _ => hold⟩
  -- from here on the task touches a mutex or a condition, but not `m`
  | @lock n _ =>
    obtain ⟨hlocked, hfree⟩ := s.sync.lock_self t n
    cases hl : (s.sync.mutexes n).locked with
    | true =>
      obtain ⟨hw', hh⟩ := hlocked hl
      refine ⟨hgoto rfl ha.2 (fun x hx => ?_) (congrFun₂ hh t m), fun _ => hold⟩
      cases hw'.symm.trans hx
      exact ha.1 rfl
    | false =>
      obtain ⟨hw', hh⟩ := hfree hl
      refine ⟨hgoto rfl ha.2 (fun x hx => hw x (hw' ▸ hx)) ?_, fun _ => hold⟩
      exact (congrFun hh m).trans (Function.update_of_ne ha.1.symm _ _)
  | @tryLock n _ =>
    obtain ⟨hlocked, hfree⟩ := s.sync.tryLock_self t n
    refine ⟨hgoto rfl (ha.2 _) (fun x hx => hw x ?_) ?_, fun _ => hold⟩
    · rwa [show (s.setSync (s.sync.tryLock t n)).sync.waiting = s.sync.waiting from
        Sync.waiting_tryLock _ _ _] at hx
    · cases hl : (s.sync.mutexes n).locked with
      | true => rw [show s.sync.tryLock t n = s.sync from (hlocked hl).1]; rfl
      | false => exact (congrFun (hfree hl).1 m).trans (Function.update_of_ne ha.1.symm _ _)
  | unlock hu =>
    obtain ⟨hw', hh⟩ := (Sync.woken_unlock (u := t) hu).2 (hidle nofun)
    refine ⟨hgoto rfl ha.2 (fun x hx => nomatch hw'.symm.trans hx) ?_, fun _ => hold⟩
    exact (congrFun hh m).trans (Function.update_of_ne ha.1.symm _ _)
  | wait hu =>
    obtain ⟨hh, hw', -⟩ := Sync.parked_wait hu (hidle nofun)
    refine ⟨hgoto rfl ha.2 (fun x hx => ?_) ?_, fun _ => hold⟩
    · cases hw'.symm.trans hx
      exact ha.1 rfl
    · exact (congrFun hh m).trans (Function.update_of_ne ha.1.symm _ _)
  | @notify c _ =>
    obtain ⟨hw', hh⟩ := (Sync.woken_notify s.sync c t).waiting_eq_none (hidle nofun)
    exact ⟨hgoto rfl ha (fun x hx => nomatch hw'.symm.trans hx) (congrFun hh m), fun _ => hold⟩
  | @notifyAll c _ =>
    obtain ⟨hw', hh⟩ := (Sync.woken_notifyAll s.sync c t).waiting_eq_none (hidle nofun)
    exact ⟨hgoto rfl ha (fun x hx => nomatch hw'.symm.trans hx) (congrFun hh m), fun _ => hold⟩
  | finish _ =>
    refine ⟨.elsewhere hcall ?_ hw rfl, fun _ => hold⟩
    rw [show (s.finish _ t _).control t = .done from Function.update_self _ _ _]
    trivial

theorem inMutexExchange_start {x : Exchange} {k : ℕ × Bool → Task} (hk : s.control t = x.task k)
    (hh : s.sync.holds t m) : s.InMutexExchange p m t x k none :=
  ⟨⟨_, le_rfl, hk ▸ .address⟩, hh, nofun, nofun⟩

theorem polled_lock (hcall : s.call t = some (.mutexLock m)) (hb : b = s.sync.holds t m)
    (hidle : s.sync.waiting t = none) (hplain : s.sync.Plain m) :
    MutexPoint ((s.setSync (s.sync.lock t m)).goto t
      (.receive (mutexLockAcquire m (nativeReturn 0)))) p m t b := by
  obtain ⟨hlocked, hfree⟩ := s.sync.lock_self t m
  cases hl : (s.sync.mutexes m).locked with
  | true =>
    obtain ⟨hw, hh⟩ := hlocked hl
    exact .queued hcall (control_goto _ _ _) hw (hb.trans (congrFun₂ hh t m).symm)
  | false =>
    obtain ⟨hw, hh⟩ := hfree hl
    refine .granted hcall (control_goto _ _ _) ((congrFun hw t).trans hidle) ?_
      (hb.trans (hplain.holds_eq_false hl t))
    exact (congrFun hh m).trans (Function.update_self _ _ _)

theorem polled_tryLock (hcall : s.call t = some (.mutexTrylock m)) (hb : b = s.sync.holds t m)
    (hplain : s.sync.Plain m) :
    MutexPoint ((s.setSync (s.sync.tryLock t m)).goto t
      (if (s.sync.mutexes m).tryLock.1 then mutexLockAcquire m (nativeReturn 0)
        else nativeReturn 1)) p m t b := by
  obtain ⟨hlocked, hfree⟩ := s.sync.tryLock_self t m
  cases hl : (s.sync.mutexes m).locked with
  | true =>
    obtain ⟨hsame, hflag⟩ := hlocked hl
    rw [hflag, hsame]
    exact .returning hcall rfl (.inr ⟨1, control_goto _ _ _⟩) hb
  | false =>
    obtain ⟨hh, hflag⟩ := hfree hl
    rw [hflag]
    refine .acquire hcall rfl (inMutexExchange_start (control_goto _ _ _) ?_)
      (hb.trans (hplain.holds_eq_false hl t))
    exact (congrFun hh m).trans (Function.update_self _ _ _)

theorem unlock_ne_none (hplain : s.sync.Plain m) (hh : s.sync.holds t m) :
    s.sync.unlock t m ≠ none := by
  have hl := hplain.locked.mpr ⟨t, hh⟩
  unfold Sync.unlock MutexInner.unlock
  rw [if_pos hl]
  cases (s.sync.mutexes m).queue <;> nofun

/-- No poll of a task changes whether the word is `LOCKED` for it, and none fails an assertion
about the mutex. -/
theorem MutexPoint.polled (h : MutexPoint s s.process m t b) (hwf : s.WF)
    (hplain : s.sync.Plain m) (hc : s.config = .decoding s.process)
    (hs : Polled s s.process t (s.control t) s') : MutexPoint s' s'.process m t b ∧
      ∀ f, s'.failure = some f → s.failure = some f ∨ ¬ f.OnMutex m := by
  have hold : ∀ {f}, s.failure = some f → s.failure = some f ∨ ¬ f.OnMutex m := .inl
  cases h with
  | elsewhere hcall ha hw hb => exact hb ▸ polled_elsewhere hcall ha hw hwf hs
  | lock hcall hk hb =>
    have hidle := hwf.waiting_eq_none (t := t) (by rw [hk]; nofun)
    rw [hk] at hs
    cases hs with
    | fail hf => cases hf
    | suspend hf => cases hf
    | lock => exact ⟨polled_lock hcall hb hidle hplain, fun _ => hold⟩
  | queued hcall hk hw hb =>
    rw [hk] at hs
    cases hs with
    | fail hf => cases hf
    | suspend _ => exact ⟨.queued hcall hk hw hb, fun _ => hold⟩
    | receive hn => exact nomatch hw.symm.trans hn
  | granted hcall hk hw hh hb =>
    rw [hk] at hs
    cases hs with
    | fail hf => cases hf
    | suspend _ => exact ⟨.granted hcall hk hw hh hb, fun _ => hold⟩
    | receive _ =>
      exact ⟨.acquire hcall rfl (inMutexExchange_start (control_goto _ _ _) hh) hb, fun _ => hold⟩
  | tryLock hcall hk hb =>
    rw [hk] at hs
    cases hs with
    | fail hf => cases hf
    | suspend hf => cases hf
    | tryLock => exact ⟨polled_tryLock hcall hb hplain, fun _ => hold⟩
  -- an exchange goes on, or it is over and the word is as it was to be
  | acquire hcall hm hx hb =>
    obtain ⟨hsync, hcall', hf, ⟨o', hx', ho', -⟩ | ⟨hsome, hk⟩⟩ := hx.polled hwf hc hs
    · exact ⟨.acquire (hcall' ▸ hcall) hm hx' (hb.trans ho'.symm), fun _ h => hold (hf ▸ h)⟩
    · refine ⟨.returning (hcall' ▸ hcall) hm (.inr ⟨0, hk⟩) ?_, fun _ h => hold (hf ▸ h)⟩
      rw [hsync, hx.holds]
      exact hb.trans hsome
  | release hcall hx hb =>
    obtain ⟨hsync, hcall', hf, ⟨o', hx', ho', -⟩ | ⟨hsome, hk⟩⟩ := hx.polled hwf hc hs
    · exact ⟨.release (hcall' ▸ hcall) hx' (hb.trans (by rw [ho'])), fun _ h => hold (hf ▸ h)⟩
    · refine ⟨.unlock (hcall' ▸ hcall) hk ?_ ?_, fun _ h => hold (hf ▸ h)⟩
      · rw [hsync]
        exact hx.holds
      · rw [hb, hsome]
        rfl
  | unlock hcall hk hh hb =>
    rw [hk] at hs
    cases hs with
    | fail hf =>
      cases hf with
      | unlock hnone => exact absurd hnone (unlock_ne_none hplain hh)
    | suspend hf => cases hf
    | unlock hu =>
      obtain ⟨-, hh'⟩ := (Sync.woken_unlock (u := t) hu).2 (hwf.waiting_eq_none (by rw [hk]; nofun))
      refine ⟨.returning hcall rfl (.inr ⟨0, control_goto _ _ _⟩) (hb.trans ?_), fun _ => hold⟩
      exact ((congrFun hh' m).trans (Function.update_self _ _ _)).symm
  | returning hcall hm hk hb =>
    rcases hk with hk | ⟨v, hk⟩
    · rw [hk] at hs
      cases hs with
      | fail hf => cases hf
      | suspend hf => cases hf
    · rw [hk] at hs
      rcases polled_thunk hs with rfl | rfl
      · exact ⟨.returning hcall hm (.inr ⟨v, hk⟩) hb, fun _ => hold⟩
      · exact ⟨.returning hcall hm (.inl (control_goto _ _ _)) hb, fun _ => hold⟩

/-- The next call of a task, made by the holder if it is `pthread_mutex_unlock`. -/
theorem MutexPoint.enter (h : MutexPoint s p m t b) (hwf : s.WF) (hk : s.control t = .ret)
    {c : Call} (hholds : c = .mutexUnlock m → s.sync.holds t m)
    (hwait : c.Uses m → c.OnMutex m) : MutexPoint { s with
      control := Function.update s.control t c.task
      call := Function.update s.call t (some c) } p m t b := by
  have hb : b = s.sync.holds t m := by
    cases h with
    | elsewhere _ _ _ hb => exact hb
    | returning _ _ _ hb => exact hb
    | lock _ hk' _ | queued _ hk' _ _ | granted _ hk' _ _ _ | tryLock _ hk' _
    | unlock _ hk' _ _ => exact nomatch hk.symm.trans hk'
    | acquire _ _ hx _ | release _ hx _ => exact absurd hk (hx.control_ne nofun nofun)
  have hw : s.sync.waiting t = none := hwf.waiting_eq_none (by rw [hk]; nofun)
  have hcall : Function.update s.call t (some c) t = some c := Function.update_self _ _ _
  have hcontrol : Function.update s.control t c.task t = c.task := Function.update_self _ _ _
  by_cases hm : c.OnMutex m
  · cases c with
    | mutexTrylock n =>
      cases hm
      exact .tryLock hcall hcontrol hb
    | mutexLock n =>
      cases hm
      exact .lock hcall hcontrol hb
    | mutexUnlock n =>
      cases hm
      refine .release hcall (inMutexExchange_start hcontrol (hholds rfl)) ?_
      exact hb.trans (hholds rfl)
    | mutexInit _ | condWait _ _ | condBroadcast _ | condSignal _ | create _ _ | join _ _
    | decode _ | await _ | threadLocal _ _ | exit _ => exact hm.elim
  · refine .elsewhere (fun c' h => ?_) ?_ (fun x hx => nomatch hw.symm.trans hx) hb
    · cases hcall.symm.trans h
      exact hm
    · show (Function.update s.control t c.task t).Avoids m
      rw [hcontrol]
      exact avoids_task fun hu => hm (hwait hu)

end MutexPoint

end Machine
end AtomicSim
