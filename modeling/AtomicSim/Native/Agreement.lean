import AtomicSim.Native.Mutex

namespace AtomicSim

/-- The last event that changed the word of the mutex is one of `t`, and it is that of locking
the mutex. -/
def Process.SetBy (p : Process) (m : ℕ) (t : ThreadId) : Prop :=
  ∃ l₁ i v n n' l₂, p.log = l₁ ++ .res t i v n n' :: l₂ ∧ n.number m 64 = unlocked ∧
    n'.number m 64 = locked ∧ ∀ e ∈ l₂, e.after.number m 64 = locked

theorem Process.SetBy.append {p q : Process} {m : ℕ} {t : ThreadId} {e : Event}
    (h : p.SetBy m t) (hq : q.log = p.log ++ [e]) (he : e.after.number m 64 = locked) :
    q.SetBy m t := by
  obtain ⟨l₁, i, v, n, n', l₂, hlog, hn, hn', hl⟩ := h
  refine ⟨l₁, i, v, n, n', l₂ ++ [e], by rw [hq, hlog]; simp, hn, hn', fun e' he' => ?_⟩
  rcases List.mem_append.mp he' with he' | he'
  · exact hl e' he'
  · rw [List.mem_singleton.mp he']
    exact he

namespace Machine

/-- From the `k`-th event on, only the thunks of calls on the mutex change its word. -/
def OnlyMutex (s : Machine) (p : Process) (m k : ℕ) : Prop :=
  ∀ e ∈ p.log.drop k, (∀ x ∈ e.id, ∀ c ∈ s.backtrace x.1 x.2, ¬ c.OnMutex m) →
    ∀ y, m ≤ y → y < m + 8 → e.after.byteAt y = e.before.byteAt y

instance (s : Machine) (p : Process) (m k : ℕ) : Decidable (s.OnlyMutex p m k) :=
  inferInstanceAs (Decidable (∀ e ∈ p.log.drop k, _))

/-- The holder of the mutex is the only one to unlock it, and nobody waits with it on a
condition variable. -/
def ByHolder (m : ℕ) (s : Machine) : MachineAction → Prop
  | .call t (.mutexUnlock n) => n = m → s.sync.holds t m
  | .call _ (.condWait _ n) => n ≠ m
  | _ => True

instance (m : ℕ) (s : Machine) : DecidablePred (ByHolder m s)
  | .call t (.mutexUnlock n) => inferInstanceAs (Decidable (n = m → s.sync.holds t m = true))
  | .call _ (.condWait _ n) => inferInstanceAs (Decidable (n ≠ m))
  | .call _ (.mutexTrylock _) | .call _ (.mutexLock _) | .call _ (.mutexInit _)
  | .call _ (.condBroadcast _) | .call _ (.condSignal _) | .call _ (.create _ _)
  | .call _ (.join _ _) | .call _ (.decode _) | .call _ (.await _) | .call _ (.threadLocal _ _)
  | .call _ (.exit _) | .addMain | .poll _ | .pass | .choose _ => inferInstanceAs (Decidable True)

/-- The mutex is not locked, unlocked or waited with. -/
def Unused (m : ℕ) (_ : Machine) : MachineAction → Prop
  | .call _ c => ¬ c.Uses m
  | _ => True

instance (m : ℕ) (s : Machine) : DecidablePred (Unused m s)
  | .call _ c => inferInstanceAs (Decidable (¬ c.Uses m))
  | .addMain | .poll _ | .pass | .choose _ => inferInstanceAs (Decidable True)

section OnlyMutex

variable {s s' : Machine} {p q : Process} {m k : ℕ}

theorem OnlyMutex.of_prefix (h : s.OnlyMutex q m k) (hlog : p.log <+: q.log) :
    s.OnlyMutex p m k :=
  fun e he => h e ((hlog.drop k).subset he)

theorem OnlyMutex.mono (h : s'.OnlyMutex q m k) (hp : p.WF) (hlog : p.log <+: q.log)
    (hback : ∀ t i, p.value t i ≠ none → s'.backtrace t i = s.backtrace t i) :
    s.OnlyMutex p m k := by
  intro e he hcalls
  refine h e ((hlog.drop k).subset he) fun x hx c hc => hcalls x hx c ?_
  cases e with
  | store n n' => cases hx
  | res t i v n n' =>
    cases hx
    rwa [← hback t i]
    rw [hp.logged.mpr ⟨n, n', List.mem_of_mem_drop he⟩]
    nofun

theorem OnlyMutex.number_eq {e : Event} (h : s.OnlyMutex q m k) (hq : q.log = p.log ++ [e])
    (hk : k ≤ p.log.length) (he : ∀ x ∈ e.id, ∀ c ∈ s.backtrace x.1 x.2, ¬ c.OnMutex m) :
    e.after.number m 64 = e.before.number m 64 := by
  refine number_congr (by decide) (h e ?_ he)
  rw [hq, List.drop_append_of_le_length hk]
  exact List.mem_append_right _ (List.mem_singleton_self e)

end OnlyMutex

/-- The word of the mutex is `LOCKED` for the tasks with the flag. -/
structure Agrees (s : Machine) (p : Process) (m : ℕ) (own : ThreadId → Bool) : Prop where
  point : ∀ t, MutexPoint s p m t (own t)
  free : (∀ t, own t = false) → p.memory.number m 64 = unlocked
  owned : ∀ {t}, own t → p.memory.number m 64 = locked ∧ p.SetBy m t

/-- What is true of the mutex and its word. -/
structure MutexGood (s : Machine) (p : Process) (m : ℕ) : Prop where
  plain : s.sync.Plain m
  /-- A thunk of a call on the mutex is a constant, has its value or is awaited. -/
  thunks : ∀ {t i c}, s.backtrace t i = some c → c.OnMutex m →
    (∃ v, (p.flows t).decoded[i]? = some ((DataFlow.constant v).thunk t i)) ∨
    p.value t i ≠ none ∨ (s.call t = some c ∧ ∃ k, s.control t = .await (.cell t i) k)
  agrees : ∃ own, s.Agrees p m own
  failure : ∀ f, s.failure = some f → ¬ f.OnMutex m

section Word

variable {s s' : Machine} {p q : Process} {m : ℕ} {t : ThreadId} {own : ThreadId → Bool}

/-- With the task of `t` holding the mutex, the word tells where that task is. -/
theorem Agrees.number_eq (h : s.Agrees p m own) (hp : s.sync.Plain m) (ht : s.sync.holds t m) :
    p.memory.number m 64 = if own t then locked else unlocked := by
  split_ifs with hb
  · exact (h.owned hb).1
  · refine h.free fun u => ?_
    by_contra hu
    have hu : own u = true := by simpa using hu
    exact hb (hp.exclusive ((h.point u).holds hu) ht ▸ hu)

theorem Agrees.keep {e : Event} (h : s.Agrees p m own) (hwf : s.WF) (hext : p.Extends q)
    (hlog : q.log = p.log ++ [e]) (he : e.after = q.memory)
    (hnum : q.memory.number m 64 = p.memory.number m 64)
    (hval : ∀ t c n x i, s.backtrace t i = some c → c.OnMutex m → p.Exchanges t n x i →
      q.value t i = p.value t i) : s.Agrees q m own where
  point t := (h.point t).mono hwf rfl rfl rfl hext (hval t) (.of_eq rfl rfl)
    fun _ hw hn => nomatch hn.symm.trans hw
  free hfree := hnum.trans (h.free hfree)
  owned ht := by
    obtain ⟨hl, hset⟩ := h.owned ht
    rw [← hnum, ← he] at hl
    exact ⟨he ▸ hl, hset.append hlog hl⟩

theorem InMutexExchange.resolve {x : Exchange} {k : ℕ × Bool → Task} {i : ℕ} {v : Value}
    (h : s.InMutexExchange p m t x k (some i)) (hext : p.Extends q) (hv : q.value t i = some v)
    (hout : FlowCtx.cmpxchgOutputU64 v = some (x.expected, true)) :
    s.InMutexExchange q m t x k (some i) := by
  obtain ⟨n, hn, hx⟩ := h.point
  refine ⟨⟨n, hn.trans (hext.decoded t).length_le, hx.mono hext⟩, h.holds, h.backtrace,
    fun ho hv' => ?_⟩
  cases ho
  cases hv.symm.trans hv'
  exact hout

theorem MutexPoint.awaits {b : Bool} {c : Call} {i : ℕ} {k : Value → Task}
    (h : MutexPoint s p m t b) (hcall : s.call t = some c) (hm : c.OnMutex m)
    (hk : s.control t = .await (.cell t i) k) :
    (s.InMutexExchange p m t (acquireExchange m) (acquired m (nativeReturn 0)) (some i) ∧
      b = (p.value t i).isSome) ∨
    (s.call t = some (.mutexUnlock m) ∧ s.InMutexExchange p m t (releaseExchange m)
      (released m (.unlock m (nativeReturn 0))) (some i) ∧ b = !(p.value t i).isSome) := by
  have hsome : ∀ {x : Exchange} {k o}, s.InMutexExchange p m t x k o → o = some i := by
    intro x k' o hx
    obtain ⟨n, -, hpt⟩ := hx.point
    rw [hk] at hpt
    cases hpt
    rfl
  cases h with
  | elsewhere hc _ _ _ => exact absurd hm (hc c hcall)
  | lock _ hk' _ | queued _ hk' _ _ | granted _ hk' _ _ _ | tryLock _ hk' _
  | unlock _ hk' _ _ => exact nomatch hk.symm.trans hk'
  | acquire _ _ hx hb =>
    cases hsome hx
    exact .inl ⟨hx, hb⟩
  | release hc hx hb =>
    cases hsome hx
    exact .inr ⟨hc, hx, hb⟩
  | returning _ _ hk' _ =>
    rcases hk' with hk' | ⟨v, hk'⟩
    · exact nomatch hk.symm.trans hk'
    · exact nomatch hk.symm.trans hk'

end Word

section Resolve

variable {s : Machine} {p : Process} {m k : ℕ} {own : ThreadId → Bool} {memory n : Memory}
variable {c : ThunkInner} {v : Value}

theorem InMutexExchange.event {x : Exchange} {kx : ℕ × Bool → Task}
    (hx : s.InMutexExchange p m c.threadid x kx (some c.seq)) (hp : p.WF)
    (hdec : (p.flows c.threadid).decoded[c.seq]? = some c)
    (hv : p.value c.threadid c.seq = none) (hr : Recorded memory (p.resolve c v n))
    (haddr : x.address = m) (hm : m < 2 ^ 64) (hexp : x.expected < 2 ^ 64)
    (hrep : x.replacement < 2 ^ 64) (hnum : p.memory.number m 64 = x.expected) :
    s.InMutexExchange (p.resolve c v n) m c.threadid x kx (some c.seq) ∧
      n.number m 64 = x.replacement := by
  subst haddr
  have hext := Process.extends_resolve hv v n
  obtain ⟨j, hj⟩ := hx.exchanges rfl
  have hev : Event.res c.threadid c.seq v p.memory n ∈ (p.resolve c v n).log :=
    List.mem_append_right _ (List.mem_singleton_self _)
  obtain ⟨hout, hrepl, -⟩ :=
    (hj.mono hext).event (Process.wf_resolve hp hdec hv v n) hr hm hexp hrep hev
  rw [hnum, decide_eq_true rfl] at hout
  have hval : (p.resolve c v n).value c.threadid c.seq = some v := by
    rw [Process.value_resolve, if_pos ⟨rfl, rfl⟩]
  exact ⟨hx.resolve hext hval hout, hrepl hnum⟩

theorem unlocked_lt : unlocked < 2 ^ 64 := by decide

theorem locked_lt : locked < 2 ^ 64 := by decide

theorem Agrees.turn (h : s.Agrees p m own) (hwf : s.WF) (hp : s.sync.Plain m)
    (hholds : s.sync.holds c.threadid m) (hv : p.value c.threadid c.seq = none) {b : Bool}
    (hpt : MutexPoint s (p.resolve c v n) m c.threadid b)
    (hold : own c.threadid = !b) (hnum : n.number m 64 = if b then locked else unlocked) :
    s.Agrees (p.resolve c v n) m (Function.update own c.threadid b) := by
  have hext := Process.extends_resolve hv v n
  -- nobody else has the word
  have hothers : ∀ u ≠ c.threadid, own u = false := fun u hu => by
    by_contra hb
    have hb : own u = true := by simpa using hb
    exact hu (hp.exclusive ((h.point u).holds hb) hholds)
  refine ⟨fun u => ?_, fun hfree => ?_, fun {u} hu => ?_⟩
  · by_cases hu : u = c.threadid
    · subst hu
      rw [Function.update_self]
      exact hpt
    · rw [Function.update_of_ne hu]
      refine (h.point u).mono hwf rfl rfl rfl hext (fun _ _ _ i _ _ _ => ?_) (.of_eq rfl rfl)
        fun _ hw hn => nomatch hn.symm.trans hw
      rw [Process.value_resolve, if_neg fun hui => hu hui.1]
  · have hb := hfree c.threadid
    rw [Function.update_self] at hb
    show n.number m 64 = unlocked
    rw [hnum, hb]
    rfl
  · by_cases hut : u = c.threadid
    · subst hut
      rw [Function.update_self] at hu
      subst hu
      refine ⟨hnum, p.log, c.seq, v, p.memory, n, [], rfl, ?_, hnum, nofun⟩
      rw [h.number_eq hp hholds, hold]
      rfl
    · rw [Function.update_of_ne hut, hothers u hut] at hu
      cases hu

theorem MutexGood.resolve (h : s.MutexGood p m) (hwf : s.WF) (hp : p.WF)
    (hdec : (p.flows c.threadid).decoded[c.seq]? = some c)
    (hv : p.value c.threadid c.seq = none) {args : List Value}
    (hcomp : c.compute p.memory args = some (v, n)) (hr : Recorded memory (p.resolve c v n))
    (hm : m < 2 ^ 64) (hk : k ≤ p.log.length) (honly : s.OnlyMutex (p.resolve c v n) m k) :
    s.MutexGood (p.resolve c v n) m := by
  have hext := Process.extends_resolve hv v n
  obtain ⟨own, hown⟩ := h.agrees
  have hother : ∀ t i, ¬ (t = c.threadid ∧ i = c.seq) →
      (p.resolve c v n).value t i = p.value t i := fun t i hti => by
    rw [Process.value_resolve, if_neg hti]
  refine ⟨h.plain, fun {t i c'} hb hc' => ?_, ?_, h.failure⟩
  · rcases h.thunks hb hc' with ⟨w, hw⟩ | hval | haw
    · exact .inl ⟨w, by rw [Process.decoded_resolve]; exact hw⟩
    · exact .inr (.inl fun hq => hval (hext.value_none hq))
    · exact .inr (.inr haw)
  -- the thunk is one that a call on the mutex decoded, or one of no concern to it
  by_cases hcall : ∃ c' ∈ s.backtrace c.threadid c.seq, c'.OnMutex m
  · obtain ⟨c', hb, hc'⟩ := hcall
    rcases h.thunks hb hc' with ⟨w, hw⟩ | hval | ⟨hct, kx, hkx⟩
    · -- a constant leaves the memory alone and is not the thunk of an exchange
      have hconst : c = (DataFlow.constant w).thunk c.threadid c.seq :=
        Option.some.inj (hdec.symm.trans hw)
      have hmem : n = p.memory := by
        rw [hconst] at hcomp
        cases hcomp
        rfl
      refine ⟨own, hown.keep hwf hext rfl rfl (by rw [← hmem]; rfl) ?_⟩
      rintro t _ j x i - - ⟨a, e, r, -, -, -, i', -, hi', hdec'⟩
      refine hother t i ?_
      rintro ⟨rfl, rfl⟩
      cases hi'
      cases Option.some.inj (hw.symm.trans hdec')
    · exact absurd hv hval
    · rcases (hown.point c.threadid).awaits hct hc' hkx with ⟨hx, hflag⟩ | ⟨hcu, hx, hflag⟩
      -- the exchange that takes the mutex, and below the one that gives it back
      · rw [hv] at hflag
        have hnum := hown.number_eq h.plain hx.holds
        rw [hflag] at hnum
        obtain ⟨hx', hnum'⟩ :=
          hx.event hp hdec hv hr rfl hm unlocked_lt locked_lt hnum
        refine ⟨_, hown.turn (b := true) hwf h.plain hx.holds hv (.acquire hct hc' hx' ?_)
          hflag hnum'⟩
        simp [Process.value_resolve]
      · rw [hv] at hflag
        have hnum := hown.number_eq h.plain hx.holds
        rw [hflag] at hnum
        obtain ⟨hx', hnum'⟩ :=
          hx.event hp hdec hv hr rfl hm locked_lt unlocked_lt hnum
        refine ⟨_, hown.turn (b := false) hwf h.plain hx.holds hv (.release hcu hx' ?_)
          hflag hnum'⟩
        simp [Process.value_resolve]
  · have hnone : ∀ x ∈ (Event.res c.threadid c.seq v p.memory n).id,
        ∀ c' ∈ s.backtrace x.1 x.2, ¬ c'.OnMutex m := by
      rintro x hx c' hc' hm'
      cases hx
      exact hcall ⟨c', hc', hm'⟩
    have hnum := honly.number_eq (p := p) rfl hk hnone
    refine ⟨own, hown.keep hwf hext rfl rfl hnum ?_⟩
    rintro t c' - - i hb hc' -
    refine hother t i ?_
    rintro ⟨rfl, rfl⟩
    exact hcall ⟨c', hb, hc'⟩

end Resolve

section Actions

variable {s s' : Machine} {p q : Process} {m k : ℕ} {t : ThreadId} {memory : Memory}

theorem MutexGood.congr (h : s.MutexGood p m) (hwf : s.WF) (hcontrol : s'.control = s.control)
    (hcall : s'.call = s.call) (hback : s'.backtrace = s.backtrace) (hsync : s'.sync = s.sync)
    (hf : s'.failure = s.failure) : s'.MutexGood p m := by
  obtain ⟨own, hown⟩ := h.agrees
  refine ⟨hsync ▸ h.plain, fun {t i c} hb hc => ?_, ⟨own, fun t => ?_, hown.free, hown.owned⟩,
    fun f hf' => h.failure f (hf ▸ hf')⟩
  · rw [hcall, hcontrol]
    exact h.thunks (hback ▸ hb) hc
  · refine (hown.point t).mono hwf (congrFun hcontrol t) (congrFun hcall t) (congrFun hback t)
      (.refl p) (fun _ _ _ _ _ _ _ => rfl) ?_ fun x hw hn => ?_
    · rw [hsync]
      exact .of_eq rfl rfl
    · rw [hsync] at hn
      exact nomatch hn.symm.trans hw

theorem MutexGood.same (h : s.MutexGood p m) (hwf : s.WF) (hs : p.Same q) : s.MutexGood q m := by
  have hext : p.Extends q :=
    ⟨fun t => by rw [hs.decoded], fun hv => by rw [hs.value]; exact hv⟩
  obtain ⟨own, hown⟩ := h.agrees
  refine ⟨h.plain, fun {t i c} hb hc => ?_, ⟨own, fun t => ?_, fun hf => ?_, fun {t} ht => ?_⟩,
    h.failure⟩
  · rw [hs.decoded, hs.value]
    exact h.thunks hb hc
  · exact (hown.point t).mono hwf rfl rfl rfl hext (fun _ _ _ _ _ _ _ => by rw [hs.value])
      (.of_eq rfl rfl) fun _ hw hn => nomatch hn.symm.trans hw
  · rw [hs.memory]
    exact hown.free hf
  · rw [hs.memory, Process.SetBy, hs.log]
    exact hown.owned ht

theorem MutexGood.store {n : Memory} (h : s.MutexGood p m) (hwf : s.WF) (hk : k ≤ p.log.length)
    (honly : s.OnlyMutex { p with memory := n, log := p.log ++ [.store p.memory n] } m k) :
    s.MutexGood { p with memory := n, log := p.log ++ [.store p.memory n] } m := by
  obtain ⟨own, hown⟩ := h.agrees
  have hnum := honly.number_eq (p := p) rfl hk nofun
  exact ⟨h.plain, h.thunks, ⟨own, hown.keep hwf ⟨fun _ => List.prefix_rfl, id⟩ rfl rfl hnum
    fun _ _ _ _ _ _ _ _ => rfl⟩, h.failure⟩

theorem MutexGood.processAct (h : s.MutexGood s.process m) (hwf : s.WF)
    (hr : Recorded memory s.process) (hm : m < 2 ^ 64) (hk : k ≤ s.process.log.length)
    {a : Action} {config : Config} (ha : s.config.act a = some config) (hd : ∀ d, a ≠ .decode d)
    (honly : s.OnlyMutex config.process m k) : s.MutexGood config.process m := by
  refine While.act (O := fun p => s.OnlyMutex p m k) (G := fun p => s.MutexGood p m)
    (invariant_while hwf ?_ ?_ ?_ ?_) hwf hr h ha hd honly
  · exact fun _ hlog honly => honly.of_prefix hlog
  · exact fun hs h => h.same hwf hs
  · exact fun hle h honly => h.store hwf (hk.trans hle) honly
  · exact fun hp _ hle hdec hv hcomp _ hr h honly =>
      h.resolve hwf hp hdec hv hcomp hr hm (hk.trans hle) honly

theorem word_of_decoded (hd : p.Decoded q) (hk : k ≤ p.log.length) (honly : s.OnlyMutex q m k) :
    q.memory.number m 64 = p.memory.number m 64 ∧
      ∀ t, p.memory.number m 64 = locked → p.SetBy m t → q.SetBy m t := by
  cases hd with
  | push _ _ | addThread | join _ => exact ⟨rfl, fun _ _ => id⟩
  | store n =>
    have hnum := honly.number_eq (p := p) rfl hk nofun
    exact ⟨hnum, fun t hl hset => hset.append rfl (hnum.trans hl)⟩

theorem MutexPoint.other {b : Bool} {a : MachineAction} (h : MutexPoint s s.process m t b)
    (hwf : s.WF) (hs : Performed s a s') (ht : actor a ≠ some t)
    (hval : s'.process.value = s.process.value)
    (hfree : ∀ x, s.sync.waiting t = some (x, m) → s'.sync.waiting t = none →
      s.sync.holds t m = false) : MutexPoint s' s'.process m t b := by
  have hf := hwf.frame hs
  by_cases hlt : t < s.process.nextThreadid
  · exact h.mono hwf (hf.control t hlt ht) (hf.call t ht) (hf.backtrace t ht) hf.grows.toExtends
      (fun _ _ _ _ _ _ _ => by rw [hval]) (hf.woken t ht) hfree
  · -- the thread is not there yet
    obtain ⟨hdone, hnone⟩ := hwf.fresh t (Nat.not_lt.mp hlt)
    have hb : b = s.sync.holds t m := by
      cases h with
      | elsewhere _ _ _ hb => exact hb
      | lock hc _ _ | queued hc _ _ _ | granted hc _ _ _ _ | tryLock hc _ _ | acquire hc _ _ _
      | release hc _ _ | unlock hc _ _ _ | returning hc _ _ _ => exact nomatch hnone.symm.trans hc
    have hw : s.sync.waiting t = none := hwf.waiting_eq_none (by rw [hdone]; nofun)
    obtain ⟨hw', hh⟩ := (hf.woken t ht).waiting_eq_none hw
    refine .elsewhere (fun c hc => ?_) ?_ (fun x hx => nomatch hw'.symm.trans hx)
      (hb.trans (congrFun hh m).symm)
    · exact nomatch (hnone.symm.trans (hf.call t ht).symm).trans hc
    · rcases hwf.control_fresh hs (Nat.not_lt.mp hlt) with hk | ⟨params, hk⟩
      · rw [hk]
        trivial
      · rw [hk]
        exact avoids_start params

/-- An action of the tasks keeps what is true of the mutex if it does so for the task that
takes it. -/
theorem MutexGood.move {a : MachineAction} (h : s.MutexGood s.process m) (hwf : s.WF)
    (hs : Performed s a s') (hdec : s'.process = s.process ∨ s.process.Decoded s'.process)
    (hk : k ≤ s.process.log.length) (honly : s'.OnlyMutex s'.process m k)
    (hplain : s'.sync.Plain m)
    (hfree : ∀ u x, actor a ≠ some u → s.sync.waiting u = some (x, m) →
      s'.sync.waiting u = none → s.sync.holds u m = false)
    (hself : ∀ t b, actor a = some t → MutexPoint s s.process m t b →
      MutexPoint s' s'.process m t b)
    (hthunks : ∀ t, actor a = some t → ∀ i c, s'.backtrace t i = some c → c.OnMutex m →
      (∃ v, (s'.process.flows t).decoded[i]? = some ((DataFlow.constant v).thunk t i)) ∨
      s'.process.value t i ≠ none ∨
        (s'.call t = some c ∧ ∃ k, s'.control t = .await (.cell t i) k))
    (hfail : ∀ f, s'.failure = some f → ¬ f.OnMutex m) : s'.MutexGood s'.process m := by
  have hf := hwf.frame hs
  have hval := hwf.value_of_decoded hdec
  obtain ⟨hnum, hset⟩ : s'.process.memory.number m 64 = s.process.memory.number m 64 ∧
      ∀ t, s.process.memory.number m 64 = locked → s.process.SetBy m t →
        s'.process.SetBy m t := by
    rcases hdec with hdec | hdec
    · rw [hdec]
      exact ⟨rfl, fun _ _ => id⟩
    · exact word_of_decoded hdec hk honly
  obtain ⟨own, hown⟩ := h.agrees
  refine ⟨hplain, fun {t i c} hb hc => ?_,
    ⟨own, fun t => ?_, fun hfr => ?_, fun {t} ht => ?_⟩, hfail⟩
  · by_cases ha : actor a = some t
    · exact hthunks t ha i c hb hc
    · rw [hf.backtrace t ha] at hb
      rcases h.thunks hb hc with ⟨v, hv⟩ | hv | ⟨hcall, k, hk⟩
      · exact .inl ⟨v, hf.grows.getElem? hv⟩
      · exact .inr (.inl (hval ▸ hv))
      · have hlt := (hwf.lt_of_control (t := t) (by rw [hk]; nofun)).1
        exact .inr (.inr ⟨(hf.call t ha).trans hcall, k, (hf.control t hlt ha).trans hk⟩)
  · by_cases ha : actor a = some t
    · exact hself t _ ha (hown.point t)
    · exact (hown.point t).other hwf hs ha hval fun x => hfree t x ha
  · rw [hnum]
    exact hown.free hfr
  · obtain ⟨hl, hset'⟩ := hown.owned ht
    exact ⟨hnum.trans hl, hset t hl hset'⟩

theorem MutexPoint.unlocks {b : Bool} {k : Task} (h : MutexPoint s p m t b)
    (hk : s.control t = .unlock m k) : s.call t = some (.mutexUnlock m) ∧ s.sync.holds t m := by
  cases h with
  | elsewhere _ ha _ _ =>
    rw [hk] at ha
    exact absurd rfl ha.1
  | unlock hc _ hh _ => exact ⟨hc, hh⟩
  | lock _ hk' _ | queued _ hk' _ _ | granted _ hk' _ _ _ | tryLock _ hk' _ =>
    exact nomatch hk.symm.trans hk'
  | acquire _ _ hx _ | release _ hx _ => exact absurd hk (hx.control_ne nofun nofun)
  | returning _ _ hk' _ =>
    rcases hk' with hk' | ⟨v, hk'⟩ <;> exact nomatch hk.symm.trans hk'

theorem MutexPoint.waits {b : Bool} {c n : ℕ} {k : Task} (h : MutexPoint s p m t b)
    (hk : s.control t = .wait c n k) : n ≠ m := by
  cases h with
  | elsewhere _ ha _ _ =>
    rw [hk] at ha
    exact ha.1
  | lock _ hk' _ | queued _ hk' _ _ | granted _ hk' _ _ _ | tryLock _ hk' _
  | unlock _ hk' _ _ => exact nomatch hk.symm.trans hk'
  | acquire _ _ hx _ | release _ hx _ => exact absurd hk (hx.control_ne nofun nofun)
  | returning _ _ hk' _ =>
    rcases hk' with hk' | ⟨v, hk'⟩ <;> exact nomatch hk.symm.trans hk'

theorem MutexPoint.decodes {b : Bool} {c : Call} {a : ThunkArgs} {k : Thunk → Task}
    (h : MutexPoint s p m t b) (hcall : s.call t = some c) (hm : c.OnMutex m)
    (hk : s.control t = .thunk a k) :
    (∃ v, a = DataFlow.constant v) ∨ ∃ k', ∀ d, k d = .await d k' := by
  have hexchange : ∀ {x : Exchange} {kx o}, s.InMutexExchange p m t x kx o →
      (∃ v, a = DataFlow.constant v) ∨ ∃ k', ∀ d, k d = .await d k' := by
    intro x kx o hx
    obtain ⟨n, -, hx⟩ := hx.point
    rw [hk] at hx
    cases hx with
    | address | expected _ | replacement _ _ => exact .inl ⟨_, rfl⟩
    | thunk _ _ _ => exact .inr ⟨_, fun _ => rfl⟩
  cases h with
  | elsewhere hc _ _ _ => exact absurd hm (hc c hcall)
  | lock _ hk' _ | queued _ hk' _ _ | granted _ hk' _ _ _ | tryLock _ hk' _
  | unlock _ hk' _ _ => exact nomatch hk.symm.trans hk'
  | acquire _ _ hx _ | release _ hx _ => exact hexchange hx
  | returning _ _ hk' _ =>
    rcases hk' with hk' | ⟨v, hk'⟩
    · exact nomatch hk.symm.trans hk'
    · cases hk.symm.trans hk'
      exact .inl ⟨_, rfl⟩

/-- What a poll does to the mutex: it is still held by one task at most, and nobody is handed
it who has it already. -/
theorem MutexPoint.sync {b : Bool} (h : MutexPoint s p m t b) (hwf : s.WF)
    (hplain : s.sync.Plain m) (hs : Polled s q t (s.control t) s') : s'.sync.Plain m ∧
      ∀ u x, u ≠ t → s.sync.waiting u = some (x, m) → s'.sync.waiting u = none →
        s.sync.holds u m = false := by
  have hstay : ∀ {sync : Sync}, (∀ u x, u ≠ t → s.sync.waiting u = some (x, m) →
      sync.waiting u = some (x, m)) → ∀ u x, u ≠ t → s.sync.waiting u = some (x, m) →
        sync.waiting u = none → s.sync.holds u m = false :=
    fun hw u x hu hx hn => nomatch hn.symm.trans (hw u x hu hx)
  have ho := hwf.owned
  generalize hk : s.control t = task at hs
  cases hs with
  | fail _ | suspend _ | full _ | decode _ | store | await _ | receive _ | thread _ | join _
  | spawn | finish _ => exact ⟨hplain, hstay fun _ _ _ => id⟩
  | lock =>
    exact ⟨hplain.lock t _, hstay fun u x hu hx => (Sync.waiting_lock_of_ne hu).trans hx⟩
  | tryLock =>
    exact ⟨hplain.tryLock t _, hstay fun u x hu hx =>
      (congrFun (Sync.waiting_tryLock _ _ _) u).trans hx⟩
  | @unlock n k _ hu =>
    by_cases hn : n = m
    · subst hn
      have hh := (h.unlocks hk).2
      refine ⟨hplain.unlock ho hu fun _ => hh, fun u x hut _ _ => ?_⟩
      by_contra hb
      exact hut (hplain.exclusive (by simpa using hb) hh)
    · exact ⟨hplain.unlock ho hu fun hmn => absurd hmn.symm hn,
        hstay fun u x _ hx => Sync.waiting_unlock_of_ne ho hu hn hx⟩
  | wait hu =>
    have hn := h.waits hk
    exact ⟨hplain.wait ho hu hn, hstay fun u x hut hx => Sync.waiting_wait_of_ne ho hu hn hut hx⟩
  | notify =>
    exact ⟨hplain.notify ho _, hstay fun u x _ hx => hplain.waiting_notify ho _ hx⟩
  | notifyAll =>
    exact ⟨hplain.notifyAll hwf.queued ho _,
      hstay fun u x _ hx => hplain.waiting_notifyAll hwf.queued ho _ hx⟩

/-- A poll that gives thunk `i` its backtrace is the one that decodes it. -/
theorem Polled.backtrace {task : Task} {i : ℕ} (hs : Polled s s.process t task s')
    (hi : s'.backtrace t i ≠ s.backtrace t i) : ∃ a k, task = .thunk a k ∧
      i = (s.process.flows t).seq ∧ s' = (s.decoded
        (s.process.modify t fun f => f.push (a.thunk t (s.process.flows t).seq)) t).goto t
          (k (.cell t (s.process.flows t).seq)) := by
  cases hs with
  | @decode a k _ =>
    refine ⟨a, k, rfl, ?_, rfl⟩
    by_contra hne
    refine hi ?_
    show Function.update s.backtrace t _ t i = _
    rw [Function.update_self, Function.update_of_ne hne]
  | fail _ | suspend _ | full _ | store | await _ | receive _ | thread _ | join _ | lock
  | tryLock | unlock _ | wait _ | notify | notifyAll | spawn | finish _ => exact absurd rfl hi

theorem MutexGood.thunks_polled {i : ℕ} {c : Call} (h : s.MutexGood s.process m) (hwf : s.WF)
    (hc : s.config = .decoding s.process) (hs : Polled s s.process t (s.control t) s')
    (hb : s'.backtrace t i = some c) (hm : c.OnMutex m) :
    (∃ v, (s'.process.flows t).decoded[i]? = some ((DataFlow.constant v).thunk t i)) ∨
    s'.process.value t i ≠ none ∨
      (s'.call t = some c ∧ ∃ k, s'.control t = .await (.cell t i) k) := by
  by_cases hi : s'.backtrace t i = s.backtrace t i
  · have hext := hwf.extends_of_polled hc hs
    rw [hi] at hb
    rcases h.thunks hb hm with ⟨v, hv⟩ | hv | ⟨hcall, k, hk⟩
    · exact .inl ⟨v, hext.getElem? hv⟩
    · exact .inr (.inl fun hq => hv (hext.value_none hq))
    · rw [hk] at hs
      cases hs with
      | fail _ | suspend _ => exact .inr (.inr ⟨hcall, k, hk⟩)
      | await hv =>
        refine .inr (.inl ?_)
        rw [hext.value hv]
        nofun
  · obtain ⟨a, k, hk, rfl, rfl⟩ := hs.backtrace hi
    have hcall : s.call t = some c := by
      have hself : Function.update s.backtrace t (Function.update (s.backtrace t)
          (s.process.flows t).seq (s.call t)) t (s.process.flows t).seq = some c := hb
      rwa [Function.update_self, Function.update_self] at hself
    obtain ⟨own, hown⟩ := h.agrees
    rcases (hown.point t).decodes hcall hm hk with ⟨v, rfl⟩ | ⟨k', hk'⟩
    · obtain ⟨j, -, hj, hdec⟩ :=
        Process.decodes_push (p := s.process) (t := t) (a := DataFlow.constant v) le_rfl
      cases hj
      exact .inl ⟨v, hdec⟩
    · refine .inr (.inr ⟨hcall, k', ?_⟩)
      rw [control_goto, hk']

theorem MutexGood.polled (h : s.MutexGood s.process m) (hwf : s.WF)
    (hc : s.config = .decoding s.process) (hready : s.ready t)
    (hs : Polled s s.process t (s.control t) s') (hk : k ≤ s.process.log.length)
    (honly : s'.OnlyMutex s'.process m k) : s'.MutexGood s'.process m := by
  obtain ⟨own, hown⟩ := h.agrees
  obtain ⟨hplain, hfree⟩ := (hown.point t).sync hwf h.plain hs
  refine h.move hwf (.poll hc hready hs) hs.process_decoded hk honly hplain
    (fun u x hu => hfree u x fun hut => hu (hut ▸ rfl)) ?_ ?_ fun f hf => ?_
  · rintro _ b ⟨⟩ hpt
    exact (hpt.polled hwf h.plain hc hs).1
  · rintro _ ⟨⟩ i c hb hm
    exact h.thunks_polled hwf hc hs hb hm
  · rcases ((hown.point t).polled hwf h.plain hc hs).2 f hf with hf | hf
    · exact h.failure f hf
    · exact hf

theorem MutexGood.performed {a : MachineAction} (h : s.MutexGood s.process m) (hwf : s.WF)
    (hr : Recorded memory s.process) (hm : m < 2 ^ 64) (hk : k ≤ s.process.log.length)
    (hD : ByHolder m s a) (hs : Performed s a s') (honly : s'.OnlyMutex s'.process m k) :
    s'.MutexGood s'.process m := by
  cases id hs with
  | @main p hc _ =>
    have hp := process_eq hc
    subst hp
    exact h.move hwf hs (.inr .addThread) hk honly h.plain
      (fun u x _ hw hn => nomatch hn.symm.trans hw) nofun nofun h.failure
  | @enter p t c hc hready hk' hops =>
    have hp := process_eq hc
    subst hp
    refine h.move hwf hs (.inl rfl) hk honly h.plain
      (fun u x _ hw hn => nomatch hn.symm.trans hw) ?_ ?_ h.failure
    · rintro _ b ⟨⟩ hpt
      refine hpt.enter hwf hk' ?_ ?_
      · rintro rfl
        exact hD rfl
      · intro hu
        cases c with
        | condWait d n => exact absurd hu hD
        | mutexTrylock _ | mutexLock _ | mutexUnlock _ => exact hu
        | mutexInit _ | condBroadcast _ | condSignal _ | create _ _ | join _ _ | decode _
        | await _ | threadLocal _ _ | exit _ => exact hu.elim
    · rintro _ ⟨⟩ i c' hb hm'
      rcases h.thunks hb hm' with hv | hv | ⟨-, k', hk''⟩
      · exact .inl hv
      · exact .inr (.inl hv)
      · exact nomatch hk'.symm.trans hk''
  | poll hc hready hs =>
    have hp := process_eq hc
    subst hp
    exact h.polled hwf hc hready hs hk honly
  | pass ha | choose ha =>
    exact (h.processAct hwf hr hm hk ha nofun honly).congr hwf rfl rfl rfl rfl rfl

end Actions

section Runs

variable {s s' : Machine} {m k : ℕ} {t : ThreadId} {memory : Memory}

theorem WF.backtrace_of_value {a : MachineAction} (h : s.WF) (hs : Performed s a s') {i : ℕ}
    (hv : s.process.value t i ≠ none) : s'.backtrace t i = s.backtrace t i := by
  by_cases ha : actor a = some t
  · cases hs with
    | main _ _ | enter _ _ _ _ | pass _ | choose _ => rfl
    | poll hc _ hs =>
      cases ha
      have hp := process_eq hc
      subst hp
      by_contra hi
      obtain ⟨_, _, -, rfl, -⟩ := hs.backtrace hi
      exact hv (h.process.value_seq t)
  · rw [(h.frame hs).backtrace t ha]

/-- A mutex that has not been used. -/
structure Untouched (s : Machine) (m : ℕ) : Prop where
  wf : s.WF
  plain : s.sync.Plain m
  point : ∀ t, MutexPoint s s.process m t false
  call : ∀ {t c}, s.call t = some c → ¬ c.OnMutex m
  backtrace : ∀ {t i c}, s.backtrace t i = some c → ¬ c.OnMutex m
  failure : ∀ f, s.failure = some f → ¬ f.OnMutex m

theorem untouched_new (memory : Memory) (m : ℕ) : (new memory).Untouched m where
  wf := wf_new memory
  plain := ⟨⟨nofun, by simp [new, Sync.new, MutexInner.new]⟩, nofun⟩
  point _ := .elsewhere nofun trivial nofun rfl
  call := nofun
  backtrace := nofun
  failure := nofun

theorem Untouched.congr (h : s.Untouched m) (hwf : s'.WF) (hext : s.process.Extends s'.process)
    (hcontrol : s'.control = s.control) (hcall : s'.call = s.call)
    (hback : s'.backtrace = s.backtrace) (hsync : s'.sync = s.sync)
    (hf : s'.failure = s.failure) : s'.Untouched m where
  wf := hwf
  plain := hsync ▸ h.plain
  point t := by
    refine (h.point t).mono h.wf (congrFun hcontrol t) (congrFun hcall t) (congrFun hback t) hext
      (fun c _ _ i hb hc _ => absurd hc (h.backtrace hb)) ?_ fun x hw hn => ?_
    · rw [hsync]
      exact .of_eq rfl rfl
    · rw [hsync] at hn
      exact nomatch hn.symm.trans hw
  call := hcall ▸ h.call
  backtrace := hback ▸ h.backtrace
  failure := hf ▸ h.failure

theorem Untouched.performed {a : MachineAction} (h : s.Untouched m) (hD : Unused m s a)
    (hs : Performed s a s') : s'.Untouched m := by
  have hwf := h.wf.performed hs
  have hf := h.wf.frame hs
  cases id hs with
  | @main p hc _ =>
    have hp := process_eq hc
    subst hp
    refine ⟨hwf, h.plain, fun t => ?_, h.call, h.backtrace, h.failure⟩
    exact (h.point t).other h.wf hs nofun (h.wf.value_of_decoded (.inr .addThread))
      fun x hw hn => nomatch hn.symm.trans hw
  | @enter p t c hc _ hk _ =>
    refine ⟨hwf, h.plain, fun u => ?_, fun {u c'} hc' => ?_, h.backtrace, h.failure⟩
    · by_cases hu : u = t
      · subst hu
        refine (h.point u).enter h.wf hk ?_ fun hu => absurd hu hD
        rintro rfl
        exact absurd rfl hD
      · exact (h.point u).other h.wf hs (fun ha => hu (Option.some.inj ha).symm) rfl
          fun x hw hn => nomatch hn.symm.trans hw
    · by_cases hu : u = t
      · subst hu
        cases (Function.update_self u (some c) s.call).symm.trans hc'
        exact fun hm => hD hm.uses
      · exact h.call ((Function.update_of_ne hu _ _).symm.trans hc')
  | @poll p t _ hc _ hpoll =>
    have hp := process_eq hc
    subst hp
    obtain ⟨hplain, hfree⟩ := (h.point t).sync h.wf h.plain hpoll
    obtain ⟨hpt, hfail⟩ := (h.point t).polled h.wf h.plain hc hpoll
    have hval := h.wf.value_of_decoded hpoll.process_decoded
    have hcall := (hpoll.frame hc).2.1
    refine ⟨hwf, hplain, fun u => ?_, fun hu => h.call (hcall ▸ hu), fun {u i c} hb => ?_,
      fun f hf' => (hfail f hf').elim (h.failure f) id⟩
    · by_cases hu : u = t
      · subst hu
        exact hpt
      · exact (h.point u).other h.wf hs (fun ha => hu (Option.some.inj ha).symm) hval
          fun x => hfree u x hu
    · by_cases hu : u = t
      · subst hu
        by_cases hi : s'.backtrace u i = s.backtrace u i
        · exact h.backtrace (hi ▸ hb)
        · obtain ⟨a, k, -, rfl, rfl⟩ := hpoll.backtrace hi
          have hself : Function.update s.backtrace u (Function.update (s.backtrace u)
              (s.process.flows u).seq (s.call u)) u (s.process.flows u).seq = some c := hb
          rw [Function.update_self, Function.update_self] at hself
          exact h.call hself
      · rw [hf.backtrace u fun ha => hu (Option.some.inj ha).symm] at hb
        exact h.backtrace hb
  | pass _ | choose _ => exact h.congr hwf hf.grows.toExtends rfl rfl rfl rfl rfl

theorem Reachable.untouched (h : Reachable (Unused m) memory s) : s.Untouched m :=
  Reachable.invariant (P := fun s => s.Untouched m) h (untouched_new memory m)
    (fun _ hs => hs.congr hs.wf.wake (.refl _) rfl rfl rfl rfl rfl)
    fun _ _ _ hD _ hs hp => hs.performed hD (performed_of_perform hp)

theorem Untouched.mutexGood (h : s.Untouched m)
    (hword : s.process.memory.number m 64 = unlocked) : s.MutexGood s.process m where
  plain := h.plain
  thunks hb hc := absurd hc (h.backtrace hb)
  agrees := ⟨fun _ => false, h.point, fun _ => hword, nofun⟩
  failure := h.failure

/-- What is true of the mutex in a run, if its word is left to it. -/
structure MutexRun (memory : Memory) (m k : ℕ) (s : Machine) : Prop where
  reachable : Reachable (fun _ _ => True) memory s
  length : k ≤ s.process.log.length
  good : s.OnlyMutex s.process m k → s.MutexGood s.process m

theorem MutexRun.act {a : MachineAction} (h : MutexRun memory m k s) (hm : m < 2 ^ 64)
    (hD : ByHolder m s a) (ha : s.act a = some s') : MutexRun memory m k s' := by
  have hreach := h.reachable.act trivial ha
  obtain ⟨hf, s₁, hs₁, rfl⟩ := act_eq_some ha
  have hs := performed_of_perform hs₁
  have hwf := h.reachable.wf
  have hgrows := (hwf.frame hs).grows
  refine ⟨hreach, h.length.trans hgrows.log.length_le, fun honly => ?_⟩
  have honly₁ : s₁.OnlyMutex s₁.process m k := honly
  have hgood := h.good (honly₁.mono hwf.process hgrows.log fun t i hv =>
    hwf.backtrace_of_value hs hv)
  exact (hgood.performed hwf h.reachable.recorded hm h.length hD hs honly₁).congr
    (hwf.performed hs) rfl rfl rfl rfl rfl

end Runs

/-- The word of a mutex that is locked and unlocked only by the calls on it is `LOCKED` only
while the scheduler's mutex is locked, and owned by the thread that set the word; no assertion
about the mutex fails. -/
theorem mutex_word {m : ℕ} (hm : m < 2 ^ 64) {memory : Memory} {s₀ s : Machine}
    (h₀ : Reachable (Unused m) memory s₀)
    (hword : s₀.process.memory.number m 64 = unlocked) {l : List MachineAction}
    (hrun : s₀.runWhile (ByHolder m) l = some s)
    (honly : s.OnlyMutex s.process m s₀.process.log.length) :
    (s.process.memory.number m 64 = unlocked ∨ s.process.memory.number m 64 = locked) ∧
    (s.process.memory.number m 64 = locked → (s.sync.mutexes m).locked = true ∧
      ∃ t, s.sync.holds t m ∧ (∀ u, s.sync.holds u m → u = t) ∧ s.process.SetBy m t) ∧
    ∀ f, s.failure = some f → ¬ f.OnMutex m := by
  have hstart : MutexRun memory m s₀.process.log.length s₀ :=
    ⟨h₀.weaken fun _ _ _ => trivial, le_rfl, fun _ => h₀.untouched.mutexGood hword⟩
  have hend := runWhile_invariant (fun hD h ha => MutexRun.act h hm hD ha) hrun hstart
  have hgood := hend.good honly
  obtain ⟨own, hown⟩ := hgood.agrees
  by_cases hfree : ∀ t, own t = false
  · have hu := hown.free hfree
    exact ⟨.inl hu, fun hl => absurd (hu.symm.trans hl) (by decide), hgood.failure⟩
  · obtain ⟨t, ht⟩ := not_forall.mp hfree
    have ht : own t = true := by simpa using ht
    obtain ⟨hl, hset⟩ := hown.owned ht
    have hh := (hown.point t).holds ht
    exact ⟨.inr hl, fun _ => ⟨hgood.plain.locked.mpr ⟨t, hh⟩, t, hh,
      fun u hu => hgood.plain.exclusive hu hh, hset⟩, hgood.failure⟩

/-- Thread 0 unlocks the mutex for which thread 1 waits, and waits for it in its turn. -/
theorem mutex_word_handed : ∃ memory l s, memory.number 4096 64 = unlocked ∧
    (new memory).runWhile (ByHolder 4096) l = some s ∧ s.OnlyMutex s.process 4096 0 ∧
    s.process.memory.number 4096 64 = locked ∧ s.sync.holds 1 4096 ∧ s.process.SetBy 4096 1 := by
  let memory := Memory.new.write 4096 (Value.new 64 unlocked).imp
  let polls (t : ThreadId) (n : ℕ) : List MachineAction := List.replicate n (.poll t)
  let l : List MachineAction := List.flatten [.addMain :: polls 0 2,
    .call 0 (.create 64 (Value.new 64 0)) :: polls 0 5, polls 1 1,
    .call 1 (.await (.cell 1 0)) :: polls 1 1, .pass :: polls 0 2,
    .call 0 (.mutexLock 4096) :: polls 0 7, polls 1 1,
    .call 1 (.mutexLock 4096) :: polls 1 2, [.pass, .pass, .choose 0], polls 0 2,
    .call 0 (.mutexUnlock 4096) :: polls 0 5, [.pass, .pass, .choose 0], polls 0 3,
    polls 1 6, .call 0 (.mutexLock 4096) :: polls 0 2, [.pass, .pass, .choose 0], polls 1 2]
  have hrun : memory.number 4096 64 = unlocked ∧ ∃ s ∈ (new memory).runWhile (ByHolder 4096) l,
      s.OnlyMutex s.process 4096 0 ∧ s.process.memory.number 4096 64 = locked ∧
        s.sync.holds 1 4096 := by
    decide +kernel
  obtain ⟨hword, s, hs, honly, hlocked, hholds⟩ := hrun
  have hnew : Reachable (Unused 4096) memory (new memory) := .new
  obtain ⟨-, hl, -⟩ := mutex_word (by decide) hnew hword hs honly
  obtain ⟨-, t, -, hunique, hset⟩ := hl hlocked
  cases hunique 1 hholds
  exact ⟨memory, l, s, hword, hs, honly, hlocked, hholds, hset⟩

end Machine
end AtomicSim
