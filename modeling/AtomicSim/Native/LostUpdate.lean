import AtomicSim.Native.Rounds

namespace AtomicSim

namespace Machine

section Carries

variable {s s' : Machine} {p : Process} {m : ℕ} {t : ThreadId} {b : Bool}

theorem woken_holds {sync sync' : Sync} (h : Sync.Woken sync sync' t) (hh : sync.holds t m) :
    sync'.holds t m := by
  rcases h with ⟨-, hh'⟩ | ⟨x, n, -, -, hh'⟩
  · rw [hh']
    exact hh
  · rw [hh']
    by_cases hn : m = n
    · rw [hn, Function.update_self]
    · rw [Function.update_of_ne hn]
      exact hh

theorem WF.carries_of_ne {a : MachineAction} (h : s.WF) (hs : Performed s a s')
    (ht : actor a ≠ some t) (hval : s'.process.value = s.process.value) :
    s.Carries s' s.process s'.process m t := by
  have hf := h.frame hs
  have hcontrol : s.control t ≠ .done → s'.control t = s.control t := fun hk =>
    hf.control t (h.lt_of_control hk).1 ht
  have hdec := h.decoded_of_ne hs ht
  refine ⟨fun hp => ?_, fun _ he => ?_, fun _ => woken_holds (hf.woken t ht), fun hc => ?_,
    fun hl => ?_⟩
  · refine (hp.congr hdec).imp_right fun ⟨hi, hk⟩ => ⟨hi, ?_⟩
    rw [hcontrol (by rw [hk]; nofun)]
    exact hk
  · rcases he with hh | hk | ⟨y, hw⟩
    · exact .inl (woken_holds (hf.woken t ht) hh)
    · exact .inr (.inl ((hcontrol (by rw [hk]; nofun)).trans hk))
    · rcases hf.woken t ht with ⟨hw', -⟩ | ⟨x, n, hx, -, hh⟩
      · exact .inr (.inr ⟨y, hw'.trans hw⟩)
      · cases hw.symm.trans hx
        exact .inl (by rw [hh, Function.update_self])
  · rwa [hf.call t ht]
  · obtain ⟨o, hx, ho, hlt⟩ := hl.exchange
    have hk : s.control t ≠ .done := hl.control_ne nofun nofun
    refine ⟨(hf.call t ht).trans hl.call, ?_, o, hx.mono (hcontrol hk) (hf.call t ht)
      (hf.backtrace t ht) hf.grows.toExtends (fun _ => by rw [hval])
      (woken_holds (hf.woken t ht) hx.holds), ?_, hlt⟩
    · rw [DataFlow.seq, hdec]
      exact hl.decoded
    · rw [hval]
      exact ho

theorem carries_enter {c : Call} (h : s.WF) (hk : s.control t = .ret) (hc : c ≠ .mutexUnlock m) :
    s.Carries { s with
      control := Function.update s.control t c.task
      call := Function.update s.call t (some c) } s.process s.process m t where
  placed hp := .inl (hp.decoded_of_ret hk)
  entering _ he := by
    rcases he with hh | hk' | ⟨y, hw⟩
    · exact .inl hh
    · exact nomatch hk.symm.trans hk'
    · exact nomatch (h.waiting_eq_none (by rw [hk]; nofun)).symm.trans hw
  holds _ := id
  call _ hc' := hc (Option.some.inj ((Function.update_self t (some c) s.call).symm.trans hc'))
  leaving hl := absurd hk (hl.control_ne nofun nofun)

theorem MutexPoint.holds_polled (h : MutexPoint s p m t b) (hwf : s.WF)
    (hcall : s.call t ≠ some (.mutexUnlock m)) (hh : s.sync.holds t m) {q : Process}
    (hs : Polled s q t (s.control t) s') : s'.sync.holds t m := by
  generalize hk : s.control t = task at hs
  have hidle : (∀ k, task ≠ .receive k) → s.sync.waiting t = none :=
    fun hne => hwf.waiting_eq_none fun k => hk ▸ hne k
  have hset : ∀ {n : ℕ} {f : ℕ → Bool}, f = Function.update (s.sync.holds t) n true →
      f m = true := by
    intro n f hf
    rw [hf]
    by_cases hn : m = n
    · rw [hn, Function.update_self]
    · rw [Function.update_of_ne hn]
      exact hh
  cases hs with
  | fail _ | suspend _ | full _ | decode _ | store | await _ | receive _ | thread _ | join _
  | spawn | finish _ => exact hh
  | @lock n k =>
    obtain ⟨hlocked, hfree⟩ := s.sync.lock_self t n
    cases hl : (s.sync.mutexes n).locked with
    | true => exact (congrFun₂ (hlocked hl).2 t m).trans hh
    | false => exact hset (hfree hl).2
  | @tryLock n k =>
    obtain ⟨hlocked, hfree⟩ := s.sync.tryLock_self t n
    cases hl : (s.sync.mutexes n).locked with
    | true => exact (congrArg (fun r => r.holds t m) (hlocked hl).1).trans hh
    | false => exact hset (hfree hl).1
  | @unlock n k _ hu =>
    have hn : m ≠ n := by
      rintro rfl
      exact hcall (h.unlocks hk).1
    have hheld := ((Sync.woken_unlock (u := t) hu).2 (hidle nofun)).2
    exact (congrFun hheld m).trans ((Function.update_of_ne hn _ _).trans hh)
  | wait hu =>
    have hheld := (Sync.parked_wait hu (hidle nofun)).1
    exact (congrFun hheld m).trans ((Function.update_of_ne (h.waits hk).symm _ _).trans hh)
  | @notify c k => exact woken_holds (Sync.woken_notify s.sync c t) hh
  | @notifyAll c k => exact woken_holds (Sync.woken_notifyAll s.sync c t) hh

theorem MutexPoint.carries (h : MutexPoint s s.process m t b) (hwf : s.WF)
    (hc : s.config = .decoding s.process) (hs : Polled s s.process t (s.control t) s') :
    s.Carries s' s.process s'.process m t := by
  have hext := hwf.extends_of_polled hc hs
  have hcall := congrFun (hs.frame hc).2.1 t
  refine ⟨fun {i a} hp => ?_, fun hne he => ?_, fun hne hh => h.holds_polled hwf hne hh hs,
    fun hne => hcall ▸ hne, fun {i} hl => ?_⟩
  · rcases hp with hdec | ⟨rfl, hk⟩
    · exact .inl (hext.getElem? hdec)
    · rw [hk] at hs
      rcases polled_thunk hs with rfl | rfl
      · exact .inr ⟨rfl, hk⟩
      · obtain ⟨i, -, hi, hdec⟩ := Process.decodes_push (p := s.process) (t := t) (a := a) le_rfl
        cases hi
        exact .inl hdec
  · rcases he with hh | hk | ⟨y, hw⟩
    · exact .inl (h.holds_polled hwf hne hh hs)
    · rw [hk] at hs
      cases hs with
      | fail hf => cases hf
      | suspend hf => cases hf
      | lock =>
        obtain ⟨hlocked, hfree⟩ := s.sync.lock_self t m
        cases hl : (s.sync.mutexes m).locked with
        | true => exact .inr (.inr ⟨_, (hlocked hl).1⟩)
        | false =>
          exact .inl ((congrFun (hfree hl).2 m).trans (Function.update_self _ _ _))
    · obtain ⟨k, hk⟩ := hwf.waiting t (by rw [hw]; nofun)
      rw [hk] at hs
      cases hs with
      | fail hf => cases hf
      | suspend _ => exact .inr (.inr ⟨y, hw⟩)
      | receive hn => exact nomatch hn.symm.trans hw
  · obtain ⟨o, hx, ho, hlt⟩ := hl.exchange
    obtain ⟨-, hcall', -, ⟨o', hx', ho', hnew⟩ | ⟨hsome, -⟩⟩ := hx.polled hwf hc hs
    · refine ⟨hcall' ▸ hl.call, hl.decoded.trans_le (hext.decoded t).length_le, o', hx', ?_,
        fun j hj => ?_⟩
      · rw [ho, Option.isSome_none] at ho'
        exact Option.not_isSome_iff_eq_none.mp (by rw [ho']; nofun)
      · rcases hnew hj with hj | rfl
        · exact hlt j hj
        · exact hl.decoded
    · rw [ho] at hsome
      cases hsome

end Carries

end Machine

namespace Rounds

/-- The next call of a thread in its round, the stage it goes on to, and what is noted down. -/
inductive Moves (m w : ℕ) (R : Rounds) (t : ThreadId) :
    Call → Stage → List (ThreadId × Round) → List Thunk → Prop
  | lock : (R.stage t).inside = false → Moves m w R t (.mutexLock m) .entered [] []
  | load {a : Thunk} : R.stage t = .entered →
      Moves m w R t (.decode (DataFlow.load a ⟨w, w⟩ .none)) (.loaded (R.seq t)) [] [a]
  | add {l n : ℕ} : R.stage t = .loaded l → Moves m w R t
      (.decode (CInstr.compute .add (.cell t l) (.constant (Value.new w n))))
      (.added l (R.seq t) n) [] []
  | store {a : Thunk} {l i n : ℕ} : R.stage t = .added l i n → Moves m w R t
      (.decode (DataFlow.store a ⟨w, w⟩ (.cell t i) .none)) (.stored ⟨l, i, R.seq t, n⟩)
      [(t, ⟨l, i, R.seq t, n⟩)] [a]
  | unlock {r : Round} : R.stage t = .stored r →
      Moves m w R t (.mutexUnlock m) (.left r) [] []

theorem act_cases {m w : ℕ} {R R' : Rounds} {a : RoundAction} (h : R.act m w a = some R') :
    (∃ t c stage rounds addresses, R.Moves m w t c stage rounds addresses ∧
      R.call t c stage rounds addresses = some R' ∧ a.thread = some t ∧
      a.constant + (R.stage t).pending =
        stage.pending + (rounds.map fun y => y.2.constant).sum) ∨
    ∃ b s', Machine.Unused m R.machine b ∧ R.machine.act b = some s' ∧
      R' = { R with machine := s' } ∧ a.constant = 0 := by
  cases a with
  | lock t =>
    simp only [act] at h
    split at h
    · rename_i hst
      exact .inl ⟨t, _, _, _, _, .lock (by rw [hst]; rfl), h, rfl, by rw [hst]; rfl⟩
    · rename_i hst
      exact .inl ⟨t, _, _, _, _, .lock (by rw [hst]; rfl), h, rfl, by rw [hst]; rfl⟩
    · cases h
  | load t a =>
    simp only [act] at h
    split at h
    · rename_i hst
      exact .inl ⟨t, _, _, _, _, .load hst, h, rfl, by rw [hst]; rfl⟩
    · cases h
  | add t n =>
    simp only [act] at h
    split at h
    · rename_i hst
      exact .inl ⟨t, _, _, _, _, .add hst, h, rfl, by rw [hst]; rfl⟩
    · cases h
  | store t a =>
    simp only [act] at h
    split at h
    · rename_i hst
      exact .inl ⟨t, _, _, _, _, .store hst, h, rfl, by rw [hst]; rfl⟩
    · cases h
  | unlock t =>
    simp only [act] at h
    split at h
    · rename_i hst
      exact .inl ⟨t, _, _, _, _, .unlock hst, h, rfl, by rw [hst]; rfl⟩
    · cases h
  | other b =>
    simp only [act] at h
    split_ifs at h with hb
    obtain ⟨s', hs', rfl⟩ := Option.map_eq_some_iff.mp h
    exact .inr ⟨b, s', hb, hs', rfl, rfl⟩

section Steps

variable {m x w k n : ℕ} {R : Rounds} {t : ThreadId} {memory : Memory} {c : Call} {stage : Stage}
  {rounds : List (ThreadId × Round)} {addresses : List Thunk}

/-- The rounds after the call of `t`. -/
def entered (R : Rounds) (t : ThreadId) (c : Call) (stage : Stage)
    (rounds : List (ThreadId × Round)) (addresses : List Thunk) : Rounds where
  machine := { R.machine with
    control := Function.update R.machine.control t c.task
    call := Function.update R.machine.call t (some c) }
  stage := Function.update R.stage t stage
  rounds := R.rounds ++ rounds
  addresses := R.addresses ++ addresses

theorem control_entered : (R.entered t c stage rounds addresses).machine.control t = c.task :=
  Function.update_self _ _ _

theorem stage_entered : (R.entered t c stage rounds addresses).stage t = stage :=
  Function.update_self _ _ _

theorem ThreadGood.holds_of_ret (h : ThreadGood m x w R R.machine.process t)
    (hwf : R.machine.WF) (hk : R.machine.control t = .ret) (hin : (R.stage t).inside) :
    R.machine.sync.holds t m := by
  by_cases hst : R.stage t = .entered
  · rcases h.entering hst with hh | hk' | ⟨y, hw⟩
    · exact hh
    · exact nomatch hk.symm.trans hk'
    · exact nomatch (hwf.waiting_eq_none (by rw [hk]; nofun)).symm.trans hw
  · exact h.holds hin hst

theorem threadGood_entered (hentering : stage = .entered → c = .mutexLock m)
    (hholds : stage.inside → stage ≠ .entered → R.machine.sync.holds t m)
    (hcall : stage.inside → c ≠ .mutexUnlock m)
    (hleft : ∀ {r}, stage = .left r →
      c = .mutexUnlock m ∧ r.store < R.seq t ∧ R.machine.sync.holds t m)
    (hload : ∀ {l}, stage.load? = some l → ∃ a ∈ R.addresses ++ addresses,
      (R.entered t c stage rounds addresses).machine.Placed R.machine.process t l
        (DataFlow.load a ⟨w, w⟩ .none))
    (hadd : ∀ {l i n}, stage.add? = some (l, i, n) →
      (R.entered t c stage rounds addresses).machine.Placed R.machine.process t i
        (CInstr.compute .add (.cell t l) (.constant (Value.new w n))))
    (hread : ∀ {l v}, stage.load? = some l →
      (∀ r, stage.store? = some r → R.machine.process.value t r.store = none) →
      R.machine.process.value t l = some v →
        v.bits = w ∧ v.asU128 = R.machine.process.memory.number x w) :
    ThreadGood m x w (R.entered t c stage rounds addresses) R.machine.process t := by
  have hc : (R.entered t c stage rounds addresses).machine.call t = some c :=
    Function.update_self _ _ _
  refine ⟨fun hst => ?_, fun hin hne => ?_, fun hin => ?_, fun hst => ?_, fun hl => ?_,
    fun ha => ?_, fun hl hstore hv => ?_⟩
  · rw [stage_entered] at hst
    refine .inr (.inl (control_entered.trans ?_))
    rw [hentering hst]
    rfl
  · rw [stage_entered] at hin hne
    exact hholds hin hne
  · rw [stage_entered] at hin
    rw [hc]
    exact fun h => hcall hin (Option.some.inj h)
  · rw [stage_entered] at hst
    obtain ⟨rfl, hlt, hh⟩ := hleft hst
    exact .inr ⟨hc, hlt, none, Machine.inMutexExchange_start control_entered hh, rfl, nofun⟩
  · rw [stage_entered] at hl
    exact hload hl
  · rw [stage_entered] at ha
    exact hadd ha
  · rw [stage_entered] at hl hstore
    exact hread hl hstore hv

theorem ThreadGood.moves (h : ThreadGood m x w R R.machine.process t) (hwf : R.machine.WF)
    (hstored : ∀ {r}, R.stage t = .stored r → r.store < R.seq t)
    (hk : R.machine.control t = .ret) (hm : R.Moves m w t c stage rounds addresses) :
    ThreadGood m x w (R.entered t c stage rounds addresses) R.machine.process t := by
  have hplaced : ∀ {i a}, R.machine.Placed R.machine.process t i a →
      (R.entered t c stage rounds addresses).machine.Placed R.machine.process t i a :=
    fun hp => .inl (hp.decoded_of_ret hk)
  have hload : ∀ {l}, (R.stage t).load? = some l → ∃ a ∈ R.addresses ++ addresses,
      (R.entered t c stage rounds addresses).machine.Placed R.machine.process t l
        (DataFlow.load a ⟨w, w⟩ .none) := by
    intro l hl
    obtain ⟨a, ha, hp⟩ := h.load hl
    exact ⟨a, List.mem_append_left _ ha, hplaced hp⟩
  have hret := h.holds_of_ret hwf hk
  -- one case for each call of the round
  cases hm with
  | lock hst =>
    exact threadGood_entered (fun _ => rfl) (fun _ hne => absurd rfl hne) (fun _ => nofun) nofun
      nofun nofun nofun
  | load hst =>
    refine threadGood_entered nofun (fun _ _ => hret (by rw [hst]; rfl)) (fun _ => nofun) nofun
      (fun hl => ?_) nofun (fun hl _ hv => ?_)
    · cases hl
      exact ⟨_, List.mem_append_right _ (List.mem_singleton_self _), .inr ⟨rfl, control_entered⟩⟩
    · cases hl
      exact nomatch (hwf.process.value_seq t).symm.trans hv
  | add hst =>
    refine threadGood_entered nofun (fun _ _ => hret (by rw [hst]; rfl)) (fun _ => nofun) nofun
      (fun hl => ?_) (fun ha => ?_) (fun hl _ hv => ?_)
    · cases hl
      exact hload (by rw [hst]; rfl)
    · cases ha
      exact .inr ⟨rfl, control_entered⟩
    · cases hl
      exact h.read (by rw [hst]; rfl) (by rw [hst]; nofun) hv
  | store hst =>
    refine threadGood_entered nofun (fun _ _ => hret (by rw [hst]; rfl)) (fun _ => nofun) nofun
      (fun hl => ?_) (fun ha => ?_) (fun hl _ hv => ?_)
    · cases hl
      exact hload (by rw [hst]; rfl)
    · cases ha
      exact hplaced (h.add (by rw [hst]; rfl))
    · cases hl
      exact h.read (by rw [hst]; rfl) (by rw [hst]; nofun) hv
  | unlock hst =>
    refine threadGood_entered nofun nofun nofun (fun hr => ?_) (fun hl => ?_) (fun ha => ?_)
      (fun hl hstore hv => ?_)
    · cases hr
      exact ⟨rfl, hstored hst, hret (by rw [hst]; rfl)⟩
    · cases hl
      exact hload (by rw [hst]; rfl)
    · cases ha
      exact hplaced (h.add (by rw [hst]; rfl))
    · cases hl
      refine h.read (by rw [hst]; rfl) (fun r hr => ?_) hv
      rw [hst] at hr
      cases hr
      exact hstore _ rfl

theorem Moves.rounds_eq (h : R.Moves m w t c stage rounds addresses) :
    (rounds = [] ∧ ∀ {r}, stage.store? = some r → (R.stage t).store? = some r) ∨
    ∃ r, rounds = [(t, r)] ∧ r.store = R.seq t ∧ stage = .stored r ∧ ∃ a ∈ addresses,
      c = .decode (DataFlow.store a ⟨w, w⟩ (.cell t r.add) .none) := by
  cases h with
  | lock _ | load _ | add _ => exact .inl ⟨rfl, nofun⟩
  | store _ => exact .inr ⟨_, rfl, rfl, rfl, _, List.mem_singleton_self _, rfl⟩
  | unlock hst =>
    refine .inl ⟨rfl, fun hr => ?_⟩
    rw [hst]
    exact hr

theorem Moves.current (h : R.Moves m w t c stage rounds addresses)
    (hg : ThreadGood m x w R R.machine.process t) (hk : R.machine.control t = .ret) {r : Round}
    (hr : (R.stage t).store? = some r) (hv : R.machine.process.value t r.store = none) :
    stage.store? = some r := by
  cases h with
  | lock hst =>
    cases hl : R.stage t with
    | left r' =>
      rw [hl] at hr
      cases hr
      rcases hg.left hl with hv' | hleave
      · exact absurd hv hv'
      · exact absurd hk (hleave.control_ne nofun nofun)
    | stored _ =>
      rw [hl] at hst
      cases hst
    | outside | entered | loaded _ | added _ _ _ =>
      rw [hl] at hr
      cases hr
  | load hst | add hst | store hst =>
    rw [hst] at hr
    cases hr
  | unlock hst =>
    rw [hst] at hr
    exact hr

theorem Moves.nodup (hm : R.Moves m w t c stage rounds addresses)
    (h : (R.rounds.map fun y => (y.1, y.2.store)).Nodup)
    (hlt : ∀ {r}, (t, r) ∈ R.rounds → r.store < R.seq t) :
    ((R.rounds ++ rounds).map fun y => (y.1, y.2.store)).Nodup := by
  rw [List.map_append]
  rcases hm.rounds_eq with ⟨rfl, -⟩ | ⟨r, rfl, hseq, -, -⟩
  · rw [List.map_nil, List.append_nil]
    exact h
  · refine List.nodup_append.mpr ⟨h, List.nodup_singleton _, fun y hy z hz hyz => ?_⟩
    obtain ⟨⟨u, r'⟩, hmem, rfl⟩ := List.mem_map.mp hy
    rw [List.mem_singleton.mp hz] at hyz
    obtain ⟨rfl, hi⟩ := Prod.mk.inj hyz
    exact absurd (hi.trans hseq) (Nat.ne_of_lt (hlt hmem))

theorem Moves.total (hm : R.Moves m w t c stage rounds addresses) (hwf : R.machine.WF) :
    (R.entered t c stage rounds addresses).total R.machine.process =
      R.total R.machine.process := by
  rw [Rounds.total, entered, List.map_append, List.sum_append]
  rcases hm.rounds_eq with ⟨rfl, -⟩ | ⟨r, rfl, hseq, -, -⟩
  · rfl
  · simp [hseq, seq, hwf.process.value_seq, Rounds.total]

theorem Good.moves (h : R.Good m x w n R.machine.process) (hwf : R.machine.WF)
    (hk : R.machine.control t = .ret) (hm : R.Moves m w t c stage rounds addresses)
    (hs : Machine.Performed R.machine (.call t c) (R.entered t c stage rounds addresses).machine) :
    (R.entered t c stage rounds addresses).Good m x w n R.machine.process := by
  have hcarries : ∀ u ≠ t, R.machine.Carries (R.entered t c stage rounds addresses).machine
      R.machine.process R.machine.process m u := fun u hu =>
    hwf.carries_of_ne hs (fun ha => hu (Option.some.inj ha).symm) rfl
  have hplaced : ∀ {u i a}, R.machine.Placed R.machine.process u i a →
      (R.entered t c stage rounds addresses).machine.Placed R.machine.process u i a := by
    intro u i a hp
    by_cases hu : u = t
    · subst hu
      exact .inl (hp.decoded_of_ret hk)
    · exact (hcarries u hu).placed hp
  have hlt : ∀ {r}, (t, r) ∈ R.rounds → r.store < R.seq t := fun hr => by
    obtain ⟨a, -, hp⟩ := h.store _ hr
    exact (List.getElem?_eq_some_iff.mp (hp.decoded_of_ret hk)).1
  have hnew := hm.rounds_eq
  -- each thread, and then the stores in the list: where they are, that they are current
  refine ⟨fun u => ?_, fun y hy => ?_, fun y hy hv => ?_, fun {u r} hr => ?_, ?_, ?_⟩
  · by_cases hu : u = t
    · subst hu
      exact (h.thread u).moves hwf (fun hst => hlt (h.mem (by rw [hst]; rfl))) hk hm
    · exact (h.thread u).transport (hcarries u hu) (Function.update_of_ne hu _ _)
        (fun a ha => List.mem_append_left _ ha) rfl rfl
  · rcases List.mem_append.mp hy with hold | hlast
    · obtain ⟨a, ha, hp⟩ := h.store y hold
      exact ⟨a, List.mem_append_left _ ha, hplaced hp⟩
    · rcases hnew with ⟨rfl, -⟩ | ⟨r, rfl, hseq, -, a, ha, rfl⟩
      · cases hlast
      · cases List.mem_singleton.mp hlast
        exact ⟨a, List.mem_append_right _ ha, .inr ⟨hseq, control_entered⟩⟩
  · rcases List.mem_append.mp hy with hold | hlast
    · have hst := h.current y hold hv
      by_cases hyt : y.1 = t
      · rw [hyt, stage_entered]
        rw [hyt] at hst hv
        exact hm.current (h.thread t) hk hst hv
      · rw [show (R.entered t c stage rounds addresses).stage y.1 = R.stage y.1 from
          Function.update_of_ne hyt _ _]
        exact hst
    · rcases hnew with ⟨rfl, -⟩ | ⟨r, rfl, -, rfl, -⟩
      · cases hlast
      · cases List.mem_singleton.mp hlast
        rw [stage_entered]
        rfl
  · by_cases hu : u = t
    · subst hu
      rw [stage_entered] at hr
      rcases hnew with ⟨rfl, hold⟩ | ⟨r', rfl, -, rfl, -⟩
      · exact List.mem_append_left _ (h.mem (hold hr))
      · cases hr
        exact List.mem_append_right _ (List.mem_singleton_self _)
    · rw [show (R.entered t c stage rounds addresses).stage u = R.stage u from
        Function.update_of_ne hu _ _] at hr
      exact List.mem_append_left _ (h.mem hr)
  · exact hm.nodup h.nodup hlt
  · rw [hm.total hwf]
    exact h.number

end Steps

section Runs

variable {m x w k n : ℕ} {R R' : Rounds} {s : Machine} {memory : Memory}

theorem Only.number_of_decoded {p q : Process} (h : R.Only m x w k q)
    (hw : w ∈ [8, 16, 32, 64, 128]) (hk : k ≤ p.log.length) (hd : q = p ∨ p.Decoded q) :
    q.memory.number x w = p.memory.number x w := by
  rcases hd with rfl | hd
  · rfl
  · cases hd with
    | push _ _ | addThread | join _ => rfl
    | store mem => exact h.number_eq (p := p) (e := .store p.memory mem) hw rfl hk nofun

theorem Good.other {b : MachineAction} (h : R.Good m x w n R.machine.process)
    (hwf : R.machine.WF) (hmutex : R.machine.MutexGood R.machine.process m)
    (hr : Recorded memory R.machine.process) (hw : w ∈ [8, 16, 32, 64, 128])
    (hk : k ≤ R.machine.process.log.length) (hb : Machine.Unused m R.machine b)
    (hs : Machine.Performed R.machine b s)
    (honly : Rounds.Only m x w k { R with machine := s } s.process) :
    Rounds.Good m x w n { R with machine := s } s.process := by
  obtain ⟨own, hown⟩ := hmutex.agrees
  -- what is left to show of an action of a task
  have htransport : (s.process = R.machine.process ∨ R.machine.process.Decoded s.process) →
      (∀ t, Machine.actor b = some t →
        R.machine.Carries s R.machine.process s.process m t) →
      Rounds.Good m x w n { R with machine := s } s.process := by
    intro hd hself
    have hval := hwf.value_of_decoded hd
    refine h.transport (fun t => ?_) rfl rfl rfl hval (honly.number_of_decoded hw hk hd)
    by_cases ht : Machine.actor b = some t
    · exact hself t ht
    · exact hwf.carries_of_ne hs ht hval
  cases id hs with
  | @main p hc _ =>
    refine htransport (.inr ?_) nofun
    rw [Machine.process_eq hc]
    exact .addThread
  | @enter p t c hc _ hret _ =>
    refine htransport (.inl rfl) fun u hu => ?_
    cases hu
    exact Machine.carries_enter hwf hret fun hc => hb (hc ▸ rfl)
  | @poll p t _ hc _ hpoll =>
    have hp := Machine.process_eq hc
    subst hp
    refine htransport hpoll.process_decoded fun u hu => ?_
    cases hu
    exact (hown.point t).carries hwf hc hpoll
  | @pass config ha | @choose config _ ha =>
    have honly' : R.Only m x w k config.process := ⟨honly.word, honly.location, honly.address⟩
    exact (h.processAct hwf hr hw hmutex.plain hk ha nofun honly').transport
      (fun t => Machine.carries_of_eq rfl rfl rfl rfl (fun _ => rfl) rfl) rfl rfl rfl rfl rfl

/-- What is true of the rounds in a run, if the word and the location are left to them. -/
structure Run (memory : Memory) (m x w k n : ℕ) (R : Rounds) : Prop where
  reachable : Machine.Reachable (fun _ _ => True) memory R.machine
  length : k ≤ R.machine.process.log.length
  mutex : R.Only m x w k R.machine.process → R.machine.MutexGood R.machine.process m
  good : R.Only m x w k R.machine.process → R.Good m x w n R.machine.process

theorem Run.performed {b : MachineAction} (h : R.Run memory m x w k n) (hm : m < 2 ^ 64)
    (hs : Machine.Performed R.machine b R'.machine) (honly : R'.Only m x w k R'.machine.process)
    (hrounds : ∀ y ∈ R'.rounds, y ∈ R.rounds ∨ R.machine.process.value y.1 y.2.store = none)
    (haddr : ∀ a ∈ R.addresses, a ∈ R'.addresses)
    (hD : R.Good m x w n R.machine.process → R.machine.ByHolder m b) :
    R'.machine.MutexGood R'.machine.process m ∧ R.Only m x w k R.machine.process := by
  have hwf := h.reachable.wf
  have hgrows := (hwf.frame hs).grows
  have honly' : R.Only m x w k R.machine.process := by
    refine ⟨honly.word.mono hwf.process hgrows.log fun t i hv => hwf.backtrace_of_value hs hv,
      fun e he hold => ?_, fun a ha v hv => honly.address a (haddr a ha) v
        (hgrows.toExtends.tryGet hv)⟩
    refine honly.location e ((hgrows.log.drop k).subset he) fun y hy hid => ?_
    rcases hrounds y hy with hy | hv
    · exact hold y hy hid
    · -- an event of a thunk that has no value
      cases e with
      | store _ _ => cases hid
      | res t i v m₁ m₂ =>
        cases hid
        have hv' := hwf.process.logged.mpr ⟨m₁, m₂, List.mem_of_mem_drop he⟩
        exact nomatch hv.symm.trans hv'
  refine ⟨?_, honly'⟩
  exact (h.mutex honly').performed hwf h.reachable.recorded hm h.length (hD (h.good honly')) hs
    honly.word

theorem run_of_wake (hwf : R.machine.WF)
    (hreach : Machine.Reachable (fun _ _ => True) memory R.machine.wake)
    (hlen : k ≤ R.machine.process.log.length)
    (h : R.Only m x w k R.machine.process →
      R.machine.MutexGood R.machine.process m ∧ R.Good m x w n R.machine.process) :
    Rounds.Run memory m x w k n { R with machine := R.machine.wake } := by
  have honly : Rounds.Only m x w k { R with machine := R.machine.wake } R.machine.process →
      R.Only m x w k R.machine.process := fun h => ⟨h.word, h.location, h.address⟩
  refine ⟨hreach, hlen, fun ho => ?_, fun ho => ?_⟩
  · exact (h (honly ho)).1.congr hwf rfl rfl rfl rfl rfl
  · exact (h (honly ho)).2.transport
      (fun t => Machine.carries_of_eq rfl rfl rfl rfl (fun _ => rfl) rfl) rfl rfl rfl rfl rfl

theorem byHolder_of_unused {b : MachineAction} (h : Machine.Unused m s b) :
    s.ByHolder m b := by
  cases b with
  | call t c =>
    cases c with
    | mutexUnlock n => exact fun hn => absurd hn h
    | condWait _ n => exact h
    | mutexTrylock _ | mutexLock _ | mutexInit _ | condBroadcast _ | condSignal _ | create _ _
    | join _ _ | decode _ | await _ | threadLocal _ _ | exit _ => trivial
  | addMain | poll _ | pass | choose _ => trivial

theorem Run.act {a : RoundAction} (h : R.Run memory m x w k n) (hm : m < 2 ^ 64)
    (hw : w ∈ [8, 16, 32, 64, 128]) (ha : R.act m w a = some R') : R'.Run memory m x w k n := by
  have hwf := h.reachable.wf
  rcases act_cases ha with ⟨t, c, stage, rounds, addresses, hmoves, hcall, -⟩ |
    ⟨b, s', hb, hact, rfl, -⟩
  · obtain ⟨s', hact, rfl⟩ := Option.map_eq_some_iff.mp hcall
    have hreach := h.reachable.act trivial hact
    obtain ⟨-, s₁, hs₁, rfl⟩ := Machine.act_eq_some hact
    have hs := Machine.performed_of_perform hs₁
    obtain ⟨hk, rfl⟩ : R.machine.control t = .ret ∧
        s₁ = (R.entered t c stage rounds addresses).machine := by
      cases hs with
      | enter _ _ hk _ => exact ⟨hk, rfl⟩
    refine run_of_wake (R := R.entered t c stage rounds addresses) (hwf.performed hs) hreach
      h.length fun honly => ?_
    have hnew : ∀ y ∈ R.rounds ++ rounds, y ∈ R.rounds ∨
        R.machine.process.value y.1 y.2.store = none := by
      intro y hy
      rcases List.mem_append.mp hy with hold | hlast
      · exact .inl hold
      · rcases hmoves.rounds_eq with ⟨rfl, -⟩ | ⟨r, rfl, hseq, -, -⟩
        · cases hlast
        · cases List.mem_singleton.mp hlast
          exact .inr (by rw [hseq]; exact hwf.process.value_seq t)
    have hD : R.Good m x w n R.machine.process → R.machine.ByHolder m (.call t c) := by
      intro hgood
      -- the mutex is unlocked at the end of a round only
      cases hmoves with
      | lock _ | load _ | add _ | store _ => trivial
      | unlock hst => exact fun _ => (hgood.thread t).holds_of_ret hwf hk (by rw [hst]; rfl)
    obtain ⟨hmutex, honly'⟩ := h.performed hm hs honly hnew
      (fun a ha => List.mem_append_left _ ha) hD
    exact ⟨hmutex, (h.good honly').moves hwf hk hmoves hs⟩
  · have hreach := h.reachable.act trivial hact
    obtain ⟨-, s₁, hs₁, rfl⟩ := Machine.act_eq_some hact
    have hs := Machine.performed_of_perform hs₁
    have hlen := h.length.trans (hwf.frame hs).grows.log.length_le
    refine run_of_wake (R := { R with machine := s₁ }) (hwf.performed hs) hreach hlen
      fun honly => ?_
    have hperformed : s₁.MutexGood s₁.process m ∧ R.Only m x w k R.machine.process :=
      h.performed hm hs honly (fun _ => .inl) (fun _ => id) fun _ => byHolder_of_unused hb
    obtain ⟨hmutex, honly'⟩ := hperformed
    exact ⟨hmutex, (h.good honly').other hwf (h.mutex honly') h.reachable.recorded hw h.length hb
      hs honly⟩

theorem Run.run {l : List RoundAction} (h : R.Run memory m x w k n) (hm : m < 2 ^ 64)
    (hw : w ∈ [8, 16, 32, 64, 128]) (hl : R.run m w l = some R') : R'.Run memory m x w k n := by
  induction l generalizing R with
  | nil =>
    cases hl
    exact h
  | cons a l ih =>
    obtain ⟨R₁, ha, hl⟩ := Option.bind_eq_some_iff.mp hl
    exact ih (h.act hm hw ha) hl

theorem run_start (h : Machine.Reachable (Machine.Unused m) memory s)
    (hword : s.process.memory.number m 64 = unlocked) (hw : w ∈ [8, 16, 32, 64, 128]) :
    (start s).Run memory m x w s.process.log.length (s.process.memory.number x w) where
  reachable := h.weaken fun _ _ _ => trivial
  length := le_rfl
  mutex _ := h.untouched.mutexGood hword
  good _ := by
    refine ⟨fun t => ⟨nofun, nofun, nofun, nofun, nofun, nofun, nofun⟩, nofun, nofun, nofun,
      List.nodup_nil, ?_⟩
    exact (number_mod hw).symm

end Runs

section Constants

variable {m w : ℕ} {R R' : Rounds} {ts : List ThreadId}

def constants (R : Rounds) (ts : List ThreadId) : ℕ :=
  (R.rounds.map fun y => y.2.constant).sum + (ts.map fun t => (R.stage t).pending).sum

theorem constants_act {a : RoundAction} (hts : ts.Nodup)
    (ht : ∀ t, a.thread = some t → t ∈ ts) (ha : R.act m w a = some R') :
    R'.constants ts = R.constants ts + a.constant := by
  rcases act_cases ha with ⟨t, c, stage, rounds, addresses, -, hcall, hthread, hsum⟩ |
    ⟨b, s', -, -, rfl, h0⟩
  · obtain ⟨s', -, rfl⟩ := Option.map_eq_some_iff.mp hcall
    have hpending := sum_map_of_mem hts (ht t hthread)
      (f := fun u => (R.stage u).pending)
      (g := fun u => (Function.update R.stage t stage u).pending)
      fun u _ hu => by rw [Function.update_of_ne hu]
    rw [Function.update_self] at hpending
    simp only [constants, List.map_append, List.sum_append]
    omega
  · rw [h0]
    rfl

theorem constants_run {l : List RoundAction} (hts : ts.Nodup)
    (ht : ∀ a ∈ l, ∀ t, a.thread = some t → t ∈ ts) (hl : R.run m w l = some R') :
    R'.constants ts = R.constants ts + (l.map RoundAction.constant).sum := by
  induction l generalizing R with
  | nil =>
    cases hl
    rfl
  | cons a l ih =>
    obtain ⟨R₁, ha, hl⟩ := Option.bind_eq_some_iff.mp hl
    rw [ih (fun b hb => ht b (List.mem_cons_of_mem a hb)) hl,
      constants_act hts (ht a List.mem_cons_self) ha, List.map_cons, List.sum_cons,
      Nat.add_assoc]

end Constants

section Done

variable {m x w n : ℕ} {R : Rounds}

theorem lt_of_placed {s : Machine} {t : ThreadId} {i : ℕ} {a : ThunkArgs} (hwf : s.WF)
    (h : s.Placed s.process t i a) : t < s.process.nextThreadid := by
  refine Nat.lt_of_not_le fun hle => ?_
  rcases h with hdec | ⟨-, hk⟩
  · rw [hwf.process.fresh hle] at hdec
    cases hdec
  · rw [(hwf.fresh t hle).1] at hk
    cases hk

theorem Good.pending_eq_zero (h : R.Good m x w n R.machine.process) (hwf : R.machine.WF)
    (hdone : ∀ t < R.machine.process.nextThreadid, R.Done m t) (t : ThreadId) :
    (R.stage t).pending = 0 := by
  cases hst : R.stage t with
  | outside | entered | loaded _ | stored _ | left _ => rfl
  | added l i n =>
    have hlt := lt_of_placed hwf ((h.thread t).add (by rw [hst]; rfl))
    have hd := (hdone t hlt).1
    rw [hst] at hd
    cases hd

theorem Good.resolved (h : R.Good m x w n R.machine.process) (hwf : R.machine.WF)
    (hdone : ∀ t < R.machine.process.nextThreadid, R.Done m t) :
    ∀ y ∈ R.rounds, R.machine.process.value y.1 y.2.store ≠ none := by
  intro y hy hv
  obtain ⟨a, -, hp⟩ := h.store y hy
  have hd := hdone y.1 (lt_of_placed hwf hp)
  have hst := h.current y hy hv
  cases hstage : R.stage y.1 with
  | left r =>
    rw [hstage] at hst
    cases hst
    rcases (h.thread y.1).left hstage with hv' | hleave
    · exact hv' hv
    · exact absurd (hd.2 _ hleave.call rfl) (hleave.control_ne nofun nofun)
  | outside | entered | loaded _ | added _ _ _ =>
    rw [hstage] at hst
    cases hst
  | stored r =>
    have hd := hd.1
    rw [hstage] at hd
    cases hd

end Done

/-- No update is lost: once every thread is out of its rounds, the location holds what it held
at first and all the constants that were added. -/
theorem number_of_rounds {m x w : ℕ} (hm : m < 2 ^ 64) (hw : w ∈ [8, 16, 32, 64, 128])
    {memory : Memory} {s : Machine} (hs : Machine.Reachable (Machine.Unused m) memory s)
    (hword : s.process.memory.number m 64 = unlocked) {l : List RoundAction} {R : Rounds}
    (hrun : (start s).run m w l = some R)
    (honly : R.Only m x w s.process.log.length R.machine.process)
    (hdone : ∀ t < R.machine.process.nextThreadid, R.Done m t) :
    R.machine.process.memory.number x w =
      (s.process.memory.number x w + (l.map RoundAction.constant).sum) % 2 ^ w := by
  have hend := (run_start (x := x) hs hword hw).run hm hw hrun
  have hwf := hend.reachable.wf
  have hgood := hend.good honly
  have htotal : R.total R.machine.process = (R.rounds.map fun y => y.2.constant).sum := by
    refine congrArg List.sum (List.map_congr_left fun y hy => ?_)
    rw [if_pos (Option.isSome_iff_ne_none.mpr (hgood.resolved hwf hdone y hy))]
  -- no constant is still to be stored
  have hconstants := constants_run (List.nodup_dedup (l.filterMap RoundAction.thread))
    (fun a ha t ht => List.mem_dedup.mpr (List.mem_filterMap.mpr ⟨a, ha, ht⟩)) hrun
  have hpending : ∀ ts : List ThreadId, (ts.map fun t => (R.stage t).pending).sum = 0 :=
    fun ts => by simp [hgood.pending_eq_zero hwf hdone]
  have hstart : ∀ ts : List ThreadId, (start s).constants ts = 0 := fun ts => by
    simp [constants, start, Stage.pending]
  rw [constants, hpending, hstart, Nat.add_zero, Nat.zero_add] at hconstants
  rw [hgood.number, htotal, hconstants]

/-- Two threads go through a round each, and the sum wraps around. -/
theorem number_of_rounds_two : ∃ memory l R, memory.number 4096 64 = unlocked ∧
    memory.number 8192 32 = 5 ∧ (start (Machine.new memory)).run 4096 32 l = some R ∧
    R.Only 4096 8192 32 0 R.machine.process ∧
    (∀ t < R.machine.process.nextThreadid, R.Done 4096 t) ∧
    l.filterMap (fun a => a.thread.map fun t => (t, a.constant)) =
      [(1, 0), (0, 0), (1, 0), (1, 2 ^ 32 - 1), (1, 0), (1, 0), (0, 0), (0, 7), (0, 0), (0, 0)] ∧
    R.machine.process.memory.number 8192 32 = 11 := by
  let memory := (Memory.new.write 4096 (Value.new 64 unlocked).imp).write 8192 (Value.new 32 5).imp
  let polls (t : ThreadId) (n : ℕ) : List RoundAction := List.replicate n (.other (.poll t))
  let l : List RoundAction := List.flatten [.other .addMain :: polls 0 2,
    .other (.call 0 (.create 64 (Value.new 64 0))) :: polls 0 5, polls 1 1,
    .lock 1 :: polls 1 7, .other .pass :: polls 0 2, .lock 0 :: polls 0 2,
    [.other .pass, .other .pass, .other (.choose 0)], polls 1 2,
    .load 1 (ptr 8192) :: polls 1 1, .add 1 (2 ^ 32 - 1) :: polls 1 1,
    .store 1 (ptr 8192) :: polls 1 1, .unlock 1 :: polls 1 5,
    [.other .pass, .other .pass, .other .pass, .other (.choose 0)], polls 1 3,
    .other (.call 1 (.exit (.cell 1 13))) :: polls 1 1, polls 0 6, .other .pass :: polls 1 2,
    [.other .pass, .other (.choose 0)], polls 0 2,
    .load 0 (ptr 8192) :: polls 0 1, .add 0 7 :: polls 0 1,
    .store 0 (ptr 8192) :: polls 0 1, .unlock 0 :: polls 0 5,
    [.other .pass, .other .pass, .other .pass, .other (.choose 0)], polls 0 3]
  have hrun : memory.number 4096 64 = unlocked ∧ memory.number 8192 32 = 5 ∧
      ∃ R ∈ (start (Machine.new memory)).run 4096 32 l, R.Only 4096 8192 32 0 R.machine.process ∧
        ∀ t < R.machine.process.nextThreadid, R.Done 4096 t := by
    decide +kernel
  obtain ⟨hword, hx, R, hR, honly, hdone⟩ := hrun
  have hnew : Machine.Reachable (Machine.Unused 4096) memory (Machine.new memory) := .new
  have hnum := number_of_rounds (by decide) (by decide) hnew hword hR honly hdone
  refine ⟨memory, l, R, hword, hx, hR, honly, hdone, by decide, hnum.trans ?_⟩
  rw [show (Machine.new memory).process.memory.number 8192 32 = 5 from hx]
  decide

end Rounds

end AtomicSim
