import Mathlib.Data.List.Nodup
import Mathlib.Logic.Function.Iterate
import Mathlib.Logic.Relation

namespace AtomicSim

/-- The sending half of a oneshot channel; dropping it wakes the task that awaits the other
half. -/
abbrev Sender := ℕ

structure MutexInner where
  locked : Bool
  queue : List Sender
  deriving DecidableEq, Repr

/-- Each waiter comes with the mutex it is to get back. -/
structure CondvarInner where
  queue : List (ℕ × Sender)
  deriving DecidableEq, Repr

namespace MutexInner

def new : MutexInner := ⟨false, []⟩

def tryLock (m : MutexInner) : Bool × MutexInner :=
  if m.locked then (false, m) else (true, { m with locked := true })

/-- `lock` up to its `await`; the flag says that there is none. -/
def lock (m : MutexInner) (sender : Sender) : Bool × MutexInner :=
  if m.locked then (false, { m with queue := m.queue ++ [sender] })
  else (true, { m with locked := true })

/-- `unlock` and the sender it drops; `none` where its assertion fails. -/
def unlock (m : MutexInner) : Option (Option Sender × MutexInner) :=
  if m.locked then
    match m.queue with
    | [] => some (none, { m with locked := false })
    | sender :: queue => some (some sender, { m with queue })
  else none

/-- `notify_impl` and the sender it drops. -/
def notifyImpl (m : MutexInner) (sender : Sender) : Option Sender × MutexInner :=
  if m.locked then (none, { m with queue := m.queue ++ [sender] }) else (some sender, m)

end MutexInner

inductive Queue where
  | mutex (m : ℕ)
  | condvar (c : ℕ)
  deriving DecidableEq, Repr

abbrev TaskId := ℕ

/-- All mutexes and condition variables, and the tasks that use them: what each task waits
for, which mutexes it holds, and which senders have entered and left each queue. -/
structure Sync where
  mutexes : ℕ → MutexInner
  condvars : ℕ → CondvarInner
  nextSender : Sender
  waiting : TaskId → Option (Sender × ℕ)
  holds : TaskId → ℕ → Bool
  entered : Queue → List Sender
  left : Queue → List Sender

namespace Sync

def new : Sync :=
  ⟨fun _ => .new, fun _ => ⟨[]⟩, 0, fun _ => none, fun _ _ => false, fun _ => [], fun _ => []⟩

def queue (s : Sync) : Queue → List Sender
  | .mutex m => (s.mutexes m).queue
  | .condvar c => (s.condvars c).queue.map Prod.snd

def setMutex (s : Sync) (m : ℕ) (x : MutexInner) : Sync :=
  { s with mutexes := Function.update s.mutexes m x }

def setCondvar (s : Sync) (c : ℕ) (x : CondvarInner) : Sync :=
  { s with condvars := Function.update s.condvars c x }

def enter (s : Sync) (q : Queue) (sender : Sender) : Sync :=
  { s with entered := Function.update s.entered q (s.entered q ++ [sender]) }

def leave (s : Sync) (q : Queue) (sender : Sender) : Sync :=
  { s with left := Function.update s.left q (s.left q ++ [sender]) }

def setHolds (s : Sync) (a : TaskId) (m : ℕ) (b : Bool) : Sync :=
  { s with holds := Function.update s.holds a (Function.update (s.holds a) m b) }

/-- Task `a` makes a channel and awaits its receiver, to get mutex `m`. -/
def await (s : Sync) (a : TaskId) (m : ℕ) : Sync :=
  { s with
    nextSender := s.nextSender + 1
    waiting := Function.update s.waiting a (some (s.nextSender, m)) }

/-- The task that awaits this sender's channel returns from its call with the mutex. -/
def drop (s : Sync) (sender : Sender) : Sync :=
  { s with
    waiting := fun a => if (s.waiting a).map Prod.fst = some sender then none else s.waiting a
    holds := fun a m => s.holds a m || s.waiting a == some (sender, m) }

def lock (s : Sync) (a : TaskId) (m : ℕ) : Sync :=
  match (s.mutexes m).lock s.nextSender with
  | (true, x) => (s.setMutex m x).setHolds a m true
  | (false, x) => ((s.setMutex m x).enter (.mutex m) s.nextSender).await a m

def tryLock (s : Sync) (a : TaskId) (m : ℕ) : Sync :=
  match (s.mutexes m).tryLock with
  | (true, x) => (s.setMutex m x).setHolds a m true
  | (false, _) => s

def unlock (s : Sync) (a : TaskId) (m : ℕ) : Option Sync :=
  match (s.mutexes m).unlock with
  | none => none
  | some (none, x) => some ((s.setMutex m x).setHolds a m false)
  | some (some sender, x) =>
    -- the mutex stays locked and passes to the first waiter
    some ((((s.setMutex m x).leave (.mutex m) sender).setHolds a m false).drop sender)

def wait (s : Sync) (a : TaskId) (c m : ℕ) : Option Sync :=
  (s.unlock a m).map fun s =>
    let queue := (s.condvars c).queue ++ [(m, s.nextSender)]
    ((s.setCondvar c ⟨queue⟩).enter (.condvar c) s.nextSender).await a m

def notify (s : Sync) (c : ℕ) : Sync :=
  match (s.condvars c).queue with
  | [] => s
  | (m, sender) :: queue =>
    let s := (s.setCondvar c ⟨queue⟩).leave (.condvar c) sender
    match (s.mutexes m).notifyImpl sender with
    | (none, x) => (s.setMutex m x).enter (.mutex m) sender
    | (some sender, x) => (s.setMutex m x).drop sender

/-- `drain(..)` takes the waiters from the front of the queue, one after the other. -/
def notifyAll (s : Sync) (c : ℕ) : Sync :=
  Nat.iterate (fun s : Sync => s.notify c) (s.condvars c).queue.length s

end Sync

inductive SyncAction where
  | lock (a : TaskId) (m : ℕ)
  | tryLock (a : TaskId) (m : ℕ)
  | unlock (a : TaskId) (m : ℕ)
  | wait (a : TaskId) (c m : ℕ)
  | notify (c : ℕ)
  | notifyAll (c : ℕ)

namespace Sync

/-- What happens between two `await` points. A task that waits does nothing. -/
def act (s : Sync) : SyncAction → Option Sync
  | .lock a m => if s.waiting a = none then some (s.lock a m) else none
  | .tryLock a m => if s.waiting a = none then some (s.tryLock a m) else none
  | .unlock a m => if s.waiting a = none then s.unlock a m else none
  | .wait a c m => if s.waiting a = none then s.wait a c m else none
  | .notify c => some (s.notify c)
  | .notifyAll c => some (s.notifyAll c)

/-- A run that goes on while its actions meet `D`. -/
def run (D : Sync → SyncAction → Prop) [∀ s a, Decidable (D s a)] (s : Sync) :
    List SyncAction → Option Sync
  | [] => some s
  | a :: as => if D s a then (s.act a).bind fun s' => s'.run D as else none

/-- The states of the runs whose actions meet `D` when they are taken. -/
inductive Reachable (D : Sync → SyncAction → Prop) : Sync → Prop
  | new : Reachable D new
  | act {s s' : Sync} {a : SyncAction} : Reachable D s → D s a → s.act a = some s' →
      Reachable D s'

theorem Reachable.run {D : Sync → SyncAction → Prop} [∀ s a, Decidable (D s a)] {s s' : Sync}
    {as : List SyncAction} (h : Reachable D s) (hr : s.run D as = some s') : Reachable D s' := by
  induction as generalizing s with
  | nil =>
    cases hr
    exact h
  | cons a as ih =>
    rw [Sync.run] at hr
    split_ifs at hr with hD
    obtain ⟨s₁, hs₁, hr⟩ := Option.bind_eq_some_iff.mp hr
    exact ih (h.act hD hs₁) hr

theorem queue_setMutex (s : Sync) (m : ℕ) (x : MutexInner) :
    (s.setMutex m x).queue = Function.update s.queue (.mutex m) x.queue := by
  funext q
  cases q with
  | mutex n =>
    by_cases h : n = m
    · subst h
      simp [queue, setMutex]
    · simp [queue, setMutex, Function.update_of_ne, h]
  | condvar c => simp [queue, setMutex]

theorem queue_setCondvar (s : Sync) (c : ℕ) (x : CondvarInner) :
    (s.setCondvar c x).queue = Function.update s.queue (.condvar c) (x.queue.map Prod.snd) := by
  funext q
  cases q with
  | mutex m => simp [queue, setCondvar]
  | condvar d =>
    by_cases h : d = c
    · subst h
      simp [queue, setCondvar]
    · simp [queue, setCondvar, Function.update_of_ne, h]

/-- Every sender that a task waits for is in hand or in one place of one queue, and each
queue holds what has entered it and not left, in order. -/
structure Queued (hand : Option Sender) (s : Sync) : Prop where
  nodup : ∀ q, (s.queue q).Nodup
  apart : ∀ {q q' x}, x ∈ s.queue q → x ∈ s.queue q' → q = q'
  fresh : ∀ {q x}, x ∈ s.queue q → x < s.nextSender
  hand_notMem : ∀ {x q}, hand = some x → x ∉ s.queue q
  hand_fresh : ∀ {x}, hand = some x → x < s.nextSender
  waiting : ∀ {a x m}, s.waiting a = some (x, m) → hand = some x ∨ ∃ q, x ∈ s.queue q
  fifo : ∀ q, s.entered q = s.left q ++ s.queue q

/-- What `Queued` looks at. -/
structure SameQueues (s s' : Sync) : Prop where
  queue : s'.queue = s.queue
  nextSender : s'.nextSender = s.nextSender
  waiting : s'.waiting = s.waiting
  entered : s'.entered = s.entered
  left : s'.left = s.left

namespace Queued

variable {s s' : Sync} {hand : Option Sender} {q : Queue} {x : Sender}

theorem congr (h : Queued hand s) (hs : SameQueues s s') : Queued hand s' := by
  obtain ⟨hq, hn, hw, he, hl⟩ := hs
  exact ⟨hq ▸ h.nodup, hq ▸ h.apart, hq ▸ hn ▸ h.fresh, hq ▸ h.hand_notMem, hn ▸ h.hand_fresh,
    hq ▸ hw ▸ h.waiting, hq ▸ he ▸ hl ▸ h.fifo⟩

theorem push (h : Queued (some x) s)
    (hq : s'.queue = Function.update s.queue q (s.queue q ++ [x]))
    (hn : s'.nextSender = s.nextSender) (hw : s'.waiting = s.waiting)
    (he : s'.entered = Function.update s.entered q (s.entered q ++ [x]))
    (hl : s'.left = s.left) : Queued none s' := by
  have hmem : ∀ {q' y}, y ∈ s'.queue q' ↔ y ∈ s.queue q' ∨ (q' = q ∧ y = x) := by
    intro q' y
    rw [hq]
    by_cases h' : q' = q
    · subst h'
      simp
    · simp [h']
  refine ⟨fun q' => ?_, fun {q₁ q₂ y} h₁ h₂ => ?_, fun {q' y} hy => ?_, nofun, nofun,
    fun {a y m} ha => ?_, fun q' => ?_⟩
  · rw [hq]
    by_cases h' : q' = q
    · subst h'
      rw [Function.update_self, List.nodup_append]
      refine ⟨h.nodup q', List.pairwise_singleton _ _, fun y hy z hz hyz => ?_⟩
      rw [hyz, List.mem_singleton.mp hz] at hy
      exact h.hand_notMem rfl hy
    · rw [Function.update_of_ne h']
      exact h.nodup q'
  · rcases hmem.mp h₁ with h₁ | ⟨rfl, rfl⟩ <;> rcases hmem.mp h₂ with h₂ | ⟨rfl, h₂⟩
    · exact h.apart h₁ h₂
    · exact absurd h₁ (h₂ ▸ h.hand_notMem rfl)
    · exact absurd h₂ (h.hand_notMem rfl)
    · rfl
  · rw [hn]
    rcases hmem.mp hy with hy | ⟨-, rfl⟩
    · exact h.fresh hy
    · exact h.hand_fresh rfl
  · rw [hw] at ha
    rcases h.waiting ha with hx | ⟨q', hq'⟩
    · cases hx
      exact .inr ⟨q, hmem.mpr (.inr ⟨rfl, rfl⟩)⟩
    · exact .inr ⟨q', hmem.mpr (.inl hq')⟩
  · rw [he, hl, hq]
    by_cases h' : q' = q
    · subst h'
      rw [Function.update_self, Function.update_self, h.fifo, List.append_assoc]
    · rw [Function.update_of_ne h', Function.update_of_ne h', h.fifo]

theorem pop (h : Queued none s) {tl : List Sender} (hs : s.queue q = x :: tl)
    (hq : s'.queue = Function.update s.queue q tl)
    (hn : s'.nextSender = s.nextSender) (hw : s'.waiting = s.waiting)
    (he : s'.entered = s.entered)
    (hl : s'.left = Function.update s.left q (s.left q ++ [x])) : Queued (some x) s' := by
  have hnd := h.nodup q
  rw [hs, List.nodup_cons] at hnd
  have hmem : ∀ {q' y}, y ∈ s'.queue q' → y ∈ s.queue q' ∧ y ≠ x := by
    intro q' y hy
    rw [hq] at hy
    by_cases h' : q' = q
    · subst h'
      rw [Function.update_self] at hy
      rw [hs]
      exact ⟨List.mem_cons_of_mem _ hy, fun hyx => hnd.1 (hyx ▸ hy)⟩
    · rw [Function.update_of_ne h'] at hy
      exact ⟨hy, fun hyx => h' (h.apart hy (hs ▸ hyx ▸ List.mem_cons_self))⟩
  refine ⟨fun q' => ?_, fun h₁ h₂ => h.apart (hmem h₁).1 (hmem h₂).1, fun hy => ?_,
    fun {y q'} hy hy' => ?_, fun {y} hy => ?_, fun {a y m} ha => ?_, fun q' => ?_⟩
  · rw [hq]
    by_cases h' : q' = q
    · subst h'
      rw [Function.update_self]
      exact hnd.2
    · rw [Function.update_of_ne h']
      exact h.nodup q'
  · rw [hn]
    exact h.fresh (hmem hy).1
  · cases hy
    exact (hmem hy').2 rfl
  · cases hy
    rw [hn]
    exact h.fresh (hs ▸ List.mem_cons_self : x ∈ s.queue q)
  · rw [hw] at ha
    obtain ⟨q', hq'⟩ := (h.waiting ha).resolve_left nofun
    by_cases hyx : y = x
    · exact .inl (congrArg some hyx.symm)
    · refine .inr ⟨q', ?_⟩
      rw [hq]
      by_cases h' : q' = q
      · subst h'
        rw [Function.update_self]
        rw [hs] at hq'
        exact (List.mem_cons.mp hq').resolve_left hyx
      · rwa [Function.update_of_ne h']
  · rw [he, hl, hq]
    by_cases h' : q' = q
    · subst h'
      rw [Function.update_self, Function.update_self, h.fifo, hs, List.append_assoc]
      rfl
    · rw [Function.update_of_ne h', Function.update_of_ne h', h.fifo]

theorem leaveMutex (h : Queued none s) {m : ℕ} {tl : List Sender}
    (hx : (s.mutexes m).queue = x :: tl) :
    Queued (some x) ((s.setMutex m ⟨true, tl⟩).leave (.mutex m) x) :=
  h.pop (q := .mutex m) hx (queue_setMutex s m _) rfl rfl rfl rfl

theorem leaveCondvar (h : Queued none s) {c m : ℕ} {tl : List (ℕ × Sender)}
    (hx : (s.condvars c).queue = (m, x) :: tl) :
    Queued (some x) ((s.setCondvar c ⟨tl⟩).leave (.condvar c) x) := by
  have hq : s.queue (.condvar c) = x :: tl.map Prod.snd := by
    rw [Sync.queue, hx]
    rfl
  exact h.pop hq (queue_setCondvar s c _) rfl rfl rfl rfl

theorem drop (h : Queued (some x) s) : Queued none (s.drop x) := by
  refine ⟨h.nodup, h.apart, h.fresh, nofun, nofun, fun {a y m} ha => ?_, h.fifo⟩
  simp only [Sync.drop] at ha
  split_ifs at ha with hax
  rcases h.waiting ha with hx | hq
  · cases hx
    rw [ha] at hax
    exact absurd rfl hax
  · exact .inr hq

theorem await (h : Queued none s) (a : TaskId) (m : ℕ) :
    Queued (some s.nextSender) (s.await a m) := by
  refine ⟨h.nodup, h.apart, fun hx => Nat.lt_succ_of_lt (h.fresh hx), fun hx hq => ?_, ?_,
    fun {b y n} hb => ?_, h.fifo⟩
  · cases hx
    exact Nat.lt_irrefl _ (h.fresh hq)
  · rintro y hy
    cases hy
    exact Nat.lt_succ_self _
  · simp only [Sync.await, Function.update_apply] at hb
    split_ifs at hb with hba
    · cases hb
      exact .inl rfl
    · exact .inr ((h.waiting hb).resolve_left nofun)

theorem setMutex (h : Queued hand s) (m : ℕ) (y : MutexInner)
    (hy : y.queue = (s.mutexes m).queue) : Queued hand (s.setMutex m y) := by
  refine h.congr ⟨?_, rfl, rfl, rfl, rfl⟩
  rw [queue_setMutex, hy]
  exact Function.update_eq_self (Queue.mutex m) s.queue

theorem setHolds (h : Queued hand s) (a : TaskId) (m : ℕ) (b : Bool) :
    Queued hand (s.setHolds a m b) :=
  h.congr ⟨rfl, rfl, rfl, rfl, rfl⟩

end Queued

theorem queue_new (q : Queue) : new.queue q = [] := by cases q <;> rfl

theorem queued_new : Queued none new where
  nodup q := queue_new q ▸ List.nodup_nil
  apart hx := by simp [queue_new] at hx
  fresh hx := by simp [queue_new] at hx
  hand_notMem := nofun
  hand_fresh := nofun
  waiting := nofun
  fifo q := (queue_new q).symm

/-- In strict runs only a holder unlocks, and no notification finds a mutex unlocked. -/
inductive Step (strict : Prop) (s : Sync) : Sync → Prop
  | grant {a m} : s.waiting a = none → (s.mutexes m).locked = false →
      Step strict s ((s.setMutex m ⟨true, (s.mutexes m).queue⟩).setHolds a m true)
  | block {a m} : s.waiting a = none → (s.mutexes m).locked = true →
      Step strict s (((s.setMutex m ⟨true, (s.mutexes m).queue ++ [s.nextSender]⟩).enter
        (.mutex m) s.nextSender).await a m)
  | release {a m} : s.waiting a = none → (s.mutexes m).locked = true → (s.mutexes m).queue = [] →
      (strict → s.holds a m) → Step strict s ((s.setMutex m ⟨false, []⟩).setHolds a m false)
  | handOff {a m x tl} : s.waiting a = none → (s.mutexes m).locked = true →
      (s.mutexes m).queue = x :: tl → (strict → s.holds a m) →
      Step strict s ((((s.setMutex m ⟨true, tl⟩).leave (.mutex m) x).setHolds a m false).drop x)
  | park {a c m} : s.waiting a = none →
      Step strict s (((s.setCondvar c ⟨(s.condvars c).queue ++ [(m, s.nextSender)]⟩).enter
        (.condvar c) s.nextSender).await a m)
  | requeue {c m x tl} : (s.condvars c).queue = (m, x) :: tl → (s.mutexes m).locked = true →
      Step strict s ((((s.setCondvar c ⟨tl⟩).leave (.condvar c) x).setMutex m
        ⟨true, (s.mutexes m).queue ++ [x]⟩).enter (.mutex m) x)
  | wake {c m x tl} : (s.condvars c).queue = (m, x) :: tl → (s.mutexes m).locked = false →
      ¬ strict →
      Step strict s (((s.setCondvar c ⟨tl⟩).leave (.condvar c) x).setMutex m
        (s.mutexes m) |>.drop x)

abbrev Steps (strict : Prop) : Sync → Sync → Prop := Relation.ReflTransGen (Step strict)

/-- The assumption on who calls `unlock` and `wait`. -/
def ByHolder (s : Sync) : SyncAction → Prop
  | .unlock a m | .wait a _ m => s.holds a m
  | _ => True

/-- Every waiter that a notification takes from the queue finds its mutex locked. -/
def NotifiesLocked (s : Sync) : SyncAction → Prop
  | .notify c => ∀ e ∈ (s.condvars c).queue.head?, (s.mutexes e.1).locked
  | .notifyAll c => ∀ e ∈ (s.condvars c).queue, (s.mutexes e.1).locked
  | _ => True

instance (s : Sync) : DecidablePred s.ByHolder
  | .unlock a m | .wait a _ m => inferInstanceAs (Decidable (s.holds a m = true))
  | .lock _ _ | .tryLock _ _ | .notify _ | .notifyAll _ => inferInstanceAs (Decidable True)

instance (s : Sync) : DecidablePred s.NotifiesLocked
  | .notify c => inferInstanceAs (Decidable (∀ e ∈ (s.condvars c).queue.head?, _))
  | .notifyAll c => inferInstanceAs (Decidable (∀ e ∈ (s.condvars c).queue, _))
  | .lock _ _ | .tryLock _ _ | .unlock _ _ | .wait _ _ _ => inferInstanceAs (Decidable True)

section Steps

variable {strict : Prop} {s s' : Sync}

theorem steps_lock {a : TaskId} (ha : s.waiting a = none) (m : ℕ) :
    Steps strict s (s.lock a m) := by
  cases hl : (s.mutexes m).locked with
  | false =>
    simp only [Sync.lock, MutexInner.lock, hl, Bool.false_eq_true, if_false]
    exact .single (.grant ha hl)
  | true =>
    simp only [Sync.lock, MutexInner.lock, hl, if_true]
    exact .single (.block ha hl)

theorem steps_tryLock {a : TaskId} (ha : s.waiting a = none) (m : ℕ) :
    Steps strict s (s.tryLock a m) := by
  cases hl : (s.mutexes m).locked with
  | false =>
    simp only [Sync.tryLock, MutexInner.tryLock, hl, Bool.false_eq_true, if_false]
    exact .single (.grant ha hl)
  | true =>
    simp only [Sync.tryLock, MutexInner.tryLock, hl, if_true]
    exact .refl

theorem step_unlock {a : TaskId} {m : ℕ} (ha : s.waiting a = none)
    (hh : strict → s.holds a m) (h : s.unlock a m = some s') :
    Step strict s s' ∧ s'.waiting a = none := by
  unfold Sync.unlock MutexInner.unlock at h
  split_ifs at h with hl
  cases hq : (s.mutexes m).queue with
  | nil =>
    simp only [hq, Option.some.injEq] at h
    subst h
    exact ⟨.release ha hl hq hh, ha⟩
  | cons x tl =>
    simp only [hq, Option.some.injEq, hl] at h
    subst h
    refine ⟨.handOff ha hl hq hh, ?_⟩
    simp only [drop, leave, setMutex, setHolds, ha]
    rfl

theorem steps_wait {a : TaskId} {c m : ℕ} (ha : s.waiting a = none)
    (hh : strict → s.holds a m) (h : s.wait a c m = some s') : Steps strict s s' := by
  obtain ⟨s₁, hu, rfl⟩ := Option.map_eq_some_iff.mp h
  obtain ⟨hs, ha₁⟩ := step_unlock ha hh hu
  exact .tail (.single hs) (.park ha₁)

theorem steps_notify {c : ℕ} (hn : strict → s.NotifiesLocked (.notify c)) :
    Steps strict s (s.notify c) ∧ (s.notify c).condvars c = ⟨(s.condvars c).queue.tail⟩ ∧
      ∀ m, ((s.notify c).mutexes m).locked = (s.mutexes m).locked := by
  unfold Sync.notify
  cases hq : (s.condvars c).queue with
  | nil =>
    have hc : s.condvars c = ⟨[]⟩ := by rw [← hq]
    exact ⟨.refl, hc, fun _ => rfl⟩
  | cons e tl =>
    obtain ⟨m, x⟩ := e
    cases hl : (s.mutexes m).locked with
    | false =>
      -- the waiter returns with the mutex, but nothing marks the mutex as locked
      have hl' : (((s.setCondvar c ⟨tl⟩).leave (.condvar c) x).mutexes m).locked = false := hl
      have hns : ¬ strict := by
        intro hst
        have hlk := hn hst (m, x) (by rw [hq]; rfl)
        rw [hl] at hlk
        cases hlk
      simp only [MutexInner.notifyImpl, hl', Bool.false_eq_true, if_false]
      refine ⟨.single (.wake hq hl hns), ?_, fun n => ?_⟩ <;>
        simp [drop, setMutex, leave, setCondvar]
    | true =>
      have hl' : (((s.setCondvar c ⟨tl⟩).leave (.condvar c) x).mutexes m).locked = true := hl
      simp only [MutexInner.notifyImpl, hl', if_true]
      refine ⟨.single (.requeue hq hl), ?_, fun n => ?_⟩
      · simp [enter, setMutex, leave, setCondvar]
      · by_cases hnm : n = m
        · subst hnm
          simp [enter, setMutex, leave, setCondvar, hl]
        · simp [enter, setMutex, leave, setCondvar, hnm]

theorem steps_notifyAll {c : ℕ} (hn : strict → s.NotifiesLocked (.notifyAll c)) :
    Steps strict s (s.notifyAll c) := by
  unfold Sync.notifyAll
  -- each turn takes the first waiter, and leaves the others and every `locked` as they are
  generalize (s.condvars c).queue.length = n
  induction n generalizing s with
  | zero => exact .refl
  | succ n ih =>
    have hhead : strict → s.NotifiesLocked (.notify c) :=
      fun hst e he => hn hst e (List.mem_of_mem_head? he)
    obtain ⟨hs, hc, hl⟩ := steps_notify hhead
    refine hs.trans (ih fun hst e he => ?_)
    rw [hc] at he
    rw [hl]
    exact hn hst e (List.mem_of_mem_tail he)

theorem steps_act {a : SyncAction} (hs : strict → s.ByHolder a ∧ s.NotifiesLocked a)
    (h : s.act a = some s') : Steps strict s s' := by
  cases a with
  | lock t m =>
    simp only [act] at h
    split_ifs at h with hw
    exact Option.some.inj h ▸ steps_lock hw m
  | tryLock t m =>
    simp only [act] at h
    split_ifs at h with hw
    exact Option.some.inj h ▸ steps_tryLock hw m
  | unlock t m =>
    simp only [act] at h
    split_ifs at h with hw
    exact .single (step_unlock hw (fun hst => (hs hst).1) h).1
  | wait t c m =>
    simp only [act] at h
    split_ifs at h with hw
    exact steps_wait hw (fun hst => (hs hst).1) h
  | notify c => exact Option.some.inj h ▸ (steps_notify fun hst => (hs hst).2).1
  | notifyAll c => exact Option.some.inj h ▸ steps_notifyAll fun hst => (hs hst).2

theorem Steps.invariant {Inv : Sync → Prop} (hstep : ∀ s s', Inv s → Step strict s s' → Inv s')
    (h : Steps strict s s') (hs : Inv s) : Inv s' := by
  induction h with
  | refl => exact hs
  | tail _ hst ih => exact hstep _ _ ih hst

theorem Reachable.invariant (strict : Prop) {D : Sync → SyncAction → Prop} {Inv : Sync → Prop}
    (hD : strict → ∀ s a, D s a → s.ByHolder a ∧ s.NotifiesLocked a) (hnew : Inv Sync.new)
    (hstep : ∀ s s', Inv s → Step strict s s' → Inv s') (h : Reachable D s) : Inv s := by
  induction h with
  | new => exact hnew
  | @act s s' a _ hDa ha ih =>
    exact (steps_act (fun hst => hD hst s a hDa) ha).invariant hstep ih

end Steps

/-- A task waits and holds as before, or it waited and has got its mutex. -/
def Woken (s s' : Sync) (u : TaskId) : Prop :=
  (s'.waiting u = s.waiting u ∧ s'.holds u = s.holds u) ∨
    ∃ x n, s.waiting u = some (x, n) ∧ s'.waiting u = none ∧
      s'.holds u = Function.update (s.holds u) n true

section Woken

variable {s s' s'' : Sync} {a u : TaskId} {c m : ℕ}

theorem Woken.of_eq (hw : s'.waiting u = s.waiting u) (hh : s'.holds u = s.holds u) :
    Woken s s' u :=
  .inl ⟨hw, hh⟩

theorem Woken.trans (h : Woken s s' u) (h' : Woken s' s'' u) : Woken s s'' u := by
  rcases h with ⟨hw, hh⟩ | ⟨x, n, hx, hw, hh⟩
  · rcases h' with ⟨hw', hh'⟩ | ⟨x, n, hx, hw', hh'⟩
    · exact .of_eq (hw'.trans hw) (hh'.trans hh)
    · exact .inr ⟨x, n, hw ▸ hx, hw', hh ▸ hh'⟩
  · rcases h' with ⟨hw', hh'⟩ | ⟨y, k, hy, -, -⟩
    · exact .inr ⟨x, n, hx, hw'.trans hw, hh'.trans hh⟩
    · -- a task that has its mutex waits for nothing
      rw [hw] at hy
      cases hy

theorem Woken.waiting_eq_none (h : Woken s s' u) (hu : s.waiting u = none) :
    s'.waiting u = none ∧ s'.holds u = s.holds u := by
  rcases h with ⟨hw, hh⟩ | ⟨x, n, hx, -, -⟩
  · exact ⟨hw.trans hu, hh⟩
  · rw [hu] at hx
    cases hx

theorem woken_drop (s : Sync) (x : Sender) (u : TaskId) : Woken s (s.drop x) u := by
  cases hu : s.waiting u with
  | none =>
    refine .of_eq ?_ (funext fun n => ?_)
    · simp [drop, hu]
    · simp [drop, hu]
  | some e =>
    obtain ⟨y, n⟩ := e
    by_cases hy : y = x
    · subst hy
      refine .inr ⟨y, n, hu, by simp [drop, hu], funext fun k => ?_⟩
      by_cases hk : k = n
      · subst hk
        simp [drop, hu]
      · have hne : ¬ n = k := fun h => hk h.symm
        simp [drop, hu, hk, hne]
    · refine .of_eq (by simp [drop, hu, hy]) (funext fun k => ?_)
      simp [drop, hu, hy]

/-- What the task that locks gets: a place in the queue, or the mutex. -/
theorem lock_self (s : Sync) (a : TaskId) (m : ℕ) :
    ((s.mutexes m).locked = true → (s.lock a m).waiting a = some (s.nextSender, m) ∧
      (s.lock a m).holds = s.holds) ∧
    ((s.mutexes m).locked = false → (s.lock a m).waiting = s.waiting ∧
      (s.lock a m).holds a = Function.update (s.holds a) m true) := by
  unfold Sync.lock MutexInner.lock
  refine ⟨fun hl => ?_, fun hl => ?_⟩
  · rw [if_pos hl]
    exact ⟨Function.update_self _ _ _, rfl⟩
  · rw [if_neg (by simp [hl])]
    exact ⟨rfl, Function.update_self _ _ _⟩

theorem tryLock_self (s : Sync) (a : TaskId) (m : ℕ) :
    ((s.mutexes m).locked = true → s.tryLock a m = s ∧ (s.mutexes m).tryLock.1 = false) ∧
    ((s.mutexes m).locked = false → (s.tryLock a m).holds a = Function.update (s.holds a) m true ∧
      (s.mutexes m).tryLock.1 = true) := by
  unfold Sync.tryLock MutexInner.tryLock
  refine ⟨fun hl => ?_, fun hl => ?_⟩
  · rw [if_pos hl]
    exact ⟨rfl, rfl⟩
  · rw [if_neg (by simp [hl])]
    exact ⟨Function.update_self _ _ _, rfl⟩

theorem woken_lock_of_ne (hu : u ≠ a) : Woken s (s.lock a m) u := by
  unfold Sync.lock MutexInner.lock
  by_cases hl : (s.mutexes m).locked = true
  · rw [if_pos hl]
    exact .of_eq (Function.update_of_ne hu _ _) rfl
  · rw [if_neg hl]
    exact .of_eq rfl (Function.update_of_ne hu _ _)

theorem waiting_tryLock (s : Sync) (a : TaskId) (m : ℕ) : (s.tryLock a m).waiting = s.waiting := by
  unfold Sync.tryLock MutexInner.tryLock
  by_cases hl : (s.mutexes m).locked = true
  · rw [if_pos hl]
  · rw [if_neg hl]
    rfl

theorem woken_tryLock_of_ne (hu : u ≠ a) : Woken s (s.tryLock a m) u := by
  unfold Sync.tryLock MutexInner.tryLock
  by_cases hl : (s.mutexes m).locked = true
  · rw [if_pos hl]
    exact .of_eq rfl rfl
  · rw [if_neg hl]
    exact .of_eq rfl (Function.update_of_ne hu _ _)

theorem woken_unlock (h : s.unlock a m = some s') :
    (u ≠ a → Woken s s' u) ∧ (s.waiting a = none →
      s'.waiting a = none ∧ s'.holds a = Function.update (s.holds a) m false) := by
  unfold Sync.unlock MutexInner.unlock at h
  split_ifs at h with hl
  cases hq : (s.mutexes m).queue with
  | nil =>
    simp only [hq, Option.some.injEq] at h
    subst h
    refine ⟨fun hu => .of_eq rfl (Function.update_of_ne hu _ _), fun ha => ⟨ha, ?_⟩⟩
    exact Function.update_self _ _ _
  | cons x tl =>
    simp only [hq, Option.some.injEq, hl] at h
    subst h
    let s₁ := ((s.setMutex m ⟨true, tl⟩).leave (.mutex m) x).setHolds a m false
    have hdrop := woken_drop s₁ x
    refine ⟨fun hu => ?_, fun ha => ?_⟩
    · have hset : Woken s s₁ u := .of_eq rfl (Function.update_of_ne hu _ _)
      exact hset.trans (hdrop u)
    · have hself := (hdrop a).waiting_eq_none ha
      exact ⟨hself.1, hself.2.trans (Function.update_self _ _ _)⟩

theorem woken_wait_of_ne (h : s.wait a c m = some s') (hu : u ≠ a) : Woken s s' u := by
  obtain ⟨s₁, hs₁, rfl⟩ := Option.map_eq_some_iff.mp h
  exact ((woken_unlock hs₁).1 hu).trans (.of_eq (Function.update_of_ne hu _ _) rfl)

theorem woken_notify (s : Sync) (c : ℕ) (u : TaskId) : Woken s (s.notify c) u := by
  unfold Sync.notify
  cases hq : (s.condvars c).queue with
  | nil => exact .of_eq rfl rfl
  | cons e tl =>
    obtain ⟨m, x⟩ := e
    simp only [MutexInner.notifyImpl]
    split_ifs
    · exact .of_eq rfl rfl
    · exact Woken.trans (.of_eq rfl rfl) (woken_drop _ x u)

theorem woken_notifyAll (s : Sync) (c : ℕ) (u : TaskId) : Woken s (s.notifyAll c) u := by
  unfold Sync.notifyAll
  generalize (s.condvars c).queue.length = n
  induction n generalizing s with
  | zero => exact .of_eq rfl rfl
  | succ n ih => exact (woken_notify s c u).trans (ih (s.notify c))

end Woken

section Waiters

variable {strict : Prop} {s s' : Sync}

theorem Step.queued (h : Step strict s s') (hq : Queued none s) : Queued none s' := by
  cases h with
  | @grant a m _ _ => exact (hq.setMutex m ⟨true, _⟩ rfl).setHolds a m true
  | @block a m _ _ =>
    exact (hq.await a m).push (q := .mutex m) (queue_setMutex s m _) rfl rfl rfl rfl
  | @release a m _ _ hnil _ => exact (hq.setMutex m ⟨false, []⟩ hnil.symm).setHolds a m false
  | @handOff a m x tl _ _ hx _ =>
    exact ((hq.leaveMutex hx).setHolds a m false).drop
  | @park a c m _ =>
    refine (hq.await a m).push (q := .condvar c) ((queue_setCondvar s c _).trans ?_) rfl rfl rfl rfl
    rw [List.map_append]
    rfl
  | @requeue c m x tl hx _ =>
    exact (hq.leaveCondvar hx).push (q := .mutex m) (queue_setMutex _ m _) rfl rfl rfl rfl
  | @wake c m x tl hx _ _ =>
    exact ((hq.leaveCondvar hx).setMutex m (s.mutexes m) rfl).drop

/-- Nobody is queued at an unlocked mutex. -/
def Idle (s : Sync) : Prop := ∀ m, (s.mutexes m).locked = false → (s.mutexes m).queue = []

theorem Idle.update (h : Idle s) (m : ℕ) {x : MutexInner} (hx : x.locked = false → x.queue = [])
    (hs : s'.mutexes = Function.update s.mutexes m x) : Idle s' := by
  intro n
  rw [hs]
  by_cases hn : n = m
  · subst hn
    rw [Function.update_self]
    exact hx
  · rw [Function.update_of_ne hn]
    exact h n

theorem Step.idle (h : Step strict s s') (hi : Idle s) : Idle s' := by
  cases h with
  | grant _ _ | block _ _ | handOff _ _ _ _ | requeue _ _ => exact hi.update _ (by nofun) rfl
  | release _ _ _ _ => exact hi.update _ (fun _ => rfl) rfl
  | park _ => exact hi
  | @wake c m x tl _ _ _ => exact hi.update m (hi m) rfl

/-- A sender that a task still waits for is in exactly one queue, once; an unlocked mutex has
no queue; and every queue is first in, first out. -/
theorem waiter_in_one_queue (h : Reachable (fun _ _ => True) s) :
    (∀ a x m, s.waiting a = some (x, m) →
      ∃ q, (s.queue q).count x = 1 ∧ ∀ q', q' ≠ q → x ∉ s.queue q') ∧
    (∀ m, (s.mutexes m).locked = false → (s.mutexes m).queue = []) ∧
    ∀ q, s.left q <+: s.entered q := by
  have hq : Queued none s :=
    h.invariant False nofun queued_new fun _ _ hq hs => hs.queued hq
  have hi : Idle s :=
    h.invariant False nofun (fun _ _ => rfl) fun _ _ hi hs => hs.idle hi
  refine ⟨fun a x m ha => ?_, hi, fun q => ?_⟩
  · obtain ⟨q, hxq⟩ := (hq.waiting ha).resolve_left nofun
    refine ⟨q, ?_, fun q' hne hx => hne (hq.apart hx hxq)⟩
    exact List.count_eq_one_of_mem (hq.nodup q) hxq
  · rw [hq.fifo q]
    exact List.prefix_append _ _

theorem waiter_in_one_queue_condvar : ∃ s, Reachable (fun _ _ => True) s ∧
    s.waiting 0 = some (0, 0) ∧ (∀ a x m, s.waiting a = some (x, m) →
      ∃ q, (s.queue q).count x = 1 ∧ ∀ q', q' ≠ q → x ∉ s.queue q') ∧
    (∀ m, (s.mutexes m).locked = false → (s.mutexes m).queue = []) ∧
    ∀ q, s.left q <+: s.entered q := by
  have hrun : ∃ s ∈ Sync.new.run (fun _ _ => True) [.lock 0 0, .wait 0 0 0, .lock 1 0, .notify 0],
      s.waiting 0 = some (0, 0) := by decide
  obtain ⟨s, hs, h₀⟩ := hrun
  have h : Reachable (fun _ _ => True) s := Reachable.new.run hs
  exact ⟨s, h, h₀, waiter_in_one_queue h⟩

/-- The sender of task `a` still waits at the condition variable, or a notification has taken
it from there. -/
def Parked (s : Sync) (a : TaskId) (c m : ℕ) (x : Sender) : Prop :=
  (s.waiting a = some (x, m) ∧ x ∈ s.queue (.condvar c)) ∨ x ∈ s.left (.condvar c)

theorem Step.left_subset (h : Step strict s s') (q : Queue) : s.left q ⊆ s'.left q := by
  have hleave : ∀ q' x, s.left q ⊆ (s.leave q' x).left q := by
    intro q' x y hy
    by_cases hq : q = q'
    · subst hq
      rw [show (s.leave q x).left q = s.left q ++ [x] from Function.update_self _ _ _]
      exact List.mem_append_left _ hy
    · rwa [show (s.leave q' x).left q = s.left q from Function.update_of_ne hq _ _]
  cases h with
  | grant _ _ | block _ _ | release _ _ _ _ | park _ => exact List.Subset.refl _
  | handOff _ _ _ _ | requeue _ _ | wake _ _ _ => exact hleave _ _

/-- Taking the first waiter from a condition variable takes `x`, or leaves it in its queue. -/
theorem mem_leaveCondvar {c c' m' : ℕ} {x y : Sender} {tl : List (ℕ × Sender)}
    (hy : (s.condvars c').queue = (m', y) :: tl) (hx : x ∈ s.queue (.condvar c)) :
    x ∈ ((s.setCondvar c' ⟨tl⟩).leave (.condvar c') y).queue (.condvar c) ∨
      (x = y ∧ x ∈ ((s.setCondvar c' ⟨tl⟩).leave (.condvar c') y).left (.condvar c)) := by
  have hqueue : ((s.setCondvar c' ⟨tl⟩).leave (.condvar c') y).queue =
      Function.update s.queue (.condvar c') (tl.map Prod.snd) := queue_setCondvar s c' ⟨tl⟩
  rw [hqueue]
  by_cases hc : c = c'
  · subst hc
    rw [Sync.queue, hy, List.map_cons, List.mem_cons] at hx
    rcases hx with rfl | hx
    · refine .inr ⟨rfl, ?_⟩
      rw [show ((s.setCondvar c ⟨tl⟩).leave (.condvar c) x).left (.condvar c) =
        s.left (.condvar c) ++ [x] from Function.update_self _ _ _]
      exact List.mem_append_right _ (List.mem_singleton_self _)
    · left
      rwa [Function.update_self]
  · left
    rwa [Function.update_of_ne fun h => hc (Queue.condvar.inj h)]

theorem Step.parked {a : TaskId} {c m : ℕ} {x : Sender} (h : Step strict s s')
    (hq : Queued none s) (hp : Parked s a c m x) : Parked s' a c m x := by
  rcases hp with ⟨hw, hx⟩ | hx
  swap
  · exact .inr (h.left_subset _ hx)
  have hne : ∀ {b}, s.waiting b = none → a ≠ b := fun hb hab => by
    rw [hab, hb] at hw
    cases hw
  -- dropping another sender leaves `a` waiting
  have hdrop : ∀ {r : Sync} {y}, r.waiting = s.waiting → y ≠ x →
      (r.drop y).waiting a = some (x, m) := by
    intro r y hr hy
    have hn : ¬ (r.waiting a).map Prod.fst = some y := by
      rw [hr, hw]
      exact fun h => hy (Option.some.inj h).symm
    exact (if_neg hn).trans (by rw [hr, hw])
  cases h with
  | grant _ _ | release _ _ _ _ => exact .inl ⟨hw, hx⟩
  | block hb _ => exact .inl ⟨(Function.update_of_ne (hne hb) _ _).trans hw, hx⟩
  | @handOff b n y tl _ _ hy _ =>
    have hmem : y ∈ (s.mutexes n).queue := hy ▸ List.mem_cons_self
    have hyx : y ≠ x := by
      rintro rfl
      cases hq.apart hx (show y ∈ s.queue (.mutex n) from hmem)
    exact .inl ⟨hdrop rfl hyx, hx⟩
  | @park b d n hb =>
    refine .inl ⟨(Function.update_of_ne (hne hb) _ _).trans hw, ?_⟩
    show x ∈ (s.setCondvar d _).queue (.condvar c)
    rw [queue_setCondvar]
    by_cases hc : c = d
    · subst hc
      rw [Function.update_self, List.map_append]
      exact List.mem_append_left _ hx
    · rwa [Function.update_of_ne fun h => hc (Queue.condvar.inj h)]
  | requeue hy _ =>
    rcases mem_leaveCondvar hy hx with hx | ⟨-, hx⟩
    · exact .inl ⟨hw, hx⟩
    · exact .inr hx
  | @wake d n y tl hy _ _ =>
    rcases mem_leaveCondvar hy hx with hx' | ⟨-, hx⟩
    · by_cases hyx : y = x
      · subst hyx
        exact absurd hx' ((hq.leaveCondvar hy).hand_notMem rfl)
      · exact .inl ⟨hdrop rfl hyx, hx'⟩
    · exact .inr hx

theorem Steps.parked {a : TaskId} {c m : ℕ} {x : Sender} (h : Steps strict s s')
    (hq : Queued none s) (hp : Parked s a c m x) : Parked s' a c m x := by
  have hboth : Queued none s' ∧ Parked s' a c m x := by
    induction h with
    | refl => exact ⟨hq, hp⟩
    | tail _ hst ih => exact ⟨hst.queued ih.1, hst.parked ih.1 ih.2⟩
  exact hboth.2

/-- `wait` gives up the mutex and enters the queue of the condition variable at once. -/
theorem parked_wait {a : TaskId} {c m : ℕ} (h : s.wait a c m = some s') (ha : s.waiting a = none) :
    s'.holds a = Function.update (s.holds a) m false ∧
      s'.waiting a = some (s.nextSender, m) ∧ s.nextSender ∈ s'.queue (.condvar c) := by
  obtain ⟨s₁, hs₁, rfl⟩ := Option.map_eq_some_iff.mp h
  obtain ⟨-, hheld⟩ := (woken_unlock (u := a) hs₁).2 ha
  have hnext : s₁.nextSender = s.nextSender := by
    unfold Sync.unlock at hs₁
    split at hs₁
    · cases hs₁
    · cases hs₁
      rfl
    · cases hs₁
      rfl
  refine ⟨hheld, ?_, ?_⟩
  · rw [← hnext]
    exact Function.update_self _ _ _
  · show s.nextSender ∈ (s₁.setCondvar c _).queue (.condvar c)
    rw [queue_setCondvar, Function.update_self, List.map_append, hnext]
    exact List.mem_append_right _ (List.mem_singleton_self _)

/-- Every queued sender belongs to the one task that waits for it. -/
structure Owned (s : Sync) : Prop where
  unique : ∀ {a b x m n}, s.waiting a = some (x, m) → s.waiting b = some (x, n) → a = b
  mutex : ∀ {m x}, x ∈ (s.mutexes m).queue → ∃ a, s.waiting a = some (x, m)
  condvar : ∀ {c m x}, (m, x) ∈ (s.condvars c).queue → ∃ a, s.waiting a = some (x, m)

theorem Owned.setMutex (h : Owned s) (m : ℕ) (x : MutexInner)
    (hx : ∀ y ∈ x.queue, ∃ a, s.waiting a = some (y, m)) : Owned (s.setMutex m x) := by
  refine ⟨h.unique, fun {n y} hy => ?_, h.condvar⟩
  by_cases hn : n = m
  · subst hn
    simp only [Sync.setMutex, Function.update_self] at hy
    exact hx y hy
  · simp only [Sync.setMutex, Function.update_of_ne hn] at hy
    exact h.mutex hy

theorem Owned.setCondvar (h : Owned s) (c : ℕ) (x : CondvarInner)
    (hx : ∀ e ∈ x.queue, ∃ a, s.waiting a = some (e.2, e.1)) : Owned (s.setCondvar c x) := by
  refine ⟨h.unique, h.mutex, fun {d m y} hy => ?_⟩
  by_cases hd : d = c
  · subst hd
    simp only [Sync.setCondvar, Function.update_self] at hy
    exact hx _ hy
  · simp only [Sync.setCondvar, Function.update_of_ne hd] at hy
    exact h.condvar hy

theorem Owned.await (h : Owned s) (hq : Queued none s) {a : TaskId} (m : ℕ)
    (ha : s.waiting a = none) :
    Owned (s.await a m) ∧ (s.await a m).waiting a = some (s.nextSender, m) := by
  have hself : (s.await a m).waiting a = some (s.nextSender, m) := Function.update_self _ _ _
  have hne : ∀ {b e}, s.waiting b = some e → (s.await a m).waiting b = some e := by
    intro b e hb
    have hba : b ≠ a := fun hba => by rw [hba, ha] at hb; cases hb
    exact (Function.update_of_ne hba _ _).trans hb
  -- the new sender is above all those that are waited for
  have hinv : ∀ {b x n}, (s.await a m).waiting b = some (x, n) →
      (b = a ∧ x = s.nextSender) ∨ (s.waiting b = some (x, n) ∧ x < s.nextSender) := by
    intro b x n hb
    by_cases hba : b = a
    · subst hba
      rw [hself] at hb
      cases hb
      exact .inl ⟨rfl, rfl⟩
    · have hb' := (Function.update_of_ne hba _ _).symm.trans hb
      obtain ⟨q, hxq⟩ := (hq.waiting hb').resolve_left nofun
      exact .inr ⟨hb', hq.fresh hxq⟩
  refine ⟨⟨fun {b c x n k} hb hc => ?_, fun hx => (h.mutex hx).imp fun _ => hne,
    fun hx => (h.condvar hx).imp fun _ => hne⟩, hself⟩
  rcases hinv hb with ⟨rfl, rfl⟩ | ⟨hb, hlt⟩ <;> rcases hinv hc with ⟨rfl, hx⟩ | ⟨hc, hlt'⟩
  · rfl
  · exact absurd hlt' (Nat.lt_irrefl _)
  · exact absurd hlt (hx ▸ Nat.lt_irrefl _)
  · exact h.unique hb hc

theorem Owned.drop {x : Sender} (h : Owned s) (hq : Queued (some x) s) : Owned (s.drop x) := by
  have hinv : ∀ {a e}, (s.drop x).waiting a = some e → s.waiting a = some e := by
    intro a e ha
    simp only [Sync.drop] at ha
    split_ifs at ha
    exact ha
  have hkeep : ∀ {a y m}, y ≠ x → s.waiting a = some (y, m) →
      (s.drop x).waiting a = some (y, m) := by
    intro a y m hy ha
    have hne : ¬ (s.waiting a).map Prod.fst = some x := by
      rw [ha]
      exact fun hyx => hy (Option.some.inj hyx)
    exact (if_neg hne).trans ha
  refine ⟨fun ha hb => h.unique (hinv ha) (hinv hb), fun {m y} hy => ?_, fun {c m y} hy => ?_⟩
  · refine (h.mutex hy).imp fun _ => hkeep fun hyx => ?_
    exact hq.hand_notMem (q := .mutex m) rfl (hyx ▸ hy)
  · refine (h.condvar hy).imp fun _ => hkeep fun hyx => ?_
    exact hq.hand_notMem (q := .condvar c) rfl (hyx ▸ List.mem_map_of_mem hy)

theorem Step.owned (h : Step strict s s') (hq : Queued none s) (ho : Owned s) : Owned s' := by
  cases h with
  | @grant a m _ _ =>
    have h' := ho.setMutex m ⟨true, (s.mutexes m).queue⟩ fun y hy => ho.mutex hy
    exact ⟨h'.unique, h'.mutex, h'.condvar⟩
  | @block a m ha _ =>
    obtain ⟨ho', hself⟩ := ho.await hq m ha
    have h' := ho'.setMutex m ⟨true, (s.mutexes m).queue ++ [s.nextSender]⟩ fun y hy => by
      rcases List.mem_append.mp hy with hy | hy
      · exact ho'.mutex hy
      · exact ⟨a, List.mem_singleton.mp hy ▸ hself⟩
    exact ⟨h'.unique, h'.mutex, h'.condvar⟩
  | @release a m _ _ _ _ =>
    have h' := ho.setMutex m ⟨false, []⟩ nofun
    exact ⟨h'.unique, h'.mutex, h'.condvar⟩
  | @handOff a m x tl _ _ hx _ =>
    have h' := ho.setMutex m ⟨true, tl⟩ fun y hy => ho.mutex (hx ▸ List.mem_cons_of_mem _ hy)
    exact Owned.drop ⟨h'.unique, h'.mutex, h'.condvar⟩ ((hq.leaveMutex hx).setHolds a m false)
  | @park a c m ha =>
    obtain ⟨ho', hself⟩ := ho.await hq m ha
    have h' := ho'.setCondvar c ⟨(s.condvars c).queue ++ [(m, s.nextSender)]⟩ fun e he => by
      rcases List.mem_append.mp he with he | he
      · exact ho'.condvar he
      · exact ⟨a, List.mem_singleton.mp he ▸ hself⟩
    exact ⟨h'.unique, h'.mutex, h'.condvar⟩
  | @requeue c m x tl hx _ =>
    have h' := ho.setCondvar c ⟨tl⟩ fun e he => ho.condvar (hx ▸ List.mem_cons_of_mem _ he)
    have h'' := h'.setMutex m ⟨true, (s.mutexes m).queue ++ [x]⟩ fun y hy => by
      rcases List.mem_append.mp hy with hy | hy
      · exact ho.mutex hy
      · exact List.mem_singleton.mp hy ▸ ho.condvar (hx ▸ List.mem_cons_self)
    exact ⟨h''.unique, h''.mutex, h''.condvar⟩
  | @wake c m x tl hx _ _ =>
    have h' := ho.setCondvar c ⟨tl⟩ fun e he => ho.condvar (hx ▸ List.mem_cons_of_mem _ he)
    have h'' := h'.setMutex m (s.mutexes m) fun y hy => ho.mutex hy
    exact Owned.drop ⟨h''.unique, h''.mutex, h''.condvar⟩
      ((hq.leaveCondvar hx).setMutex m (s.mutexes m) rfl)

theorem Steps.owned (h : Steps strict s s') (hq : Queued none s) (ho : Owned s) :
    Queued none s' ∧ Owned s' := by
  induction h with
  | refl => exact ⟨hq, ho⟩
  | tail _ hst ih => exact ⟨hst.queued ih.1, hst.owned ih.1 ih.2⟩

/-- A mutex is locked exactly when it has a holder, and it has at most one. -/
structure Held (s : Sync) : Prop where
  exclusive : ∀ {m a b}, s.holds a m → s.holds b m → a = b
  locked : ∀ m, (s.mutexes m).locked = true ↔ ∃ a, s.holds a m

theorem holds_setHolds {a b : TaskId} {m n : ℕ} {v : Bool} :
    (s.setHolds a m v).holds b n = if b = a ∧ n = m then v else s.holds b n := by
  by_cases hb : b = a
  · subst hb
    simp [setHolds, Function.update_apply]
  · simp [setHolds, hb]

theorem locked_setMutex {m n : ℕ} {x : MutexInner} :
    ((s.setMutex m x).mutexes n).locked = if n = m then x.locked else (s.mutexes n).locked := by
  by_cases hn : n = m
  · subst hn
    simp [setMutex]
  · simp [setMutex, hn]

/-- The part of `Held` that is about one mutex. -/
structure HeldAt (s : Sync) (m : ℕ) : Prop where
  exclusive : ∀ {a b}, s.holds a m → s.holds b m → a = b
  locked : (s.mutexes m).locked = true ↔ ∃ a, s.holds a m

theorem held_iff : Held s ↔ ∀ m, HeldAt s m :=
  ⟨fun h m => ⟨h.exclusive, h.locked m⟩,
    fun h => ⟨fun {m _ _} => (h m).exclusive, fun m => (h m).locked⟩⟩

section HeldAt

variable {a : TaskId} {m n : ℕ}

theorem HeldAt.congr (h : HeldAt s m) (hh : ∀ a, s'.holds a m = s.holds a m)
    (hl : (s'.mutexes m).locked = (s.mutexes m).locked) : HeldAt s' m :=
  ⟨fun {a b} => by rw [hh, hh]; exact h.exclusive, by simp only [hl, hh, h.locked]⟩

theorem heldAt_of_holder (o : Option TaskId) (hself : ∀ c, s'.holds c m = true ↔ o = some c)
    (hl : (s'.mutexes m).locked = o.isSome) : HeldAt s' m := by
  refine ⟨fun {c d} hc hd => ?_, ?_⟩
  · exact Option.some.inj (((hself c).mp hc).symm.trans ((hself d).mp hd))
  · rw [hl, Option.isSome_iff_exists]
    exact exists_congr fun c => (hself c).symm

theorem HeldAt.holds_eq_false (h : HeldAt s m) (hl : (s.mutexes m).locked = false) (c : TaskId) :
    s.holds c m = false := by
  by_contra hc
  rw [h.locked.mpr ⟨c, by simpa using hc⟩] at hl
  cases hl

theorem HeldAt.grant (h : HeldAt s n) (hl : (s.mutexes m).locked = false) (a : TaskId)
    (q : List Sender) : HeldAt ((s.setMutex m ⟨true, q⟩).setHolds a m true) n := by
  by_cases hn : n = m
  · subst hn
    refine heldAt_of_holder (some a) (fun c => ?_) (locked_setMutex.trans (if_pos rfl))
    rw [holds_setHolds]
    by_cases hc : c = a
    · simp [hc]
    · simp [hc, setMutex, h.holds_eq_false hl, Ne.symm hc]
  · refine h.congr (fun c => ?_) (locked_setMutex.trans (if_neg hn))
    rw [holds_setHolds, if_neg fun h => hn h.2]
    rfl

theorem HeldAt.release (h : HeldAt s n) (ha : n = m → s.holds a m) :
    HeldAt ((s.setMutex m ⟨false, []⟩).setHolds a m false) n := by
  by_cases hn : n = m
  · subst hn
    refine heldAt_of_holder none (fun c => ?_) (locked_setMutex.trans (if_pos rfl))
    rw [holds_setHolds]
    by_cases hc : c = a
    · simp [hc]
    · simp only [hc, false_and, if_false, reduceCtorEq, iff_false]
      exact fun hcm => hc (h.exclusive hcm (ha rfl))
  · refine h.congr (fun c => ?_) (locked_setMutex.trans (if_neg hn))
    rw [holds_setHolds, if_neg fun h => hn h.2]
    rfl

/-- Dropping the sender of a task that waits for `m` gives it `m` and nobody anything else. -/
theorem holds_drop (ho : Owned s) {b : TaskId} {x : Sender} (hb : s.waiting b = some (x, m))
    (c : TaskId) (n : ℕ) : (s.drop x).holds c n = (s.holds c n || decide (c = b ∧ n = m)) := by
  have hwait : s.waiting c = some (x, n) ↔ c = b ∧ n = m := by
    constructor
    · intro hc
      have hcb := ho.unique hc hb
      rw [hcb, hb] at hc
      cases hc
      exact ⟨hcb, rfl⟩
    · rintro ⟨rfl, rfl⟩
      exact hb
  show (s.holds c n || s.waiting c == some (x, n)) = _
  refine congrArg (s.holds c n || ·) ?_
  rw [Bool.eq_iff_iff, beq_iff_eq, hwait, decide_eq_true_iff]

/-- The holder hands the mutex to the waiter of the sender that it drops. -/
theorem HeldAt.handOff (h : HeldAt s n) (ho : Owned s) {x : Sender} {tl : List Sender}
    (hx : (s.mutexes m).queue = x :: tl) (ha : n = m → s.holds a m) :
    HeldAt ((((s.setMutex m ⟨true, tl⟩).leave (.mutex m) x).setHolds a m false).drop x) n := by
  obtain ⟨b, hb⟩ := ho.mutex (hx ▸ List.mem_cons_self : x ∈ (s.mutexes m).queue)
  let r := ((s.setMutex m ⟨true, tl⟩).leave (.mutex m) x).setHolds a m false
  have hr : Owned r := by
    have h' := ho.setMutex m ⟨true, tl⟩ fun y hy => ho.mutex (hx ▸ List.mem_cons_of_mem _ hy)
    exact ⟨h'.unique, h'.mutex, h'.condvar⟩
  have hheld : ∀ c, r.holds c n = if c = a ∧ n = m then false else s.holds c n :=
    fun c => holds_setHolds
  by_cases hn : n = m
  · subst hn
    refine heldAt_of_holder (some b) (fun c => ?_) (locked_setMutex.trans (if_pos rfl))
    have hfree : r.holds c n = false := by
      rw [hheld]
      split_ifs with hc
      · rfl
      · by_contra hcn
        exact hc ⟨h.exclusive (by simpa using hcn) (ha rfl), rfl⟩
    rw [holds_drop hr hb, hfree]
    simp [eq_comm]
  · refine h.congr (fun c => ?_) (locked_setMutex.trans (if_neg hn))
    rw [holds_drop hr hb, hheld, if_neg fun h => hn h.2]
    simp [hn]

theorem HeldAt.setLocked (h : HeldAt s n) (hl : (s.mutexes m).locked = true)
    {q : List Sender} (hh : s'.holds = s.holds)
    (hs : s'.mutexes = Function.update s.mutexes m ⟨true, q⟩) : HeldAt s' n := by
  refine h.congr (fun c => by rw [hh]) ?_
  rw [hs]
  by_cases hn : n = m
  · subst hn
    rw [Function.update_self, hl]
  · rw [Function.update_of_ne hn]

end HeldAt

theorem Step.held (h : Step True s s') (ho : Owned s) (hh : Held s) : Held s' := by
  rw [held_iff] at hh ⊢
  intro n
  cases h with
  | grant _ hl => exact (hh n).grant hl _ _
  | release _ _ _ hst => exact (hh n).release fun _ => hst trivial
  | handOff _ _ hx hst => exact (hh n).handOff ho hx fun _ => hst trivial
  | park _ => exact (hh n).congr (fun _ => rfl) rfl
  | block _ hl | requeue _ hl => exact (hh n).setLocked hl rfl rfl
  -- a strict step wakes nobody directly
  | wake _ _ hst => exact absurd trivial hst

/-- The invariant of the runs in which no notification finds a mutex unlocked. -/
structure Exclusive (s : Sync) : Prop where
  queued : Queued none s
  owned : Owned s
  held : Held s

theorem exclusive_new : Exclusive new where
  queued := queued_new
  owned := ⟨nofun, nofun, nofun⟩
  held := ⟨nofun, fun m => by simp [Sync.new, MutexInner.new]⟩

theorem Step.exclusive (h : Step True s s') (he : Exclusive s) : Exclusive s' :=
  ⟨h.queued he.queued, h.owned he.queued he.owned, h.held he.owned he.held⟩

/-- A run whose actions are by holders, and whose notifications find the mutexes of the
waiters locked, never has two holders of a mutex, and its mutexes are locked exactly when
held, so no assertion of `unlock` fails. -/
theorem mutual_exclusion (h : Reachable (fun s a => s.ByHolder a ∧ s.NotifiesLocked a) s) :
    (∀ m a b, s.holds a m → s.holds b m → a = b) ∧
    (∀ m, (s.mutexes m).locked = true ↔ ∃ a, s.holds a m) ∧
    ∀ a m, s.holds a m → ((s.mutexes m).unlock).isSome := by
  have he : Exclusive s :=
    h.invariant True (fun _ _ _ => id) exclusive_new fun _ _ he hs => hs.exclusive he
  have hh := he.held
  refine ⟨fun m a b => hh.exclusive, hh.locked, fun a m ha => ?_⟩
  have hl := (hh.locked m).mpr ⟨a, ha⟩
  rw [MutexInner.unlock, if_pos hl]
  cases (s.mutexes m).queue <;> rfl

/-- No task waits for the mutex at a condition variable. -/
structure Plain (s : Sync) (m : ℕ) : Prop extends HeldAt s m where
  unparked : ∀ {c e}, e ∈ (s.condvars c).queue → e.1 ≠ m

section Plain

variable {a : TaskId} {c m n : ℕ}

theorem Plain.lock (h : Plain s m) (a : TaskId) (n : ℕ) : Plain (s.lock a n) m := by
  unfold Sync.lock MutexInner.lock
  by_cases hl : (s.mutexes n).locked = true
  · rw [if_pos hl]
    exact ⟨h.toHeldAt.setLocked hl rfl (by rw [hl]; rfl), h.unparked⟩
  · rw [if_neg hl]
    exact ⟨h.toHeldAt.grant (by simpa using hl) a _, h.unparked⟩

theorem Plain.tryLock (h : Plain s m) (a : TaskId) (n : ℕ) : Plain (s.tryLock a n) m := by
  unfold Sync.tryLock MutexInner.tryLock
  by_cases hl : (s.mutexes n).locked = true
  · rw [if_pos hl]
    exact h
  · rw [if_neg hl]
    exact ⟨h.toHeldAt.grant (by simpa using hl) a _, h.unparked⟩

theorem Plain.unlock (h : Plain s m) (ho : Owned s) (hu : s.unlock a n = some s')
    (ha : m = n → s.holds a n) : Plain s' m := by
  unfold Sync.unlock MutexInner.unlock at hu
  split_ifs at hu with hl
  cases hq : (s.mutexes n).queue with
  | nil =>
    simp only [hq, Option.some.injEq] at hu
    subst hu
    exact ⟨h.toHeldAt.release ha, h.unparked⟩
  | cons x tl =>
    simp only [hq, Option.some.injEq, hl] at hu
    subst hu
    exact ⟨h.toHeldAt.handOff ho hq ha, h.unparked⟩

theorem Plain.wait (h : Plain s m) (ho : Owned s) (hu : s.wait a c n = some s') (hn : n ≠ m) :
    Plain s' m := by
  obtain ⟨s₁, hs₁, rfl⟩ := Option.map_eq_some_iff.mp hu
  have h₁ := h.unlock ho hs₁ fun hmn => absurd hmn.symm hn
  refine ⟨h₁.toHeldAt.congr (fun _ => rfl) rfl, fun {d e} he => ?_⟩
  by_cases hd : d = c
  · subst hd
    have he : e ∈ (s₁.condvars d).queue ++ [(n, s₁.nextSender)] := by
      simpa [await, enter, setCondvar] using he
    rcases List.mem_append.mp he with he | he
    · exact h₁.unparked he
    · rw [List.mem_singleton.mp he]
      exact hn
  · refine h₁.unparked (c := d) ?_
    simpa [await, enter, setCondvar, hd] using he

theorem Plain.notify (h : Plain s m) (ho : Owned s) (c : ℕ) : Plain (s.notify c) m := by
  unfold Sync.notify
  cases hq : (s.condvars c).queue with
  | nil => exact h
  | cons e tl =>
    obtain ⟨n, x⟩ := e
    have hmem : (n, x) ∈ (s.condvars c).queue := hq ▸ List.mem_cons_self
    have hn : n ≠ m := h.unparked hmem
    let r := (s.setCondvar c ⟨tl⟩).leave (.condvar c) x
    have hr : Plain r m := by
      refine ⟨h.toHeldAt.congr (fun _ => rfl) rfl, fun {d e} he => ?_⟩
      by_cases hd : d = c
      · subst hd
        have he : e ∈ tl := by simpa [r, leave, setCondvar] using he
        exact h.unparked (hq ▸ List.mem_cons_of_mem _ he)
      · refine h.unparked (c := d) ?_
        simpa [r, leave, setCondvar, hd] using he
    cases hl : (s.mutexes n).locked with
    | true =>
      have hl' : (((s.setCondvar c ⟨tl⟩).leave (.condvar c) x).mutexes n).locked = true := hl
      simp only [MutexInner.notifyImpl, hl', if_true]
      exact ⟨hr.toHeldAt.setLocked hl' rfl rfl, hr.unparked⟩
    | false =>
      -- the waiter gets its own mutex, which is not `m`
      have hl' : (((s.setCondvar c ⟨tl⟩).leave (.condvar c) x).mutexes n).locked = false := hl
      simp only [MutexInner.notifyImpl, hl', Bool.false_eq_true, if_false]
      obtain ⟨b, hb⟩ := ho.condvar hmem
      have hset : (r.setMutex n (r.mutexes n)).mutexes = r.mutexes :=
        Function.update_eq_self n r.mutexes
      have hor : Owned (r.setMutex n (r.mutexes n)) := by
        have h₁ := ho.setCondvar c ⟨tl⟩ fun e he => ho.condvar (hq ▸ List.mem_cons_of_mem _ he)
        exact ⟨h₁.unique, fun hx => h₁.mutex (hset ▸ hx), h₁.condvar⟩
      refine ⟨hr.toHeldAt.congr (fun d => ?_) ?_, hr.unparked⟩
      · rw [holds_drop hor hb]
        simp [Ne.symm hn]
        rfl
      · exact congrArg (fun f => (f m).locked) hset

theorem Plain.notifyAll (h : Plain s m) (hq : Queued none s) (ho : Owned s) (c : ℕ) :
    Plain (s.notifyAll c) m := by
  unfold Sync.notifyAll
  generalize (s.condvars c).queue.length = k
  induction k generalizing s with
  | zero => exact h
  | succ k ih =>
    have hs : Steps False s (s.notify c) := (steps_notify nofun).1
    obtain ⟨hq', ho'⟩ := hs.owned hq ho
    exact ih (h.notify ho c) hq' ho'

variable {u : TaskId} {x : Sender}

theorem waiting_lock_of_ne (hu : u ≠ a) : (s.lock a n).waiting u = s.waiting u := by
  unfold Sync.lock MutexInner.lock
  by_cases hl : (s.mutexes n).locked = true
  · rw [if_pos hl]
    exact Function.update_of_ne hu _ _
  · rw [if_neg hl]
    rfl

theorem waiting_drop (ho : Owned s) {b : TaskId} {y : Sender} (hb : s.waiting b = some (y, n))
    (hn : n ≠ m) (hw : s.waiting u = some (x, m)) : (s.drop y).waiting u = some (x, m) := by
  have hne : ¬ (s.waiting u).map Prod.fst = some y := by
    rw [hw]
    rintro h
    cases h
    cases ho.unique hw hb
    rw [hw] at hb
    cases hb
    exact hn rfl
  exact (if_neg hne).trans hw

theorem waiting_unlock_of_ne (ho : Owned s) (hu : s.unlock a n = some s') (hn : n ≠ m)
    (hw : s.waiting u = some (x, m)) : s'.waiting u = some (x, m) := by
  unfold Sync.unlock MutexInner.unlock at hu
  split_ifs at hu with hl
  cases hq : (s.mutexes n).queue with
  | nil =>
    simp only [hq, Option.some.injEq] at hu
    subst hu
    exact hw
  | cons y tl =>
    simp only [hq, Option.some.injEq, hl] at hu
    subst hu
    obtain ⟨b, hb⟩ := ho.mutex (hq ▸ List.mem_cons_self : y ∈ (s.mutexes n).queue)
    have h' := ho.setMutex n ⟨true, tl⟩ fun z hz => ho.mutex (hq ▸ List.mem_cons_of_mem _ hz)
    exact waiting_drop ⟨h'.unique, h'.mutex, h'.condvar⟩ hb hn hw

theorem waiting_wait_of_ne (ho : Owned s) (hs : s.wait a c n = some s') (hn : n ≠ m) (hu : u ≠ a)
    (hw : s.waiting u = some (x, m)) : s'.waiting u = some (x, m) := by
  obtain ⟨s₁, hs₁, rfl⟩ := Option.map_eq_some_iff.mp hs
  have hw₁ : s₁.waiting u = some (x, m) := waiting_unlock_of_ne ho hs₁ hn hw
  exact (Function.update_of_ne hu _ _).trans hw₁

theorem Plain.waiting_notify (h : Plain s m) (ho : Owned s) (c : ℕ)
    (hw : s.waiting u = some (x, m)) : (s.notify c).waiting u = some (x, m) := by
  unfold Sync.notify
  cases hq : (s.condvars c).queue with
  | nil => exact hw
  | cons e tl =>
    obtain ⟨n, y⟩ := e
    have hmem : (n, y) ∈ (s.condvars c).queue := hq ▸ List.mem_cons_self
    simp only [MutexInner.notifyImpl]
    split_ifs
    · exact hw
    · obtain ⟨b, hb⟩ := ho.condvar hmem
      have h₁ := ho.setCondvar c ⟨tl⟩ fun e he => ho.condvar (hq ▸ List.mem_cons_of_mem _ he)
      refine waiting_drop ⟨h₁.unique, fun {k z} hz => h₁.mutex ?_, h₁.condvar⟩ hb
        (h.unparked hmem) hw
      simpa [Sync.setMutex, leave, setCondvar] using hz

theorem Plain.waiting_notifyAll (h : Plain s m) (hq : Queued none s) (ho : Owned s) (c : ℕ)
    (hw : s.waiting u = some (x, m)) : (s.notifyAll c).waiting u = some (x, m) := by
  unfold Sync.notifyAll
  generalize (s.condvars c).queue.length = k
  induction k generalizing s with
  | zero => exact hw
  | succ k ih =>
    have hs : Steps False s (s.notify c) := (steps_notify nofun).1
    obtain ⟨hq', ho'⟩ := hs.owned hq ho
    exact ih (h.notify ho c) hq' ho' (h.waiting_notify ho c hw)

end Plain

end Waiters

/-- Task 0 waits on a condition variable, task 1 notifies it with the mutex unlocked and
then locks the mutex, which task 0 already holds. -/
theorem mutual_exclusion_fails : ∃ s, Reachable ByHolder s ∧
    ¬ ((∀ m a b, s.holds a m → s.holds b m → a = b) ∧
      (∀ m, (s.mutexes m).locked = true ↔ ∃ a, s.holds a m) ∧
      ∀ a m, s.holds a m → ((s.mutexes m).unlock).isSome) := by
  have hrun : ∃ s ∈ Sync.new.run ByHolder [.lock 0 0, .wait 0 0 0, .notify 0, .lock 1 0],
      s.holds 0 0 ∧ s.holds 1 0 := by decide
  obtain ⟨s, hs, h₀, h₁⟩ := hrun
  exact ⟨s, Reachable.new.run hs, fun h => absurd (h.1 0 0 1 h₀ h₁) (by decide)⟩

theorem mutual_exclusion_condvar : ∃ s, Reachable (fun s a => s.ByHolder a ∧ s.NotifiesLocked a) s ∧
    s.holds 0 0 ∧ (∀ m a b, s.holds a m → s.holds b m → a = b) ∧
    (∀ m, (s.mutexes m).locked = true ↔ ∃ a, s.holds a m) ∧
    ∀ a m, s.holds a m → ((s.mutexes m).unlock).isSome := by
  have hrun : ∃ s ∈ Sync.new.run (fun s a => s.ByHolder a ∧ s.NotifiesLocked a)
      [.lock 0 0, .wait 0 0 0, .lock 1 0, .notify 0, .unlock 1 0], s.holds 0 0 := by decide
  obtain ⟨s, hs, h₀⟩ := hrun
  have h : Reachable (fun s a => s.ByHolder a ∧ s.NotifiesLocked a) s := Reachable.new.run hs
  exact ⟨s, h, h₀, mutual_exclusion h⟩

end Sync
end AtomicSim
