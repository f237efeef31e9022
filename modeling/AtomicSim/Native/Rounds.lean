import AtomicSim.Barriers
import AtomicSim.Native.Agreement

namespace AtomicSim

/-- The thunk of `CInstr::Compute` on two operands. -/
def CInstr.compute (operation : COperationName) (v₁ v₂ : Thunk) : ThunkArgs :=
  DataFlow.thunk [v₁, v₂] fun args => do
    let v₁ ← args[0]?
    let v₂ ← args[1]?
    operation.callScalarBinop v₁ v₂

/-- The thunks that a round decodes, by their numbers, and the constant that it adds. -/
structure Round where
  load : ℕ
  add : ℕ
  store : ℕ
  constant : ℕ
  deriving DecidableEq, Repr

/-- The last step that a thread has taken in its round. -/
inductive Stage where
  | outside
  | entered
  | loaded (load : ℕ)
  | added (load add constant : ℕ)
  | stored (r : Round)
  | left (r : Round)
  deriving DecidableEq, Repr

namespace Stage

def load? : Stage → Option ℕ
  | outside | entered => none
  | loaded load | added load _ _ => some load
  | stored r | left r => some r.load

def add? : Stage → Option (ℕ × ℕ × ℕ)
  | outside | entered | loaded _ => none
  | added load add constant => some (load, add, constant)
  | stored r | left r => some (r.load, r.add, r.constant)

def store? : Stage → Option Round
  | outside | entered | loaded _ | added _ _ _ => none
  | stored r | left r => some r

theorem of_store? {s : Stage} {r : Round} (h : s.store? = some r) :
    s.load? = some r.load ∧ s.add? = some (r.load, r.add, r.constant) := by
  cases s with
  | outside | entered | loaded _ | added _ _ _ => cases h
  | stored _ | left _ =>
    cases h
    exact ⟨rfl, rfl⟩

def pending : Stage → ℕ
  | added _ _ constant => constant
  | outside | entered | loaded _ | stored _ | left _ => 0

/-- `pthread_mutex_lock` was called, and `pthread_mutex_unlock` not yet. -/
def inside : Stage → Bool
  | entered | loaded _ | added _ _ _ | stored _ => true
  | outside | left _ => false

end Stage

/-- Threads that go through rounds, besides whatever else they do: `rounds` are those that have
come to their store, and `addresses` the operands that loads and stores had as their address. -/
structure Rounds where
  machine : Machine
  stage : ThreadId → Stage
  rounds : List (ThreadId × Round)
  addresses : List Thunk

inductive RoundAction where
  | lock (t : ThreadId)
  | load (t : ThreadId) (address : Thunk)
  | add (t : ThreadId) (constant : ℕ)
  | store (t : ThreadId) (address : Thunk)
  | unlock (t : ThreadId)
  | other (a : MachineAction)

namespace RoundAction

def thread : RoundAction → Option ThreadId
  | lock t | load t _ | add t _ | store t _ | unlock t => some t
  | other _ => none

def constant : RoundAction → ℕ
  | add _ constant => constant
  | lock _ | load _ _ | store _ _ | unlock _ | other _ => 0

end RoundAction

namespace Rounds

def start (s : Machine) : Rounds := ⟨s, fun _ => .outside, [], []⟩

/-- The thunk that the thread decodes next. -/
def seq (R : Rounds) (t : ThreadId) : ℕ := (R.machine.process.flows t).seq

/-- The thread makes the next call of its round. -/
def call (R : Rounds) (t : ThreadId) (c : Call) (stage : Stage)
    (rounds : List (ThreadId × Round)) (addresses : List Thunk) : Option Rounds :=
  (R.machine.act (.call t c)).map fun machine =>
    ⟨machine, Function.update R.stage t stage, R.rounds ++ rounds, R.addresses ++ addresses⟩

/-- `pthread_mutex_lock(m)`, a load of the `w`-bit location, the addition of a constant, a store
to the location, and `pthread_mutex_unlock(m)`. The other actions may be any but calls that
lock or unlock the mutex. -/
def act (m w : ℕ) (R : Rounds) : RoundAction → Option Rounds
  | .lock t =>
    match R.stage t with
    | .outside | .left _ => R.call t (.mutexLock m) .entered [] []
    | _ => none
  | .load t address =>
    match R.stage t with
    | .entered => R.call t (.decode (DataFlow.load address ⟨w, w⟩ .none)) (.loaded (R.seq t)) []
        [address]
    | _ => none
  | .add t constant =>
    match R.stage t with
    | .loaded load => R.call t (.decode (CInstr.compute .add (.cell t load)
        (.constant (Value.new w constant)))) (.added load (R.seq t) constant) [] []
    | _ => none
  | .store t address =>
    match R.stage t with
    | .added load add constant => R.call t (.decode (DataFlow.store address ⟨w, w⟩ (.cell t add)
        .none)) (.stored ⟨load, add, R.seq t, constant⟩) [(t, ⟨load, add, R.seq t, constant⟩)]
        [address]
    | _ => none
  | .unlock t =>
    match R.stage t with
    | .stored r => R.call t (.mutexUnlock m) (.left r) [] []
    | _ => none
  | .other a =>
    if Machine.Unused m R.machine a then
      (R.machine.act a).map fun machine => { R with machine }
    else none

def run (m w : ℕ) (R : Rounds) : List RoundAction → Option Rounds
  | [] => some R
  | a :: as => (R.act m w a).bind fun R' => R'.run m w as

/-- The thread is in no round: its last call of `pthread_mutex_unlock` has returned. -/
def Done (m : ℕ) (R : Rounds) (t : ThreadId) : Prop :=
  (R.stage t).inside = false ∧ ∀ c ∈ R.machine.call t, c.OnMutex m → R.machine.control t = .ret

instance (m : ℕ) (R : Rounds) (t : ThreadId) : Decidable (R.Done m t) :=
  inferInstanceAs (Decidable (_ ∧ _))

/-- From the `k`-th event on the word of the mutex is changed by the calls on it alone and the
location by the stores of the rounds alone, and what the rounds have as their address is that
of the location. -/
structure Only (m x w k : ℕ) (R : Rounds) (p : Process) : Prop where
  word : R.machine.OnlyMutex p m k
  location : ∀ e ∈ p.log.drop k, (∀ y ∈ R.rounds, e.id ≠ some (y.1, y.2.store)) →
    ∀ b, x ≤ b → b < x + w / 8 → e.after.byteAt b = e.before.byteAt b
  address : ∀ a ∈ R.addresses, ∀ v ∈ a.tryGet p, v.asU64 = x

instance (m x w k : ℕ) (R : Rounds) (p : Process) : Decidable (R.Only m x w k p) :=
  decidable_of_iff (R.machine.OnlyMutex p m k ∧
      (∀ e ∈ p.log.drop k, (∀ y ∈ R.rounds, e.id ≠ some (y.1, y.2.store)) →
        ∀ b, x ≤ b → b < x + w / 8 → e.after.byteAt b = e.before.byteAt b) ∧
      ∀ a ∈ R.addresses, ∀ v ∈ a.tryGet p, v.asU64 = x)
    ⟨fun h => ⟨h.1, h.2.1, h.2.2⟩, fun h => ⟨h.word, h.location, h.address⟩⟩

def total (R : Rounds) (p : Process) : ℕ :=
  (R.rounds.map fun y => if (p.value y.1 y.2.store).isSome then y.2.constant else 0).sum

end Rounds

namespace Machine

/-- Thunk `i` of `t` is decoded, or to decode it is what is left of a call. -/
def Placed (s : Machine) (p : Process) (t : ThreadId) (i : ℕ) (a : ThunkArgs) : Prop :=
  (p.flows t).decoded[i]? = some (a.thunk t i) ∨
    (i = (p.flows t).seq ∧ s.control t = .thunk a fun _ => .ret)

/-- The task is in `pthread_mutex_lock`, or it has the mutex. -/
def Entering (s : Machine) (m : ℕ) (t : ThreadId) : Prop :=
  s.sync.holds t m ∨ s.control t = pthreadMutexLock m ∨ ∃ y, s.sync.waiting t = some (y, m)

/-- The task is in `pthread_mutex_unlock`, and the exchange, which is behind thunk `i`, is not
resolved. -/
structure Leaving (s : Machine) (p : Process) (m : ℕ) (t : ThreadId) (i : ℕ) : Prop where
  call : s.call t = some (.mutexUnlock m)
  decoded : i < (p.flows t).seq
  exchange : ∃ o, s.InMutexExchange p m t (releaseExchange m)
    (released m (.unlock m (nativeReturn 0))) o ∧ o.bind (p.value t) = none ∧
      ∀ j, o = some j → i < j

section Leaving

variable {s : Machine} {p : Process} {m : ℕ} {t : ThreadId} {i : ℕ}

theorem Leaving.holds (h : s.Leaving p m t i) : s.sync.holds t m := by
  obtain ⟨o, hx, -, -⟩ := h.exchange
  exact hx.holds

theorem Leaving.control_ne (h : s.Leaving p m t i) {task : Task}
    (hthunk : ∀ a k, task ≠ .thunk a k) (hawait : ∀ d k, task ≠ .await d k) :
    s.control t ≠ task := by
  obtain ⟨o, hx, -, -⟩ := h.exchange
  exact hx.control_ne hthunk hawait

end Leaving

end Machine

namespace Rounds

structure ThreadGood (m x w : ℕ) (R : Rounds) (p : Process) (t : ThreadId) : Prop where
  entering : R.stage t = .entered → R.machine.Entering m t
  holds : (R.stage t).inside → R.stage t ≠ .entered → R.machine.sync.holds t m
  call : (R.stage t).inside → R.machine.call t ≠ some (.mutexUnlock m)
  left : ∀ {r}, R.stage t = .left r →
    p.value t r.store ≠ none ∨ R.machine.Leaving p m t r.store
  load : ∀ {l}, (R.stage t).load? = some l →
    ∃ a ∈ R.addresses, R.machine.Placed p t l (DataFlow.load a ⟨w, w⟩ .none)
  add : ∀ {l i n}, (R.stage t).add? = some (l, i, n) →
    R.machine.Placed p t i (CInstr.compute .add (.cell t l) (.constant (Value.new w n)))
  /-- What the round has loaded is still there. -/
  read : ∀ {l v}, (R.stage t).load? = some l →
    (∀ r, (R.stage t).store? = some r → p.value t r.store = none) → p.value t l = some v →
      v.bits = w ∧ v.asU128 = p.memory.number x w

/-- What is true of the rounds and of the location. -/
structure Good (m x w n : ℕ) (R : Rounds) (p : Process) : Prop where
  thread : ∀ t, ThreadGood m x w R p t
  store : ∀ y ∈ R.rounds, ∃ a ∈ R.addresses,
    R.machine.Placed p y.1 y.2.store (DataFlow.store a ⟨w, w⟩ (.cell y.1 y.2.add) .none)
  /-- A store that is not resolved is one of a round that has not ended. -/
  current : ∀ y ∈ R.rounds, p.value y.1 y.2.store = none → (R.stage y.1).store? = some y.2
  mem : ∀ {t r}, (R.stage t).store? = some r → (t, r) ∈ R.rounds
  nodup : (R.rounds.map fun y => (y.1, y.2.store)).Nodup
  number : p.memory.number x w = (n + R.total p) % 2 ^ w

theorem ThreadGood.holds_of_load {m x w : ℕ} {R : Rounds} {p : Process} {t : ThreadId} {l : ℕ}
    (h : ThreadGood m x w R p t) (hl : (R.stage t).load? = some l)
    (hstore : ∀ r, (R.stage t).store? = some r → p.value t r.store = none) :
    R.machine.sync.holds t m := by
  cases hst : R.stage t with
  | outside | entered =>
    rw [hst] at hl
    cases hl
  | loaded _ | added _ _ _ | stored _ => exact h.holds (by rw [hst]; rfl) (by rw [hst]; nofun)
  | left r =>
    rcases h.left hst with hv | hl
    · exact absurd (hstore r (by rw [hst]; rfl)) hv
    · exact hl.holds

end Rounds

namespace Machine

section Placed

variable {s : Machine} {p q : Process} {t : ThreadId} {i : ℕ} {a : ThunkArgs}

theorem Placed.congr (h : s.Placed p t i a)
    (hdec : (q.flows t).decoded = (p.flows t).decoded) : s.Placed q t i a := by
  rw [Placed, DataFlow.seq, hdec]
  exact h

theorem Placed.decoded (h : s.Placed p t i a) (hi : i < (p.flows t).seq) :
    (p.flows t).decoded[i]? = some (a.thunk t i) :=
  h.resolve_right fun h => absurd h.1 (Nat.ne_of_lt hi)

theorem Placed.decoded_of_value (h : s.Placed p t i a) (hp : p.WF) {v : Value}
    (hv : p.value t i = some v) : (p.flows t).decoded[i]? = some (a.thunk t i) :=
  h.decoded (hp.decoded_of_value hv)

theorem Placed.decoded_of_ret (h : s.Placed p t i a) (hk : s.control t = .ret) :
    (p.flows t).decoded[i]? = some (a.thunk t i) :=
  h.resolve_right fun h => nomatch hk.symm.trans h.2

end Placed

section Events

variable {s : Machine} {q : Process} {t : ThreadId} {x w : ℕ} {memory m₁ m₂ : Memory} {v : Value}
  {address : Thunk}

theorem read_of_load {l : ℕ} (hr : Recorded memory q)
    (hload : (q.flows t).decoded[l]? = some ((DataFlow.load address ⟨w, w⟩ .none).thunk t l))
    (haddr : ∀ v, address.tryGet q = some v → v.asU64 = x)
    (he : Event.res t l v m₁ m₂ ∈ q.log) : v.bits = w ∧ v.asU128 = m₁.number x w := by
  obtain ⟨c, args, hc, hargs, hcomp⟩ := hr.sound t l v m₁ m₂ he
  cases Option.some.inj (hload.symm.trans hc)
  obtain ⟨ptr, hptr, rfl⟩ := mapM_singleton hargs
  have hcomp := (compute_load address ⟨w, w⟩ .none m₁ ptr).symm.trans hcomp
  rw [haddr ptr hptr, Memory.loadImpl_eq] at hcomp
  obtain ⟨u, hu, hcomp⟩ := Option.map_eq_some_iff.mp hcomp
  split_ifs at hu
  cases hcomp
  cases hu
  exact ⟨rfl, rfl⟩

theorem number_of_store {l j i n : ℕ} (hw : w ∈ [8, 16, 32, 64, 128]) (hq : q.WF)
    (hr : Recorded memory q)
    (hadd : s.Placed q t j (CInstr.compute .add (.cell t l) (.constant (Value.new w n))))
    (hstore : (q.flows t).decoded[i]? =
      some ((DataFlow.store address ⟨w, w⟩ (.cell t j) .none).thunk t i))
    (haddr : ∀ v, address.tryGet q = some v → v.asU64 = x)
    (hbits : ∀ u, q.value t l = some u → u.bits = w) (he : Event.res t i v m₁ m₂ ∈ q.log) :
    ∃ u, q.value t l = some u ∧ m₂.number x w = (u.asU128 + n) % 2 ^ w := by
  obtain ⟨c, args, hc, hargs, hcomp⟩ := hr.sound t i v m₁ m₂ he
  cases Option.some.inj (hstore.symm.trans hc)
  obtain ⟨ptr, y, hptr, hy, rfl⟩ := mapM_pair hargs
  have hcomp := (compute_store address ⟨w, w⟩ .none m₁ ptr (.cell t j) y).symm.trans hcomp
  rw [haddr ptr hptr, Memory.storeImpl_eq] at hcomp
  obtain ⟨m', hm', hcomp⟩ := Option.map_eq_some_iff.mp hcomp
  split_ifs at hm'
  cases hcomp
  cases hm'
  -- the value that is stored comes from the addition
  obtain ⟨n₁, n₂, hey⟩ := hq.logged.mp hy
  obtain ⟨c', args', hc', hargs', hcomp'⟩ := hr.sound t j y n₁ n₂ hey
  cases Option.some.inj ((hadd.decoded_of_value hq hy).symm.trans hc')
  obtain ⟨u, b, hu, hb, rfl⟩ := mapM_pair hargs'
  cases hb
  have hsum : COperationName.add.callScalarBinop u (Value.new w n) = some y := by
    obtain ⟨z, hz, hzy⟩ := Option.map_eq_some_iff.mp hcomp'
    cases hzy
    exact hz
  obtain ⟨-, -, hle, -⟩ := width_facts w hw
  have hub := hbits u hu
  have hyv := callScalarBinop_add (hub ▸ hw) hsum
  rw [hub, Value.asU128_new hle, Nat.add_mod_mod] at hyv
  refine ⟨u, hu, ?_⟩
  rw [number_write (hyv ▸ rfl), hyv, Value.asU128_new hle, Nat.mod_mod]

end Events

/-- The exchange of `pthread_mutex_unlock` is resolved after everything that was decoded before
it. -/
theorem Leaving.resolve {s : Machine} {p : Process} {m i : ℕ} {t : ThreadId} {c : ThunkInner}
    {v : Value} {n : Memory} (h : s.Leaving p m t i) (hp : p.WF) (hdeps : p.DepsEarlier)
    (hdec : (p.flows c.threadid).decoded[c.seq]? = some c)
    (hv : p.value c.threadid c.seq = none)
    (hoff : c.isAtomic → Offered (fun _ _ => True) p c) :
    p.value t i ≠ none ∨ s.Leaving (p.resolve c v n) m t i := by
  have hext := Process.extends_resolve hv v n
  obtain ⟨o, hx, ho, hlt⟩ := h.exchange
  by_cases hc : ∃ j, o = some j ∧ t = c.threadid ∧ j = c.seq
  · left
    obtain ⟨j, rfl, rfl, rfl⟩ := hc
    intro hnone
    obtain ⟨k, a, e, r, -, -, -, j', -, hj', hdec'⟩ := hx.exchanges rfl
    cases hj'
    have hc : c = ((releaseExchange m).args a e r).thunk c.threadid c.seq :=
      Option.some.inj (hdec.symm.trans hdec')
    have hrel : c.atomicity = .release := by rw [hc]; rfl
    have hatomic : c.isAtomic := by rw [hc]; rfl
    have hb := List.getElem?_eq_getElem h.decoded
    have hseq := (hp.numbered hb).2
    have hbefore := Process.mem_before (c := c).mpr
      ⟨hp.unresolved hb hnone, by rw [hseq]; exact hlt _ rfl⟩
    obtain ⟨u, hu, hub⟩ := exists_head_of_mem_before hp hbefore
    rw [(hoff hatomic).release hdeps hrel] at hu
    cases hu
    exact lt_irrefl _ (Process.mem_before.mp hub).2
  · right
    have hval : ∀ {j}, o = some j → (p.resolve c v n).value t j = p.value t j := fun {j} hj => by
      rw [Process.value_resolve, if_neg fun htj => hc ⟨j, hj, htj⟩]
    refine ⟨h.call, ?_, o, hx.mono rfl rfl rfl hext hval hx.holds, ?_, hlt⟩
    · rw [DataFlow.seq, Process.decoded_resolve]
      exact h.decoded
    · exact (Option.bind_congr fun j hj => hval hj).trans ho

end Machine

theorem sum_map_of_mem {α : Type*} [DecidableEq α] {l : List α} (hl : l.Nodup) {a : α}
    (ha : a ∈ l) {f g : α → ℕ} (h : ∀ b ∈ l, b ≠ a → g b = f b) :
    (l.map g).sum + f a = (l.map f).sum + g a := by
  have hperm := List.perm_cons_erase ha
  have hrest : (l.erase a).map g = (l.erase a).map f := by
    refine List.map_congr_left fun b hb => ?_
    exact h b (List.mem_of_mem_erase hb) (hl.mem_erase_iff.mp hb).1
  rw [(hperm.map g).sum_nat, (hperm.map f).sum_nat, List.map_cons, List.map_cons, List.sum_cons,
    List.sum_cons, hrest]
  omega

namespace Rounds

section Resolve

variable {m x w k n : ℕ} {R : Rounds} {p : Process} {c : ThunkInner} {v : Value}
  {memory mem : Memory} {e : Event}

theorem Only.number_eq {q : Process} (h : R.Only m x w k q) (hw : w ∈ [8, 16, 32, 64, 128])
    (hq : q.log = p.log ++ [e]) (hk : k ≤ p.log.length)
    (he : ∀ y ∈ R.rounds, e.id ≠ some (y.1, y.2.store)) :
    e.after.number x w = e.before.number x w := by
  refine number_congr hw (h.location e ?_ he)
  rw [hq, List.drop_append_of_le_length hk]
  exact List.mem_append_right _ (List.mem_singleton_self e)

theorem Good.number_of_round (h : R.Good m x w n p) (hw : w ∈ [8, 16, 32, 64, 128]) (hp : p.WF)
    (hdec : (p.flows c.threadid).decoded[c.seq]? = some c)
    (hv : p.value c.threadid c.seq = none) (hr : Recorded memory (p.resolve c v mem))
    (honly : R.Only m x w k (p.resolve c v mem)) {r : Round} (hmem : (c.threadid, r) ∈ R.rounds)
    (hseq : r.store = c.seq) : mem.number x w = (p.memory.number x w + r.constant) % 2 ^ w := by
  have hq := Process.wf_resolve hp hdec hv v mem
  have hnone : p.value c.threadid r.store = none := by rw [hseq]; exact hv
  have hstage := h.current _ hmem hnone
  have hdecoded : ∀ t, ((p.resolve c v mem).flows t).decoded = (p.flows t).decoded := fun t => by
    rw [Process.decoded_resolve]
  have ht := h.thread c.threadid
  have hlt : r.store < ((p.resolve c v mem).flows c.threadid).seq := by
    rw [hseq, DataFlow.seq, hdecoded]
    exact (List.getElem?_eq_some_iff.mp hdec).1
  obtain ⟨hl, hadd⟩ := Stage.of_store? hstage
  -- the load was resolved before, so that what it read is still there
  have hval : ∀ {u}, (p.resolve c v mem).value c.threadid r.load = some u → r.load ≠ c.seq →
      u.bits = w ∧ u.asU128 = p.memory.number x w := by
    intro u hu hne
    rw [Process.value_resolve, if_neg fun h => hne h.2] at hu
    refine ht.read hl (fun r' hr' => ?_) hu
    cases hstage.symm.trans hr'
    exact hnone
  obtain ⟨al, -, hload⟩ := ht.load hl
  obtain ⟨a, ha, hstore⟩ := h.store _ hmem
  have hstore := (hstore.congr (hdecoded _)).decoded hlt
  have hne : r.load ≠ c.seq := by
    intro hl
    have hload := (hload.congr (hdecoded _)).decoded (hl ▸ hseq ▸ hlt)
    rw [hl, ← hseq] at hload
    cases congrArg (fun c => c.map fun c => c.deps.length) (hload.symm.trans hstore)
  have hev : Event.res c.threadid r.store v p.memory mem ∈ (p.resolve c v mem).log := by
    rw [hseq]
    exact List.mem_append_right _ (List.mem_singleton_self _)
  obtain ⟨u, hu, hnum⟩ := Machine.number_of_store hw hq hr ((ht.add hadd).congr (hdecoded _))
    hstore (honly.address a ha) (fun u hu => (hval hu hne).1) hev
  rw [hnum, (hval hu hne).2]

theorem Good.total_of_round (h : R.Good m x w n p) (hv : p.value c.threadid c.seq = none)
    {r : Round} (hmem : (c.threadid, r) ∈ R.rounds) (hseq : r.store = c.seq) :
    R.total (p.resolve c v mem) = R.total p + r.constant := by
  have hother : ∀ y ∈ R.rounds, y ≠ (c.threadid, r) →
      (if ((p.resolve c v mem).value y.1 y.2.store).isSome then y.2.constant else 0) =
        if (p.value y.1 y.2.store).isSome then y.2.constant else 0 := by
    intro y hy hne
    have hkey : ¬ (y.1 = c.threadid ∧ y.2.store = c.seq) := fun hc =>
      hne (List.inj_on_of_nodup_map h.nodup hy hmem (by rw [hc.1, hc.2, hseq]))
    rw [Process.value_resolve, if_neg hkey]
  have hsum := sum_map_of_mem (List.Nodup.of_map _ h.nodup) hmem hother
  simp only [hseq, hv, Process.value_resolve, true_and, if_true, Option.isSome_none,
    Option.isSome_some, Bool.false_eq_true, if_false, Nat.add_zero] at hsum
  simpa only [total, Process.value_resolve] using hsum

theorem total_of_other (hc : ∀ y ∈ R.rounds, ¬ (y.1 = c.threadid ∧ y.2.store = c.seq)) :
    R.total (p.resolve c v mem) = R.total p := by
  refine congrArg List.sum (List.map_congr_left fun y hy => ?_)
  rw [Process.value_resolve, if_neg (hc y hy)]

theorem Only.number_of_other (h : R.Only m x w k (p.resolve c v mem))
    (hw : w ∈ [8, 16, 32, 64, 128]) (hk : k ≤ p.log.length)
    (hc : ∀ y ∈ R.rounds, ¬ (y.1 = c.threadid ∧ y.2.store = c.seq)) :
    mem.number x w = p.memory.number x w := by
  refine h.number_eq (p := p) (e := .res c.threadid c.seq v p.memory mem) hw rfl hk ?_
  intro y hy hid
  obtain ⟨ht, hi⟩ := Prod.mk.inj (Option.some.inj hid)
  exact hc y hy ⟨ht.symm, hi.symm⟩

theorem Good.number_resolve (h : R.Good m x w n p) (hw : w ∈ [8, 16, 32, 64, 128]) (hp : p.WF)
    (hdec : (p.flows c.threadid).decoded[c.seq]? = some c)
    (hv : p.value c.threadid c.seq = none) (hr : Recorded memory (p.resolve c v mem))
    (hk : k ≤ p.log.length) (honly : R.Only m x w k (p.resolve c v mem)) :
    mem.number x w = (n + R.total (p.resolve c v mem)) % 2 ^ w := by
  by_cases hround : ∃ r, (c.threadid, r) ∈ R.rounds ∧ r.store = c.seq
  · obtain ⟨r, hmem, hseq⟩ := hround
    rw [h.number_of_round hw hp hdec hv hr honly hmem hseq, h.number,
      h.total_of_round hv hmem hseq, Nat.mod_add_mod, Nat.add_assoc]
  · have hother : ∀ y ∈ R.rounds, ¬ (y.1 = c.threadid ∧ y.2.store = c.seq) := by
      rintro ⟨t, r⟩ hy ⟨rfl, hseq⟩
      exact hround ⟨r, hy, hseq⟩
    rw [honly.number_of_other hw hk hother, total_of_other hother]
    exact h.number

theorem Good.read_resolve (h : R.Good m x w n p) (hw : w ∈ [8, 16, 32, 64, 128])
    (hdec : (p.flows c.threadid).decoded[c.seq]? = some c)
    (hv : p.value c.threadid c.seq = none) (hr : Recorded memory (p.resolve c v mem))
    (hplain : R.machine.sync.Plain m) (hk : k ≤ p.log.length)
    (honly : R.Only m x w k (p.resolve c v mem)) {t : ThreadId} {l : ℕ} {u : Value}
    (hl : (R.stage t).load? = some l)
    (hstore : ∀ r, (R.stage t).store? = some r → (p.resolve c v mem).value t r.store = none)
    (hu : (p.resolve c v mem).value t l = some u) :
    u.bits = w ∧ u.asU128 = mem.number x w := by
  have hext := Process.extends_resolve hv v mem
  by_cases hround : ∃ r, (c.threadid, r) ∈ R.rounds ∧ r.store = c.seq
  · -- nobody is between its load and its store, as the mutex has one holder
    obtain ⟨r, hmem, hseq⟩ := hround
    have hstage := h.current _ hmem (show p.value c.threadid r.store = none by rw [hseq, hv])
    by_cases ht : t = c.threadid
    · subst ht
      have hq := hstore r hstage
      rw [hseq, Process.value_resolve, if_pos ⟨rfl, rfl⟩] at hq
      cases hq
    · have hholds := (h.thread t).holds_of_load hl fun r' hr' => hext.value_none (hstore r' hr')
      have hholds' := (h.thread c.threadid).holds_of_load (Stage.of_store? hstage).1
        fun r' hr' => by
          cases hstage.symm.trans hr'
          rw [hseq, hv]
      exact absurd (hplain.exclusive hholds hholds') ht
  · have hnum := honly.number_of_other hw hk fun y hy hc => hround ⟨y.2, hc.1 ▸ hy, hc.2⟩
    rw [hnum]
    by_cases hc : t = c.threadid ∧ l = c.seq
    · obtain ⟨rfl, rfl⟩ := hc
      obtain ⟨a, ha, hload⟩ := (h.thread c.threadid).load hl
      rw [Process.value_resolve, if_pos ⟨rfl, rfl⟩] at hu
      cases hu
      have hdecoded : ((p.resolve c v mem).flows c.threadid).decoded =
          (p.flows c.threadid).decoded := by
        rw [Process.decoded_resolve]
      refine Machine.read_of_load hr ((hload.congr hdecoded).decoded ?_)
        (honly.address a ha) (List.mem_append_right _ (List.mem_singleton_self _))
      rw [DataFlow.seq, hdecoded]
      exact (List.getElem?_eq_some_iff.mp hdec).1
    · rw [Process.value_resolve, if_neg hc] at hu
      exact (h.thread t).read hl (fun r hr' => hext.value_none (hstore r hr')) hu

theorem Good.resolve (h : R.Good m x w n p) (hw : w ∈ [8, 16, 32, 64, 128]) (hp : p.WF)
    (hdeps : p.DepsEarlier) (hdec : (p.flows c.threadid).decoded[c.seq]? = some c)
    (hv : p.value c.threadid c.seq = none) (hoff : c.isAtomic → Offered (fun _ _ => True) p c)
    (hr : Recorded memory (p.resolve c v mem)) (hplain : R.machine.sync.Plain m)
    (hk : k ≤ p.log.length) (honly : R.Only m x w k (p.resolve c v mem)) :
    R.Good m x w n (p.resolve c v mem) := by
  have hext := Process.extends_resolve hv v mem
  have hdecoded : ∀ t, ((p.resolve c v mem).flows t).decoded = (p.flows t).decoded := fun t => by
    rw [Process.decoded_resolve]
  refine ⟨fun t => ?_, fun y hy => ?_, fun y hy hq => h.current y hy (hext.value_none hq), h.mem,
    h.nodup, h.number_resolve hw hp hdec hv hr hk honly⟩
  · have ht := h.thread t
    refine ⟨ht.entering, ht.holds, ht.call, fun {r} hst => ?_, fun hl => ?_, fun ha => ?_,
      fun hl hstore hu => h.read_resolve hw hdec hv hr hplain hk honly hl hstore hu⟩
    · rcases ht.left hst with hs | hs
      · exact .inl fun hq => hs (hext.value_none hq)
      · exact (hs.resolve hp hdeps hdec hv hoff).imp_left fun hs hq => hs (hext.value_none hq)
    · obtain ⟨a, ha, hload⟩ := ht.load hl
      exact ⟨a, ha, hload.congr (hdecoded t)⟩
    · exact (ht.add ha).congr (hdecoded t)
  · obtain ⟨a, ha, hstore⟩ := h.store y hy
    exact ⟨a, ha, hstore.congr (hdecoded _)⟩

end Resolve

end Rounds

/-- What a thread has of its round is kept. -/
structure Machine.Carries (s s' : Machine) (p q : Process) (m : ℕ) (t : ThreadId) : Prop where
  placed : ∀ {i a}, s.Placed p t i a → s'.Placed q t i a
  entering : s.call t ≠ some (.mutexUnlock m) → s.Entering m t → s'.Entering m t
  holds : s.call t ≠ some (.mutexUnlock m) → s.sync.holds t m → s'.sync.holds t m
  call : s.call t ≠ some (.mutexUnlock m) → s'.call t ≠ some (.mutexUnlock m)
  leaving : ∀ {i}, s.Leaving p m t i → s'.Leaving q m t i

theorem Machine.carries_of_eq {s s' : Machine} {p q : Process} {m : ℕ} {t : ThreadId}
    (hcontrol : s'.control = s.control) (hcall : s'.call = s.call)
    (hback : s'.backtrace = s.backtrace) (hsync : s'.sync = s.sync)
    (hdec : ∀ t, (q.flows t).decoded = (p.flows t).decoded) (hval : q.value = p.value) :
    s.Carries s' p q m t where
  placed h := by
    rw [Placed, hcontrol]
    exact h.congr (hdec t)
  entering _ h := by
    rw [Entering, hcontrol, hsync]
    exact h
  holds _ h := hsync ▸ h
  call h := hcall ▸ h
  leaving h := by
    have hext : p.Extends q :=
      ⟨fun t => by rw [hdec], fun hv => by rw [hval]; exact hv⟩
    obtain ⟨o, hx, ho, hlt⟩ := h.exchange
    refine ⟨hcall ▸ h.call, ?_, o, hx.mono (congrFun hcontrol t) (congrFun hcall t)
      (congrFun hback t) hext (fun _ => by rw [hval]) (hsync ▸ hx.holds), ?_, hlt⟩
    · rw [DataFlow.seq, hdec]
      exact h.decoded
    · rw [hval]
      exact ho

namespace Rounds

section Transport

variable {m x w k n : ℕ} {R R' : Rounds} {p q : Process} {t : ThreadId} {memory : Memory}

theorem ThreadGood.transport (h : ThreadGood m x w R p t)
    (hc : R.machine.Carries R'.machine p q m t) (hstage : R'.stage t = R.stage t)
    (haddr : ∀ a ∈ R.addresses, a ∈ R'.addresses) (hval : q.value = p.value)
    (hnum : q.memory.number x w = p.memory.number x w) : ThreadGood m x w R' q t where
  entering hst := by
    rw [hstage] at hst
    exact hc.entering (h.call (by rw [hst]; rfl)) (h.entering hst)
  holds hin hne := by
    rw [hstage] at hin hne
    exact hc.holds (h.call hin) (h.holds hin hne)
  call hin := by
    rw [hstage] at hin
    exact hc.call (h.call hin)
  left hst := by
    rw [hstage] at hst
    rw [hval]
    exact (h.left hst).imp_right hc.leaving
  load hl := by
    rw [hstage] at hl
    obtain ⟨a, ha, hp⟩ := h.load hl
    exact ⟨a, haddr a ha, hc.placed hp⟩
  add ha := by
    rw [hstage] at ha
    exact hc.placed (h.add ha)
  read hl hstore hv := by
    rw [hstage] at hl hstore
    rw [hval] at hstore hv
    rw [hnum]
    exact h.read hl hstore hv

theorem Good.transport (h : R.Good m x w n p) (hc : ∀ t, R.machine.Carries R'.machine p q m t)
    (hstage : R'.stage = R.stage) (hrounds : R'.rounds = R.rounds)
    (haddr : R'.addresses = R.addresses) (hval : q.value = p.value)
    (hnum : q.memory.number x w = p.memory.number x w) : R'.Good m x w n q where
  thread t := (h.thread t).transport (hc t) (congrFun hstage t) (haddr ▸ fun _ => id) hval hnum
  store y hy := by
    rw [hrounds] at hy
    obtain ⟨a, ha, hp⟩ := h.store y hy
    exact ⟨a, haddr ▸ ha, (hc y.1).placed hp⟩
  current y hy hv := by
    rw [hrounds] at hy
    rw [hval] at hv
    rw [hstage]
    exact h.current y hy hv
  mem hr := by
    rw [hstage] at hr
    rw [hrounds]
    exact h.mem hr
  nodup := hrounds ▸ h.nodup
  number := by
    rw [hnum, total, hrounds, hval]
    exact h.number

theorem Only.of_extends (h : R.Only m x w k q) (hext : p.Extends q) (hlog : p.log <+: q.log) :
    R.Only m x w k p where
  word := h.word.of_prefix hlog
  location e he := h.location e ((hlog.drop k).subset he)
  address a ha v hv := h.address a ha v (hext.tryGet hv)

theorem Good.processAct (h : R.Good m x w n R.machine.process) (hwf : R.machine.WF)
    (hr : Recorded memory R.machine.process) (hw : w ∈ [8, 16, 32, 64, 128])
    (hplain : R.machine.sync.Plain m) (hk : k ≤ R.machine.process.log.length) {a : Action}
    {config : Config} (ha : R.machine.config.act a = some config) (hd : ∀ d, a ≠ .decode d)
    (honly : R.Only m x w k config.process) : R.Good m x w n config.process := by
  refine Machine.While.act (O := fun p => R.Only m x w k p) (G := fun p => R.Good m x w n p)
    (Machine.invariant_while hwf ?_ ?_ ?_ ?_) hwf hr h ha hd honly
  · exact fun hext hlog honly => honly.of_extends hext hlog
  · intro p q hs h
    refine h.transport (fun t => Machine.carries_of_eq rfl rfl rfl rfl hs.decoded hs.value) rfl rfl
      rfl hs.value ?_
    rw [hs.memory]
  · intro p mem hle h honly
    exact h.transport (fun t => Machine.carries_of_eq rfl rfl rfl rfl (fun _ => rfl) rfl) rfl rfl
      rfl rfl (honly.number_eq (p := p) (e := .store p.memory mem) hw rfl (hk.trans hle) nofun)
  · exact fun hp hdeps hle hdec hv _ hoff hr h honly =>
      h.resolve hw hp hdeps hdec hv hoff hr hplain (hk.trans hle) honly

end Transport

end Rounds

end AtomicSim
