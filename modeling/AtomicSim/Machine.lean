import AtomicSim.Native.Pthread

namespace AtomicSim

namespace Thunk

/-- `Thunk::constant` makes a thunk of thread 0. -/
def threadid : Thunk → ThreadId
  | constant _ => 0
  | cell threadid _ => threadid

end Thunk

/-- `Scheduler::thread`: whether the thread is in the table. -/
def Process.thread (p : Process) (threadid : ThreadId) : Bool := decide (threadid ∈ p.threads)

/-- `Thunk::poll`. Both of its branches look up the thread of the thunk; `none` is the failed
lookup, and a pending thunk has no value yet. -/
def Thunk.poll (p : Process) (d : Thunk) : Option (Option Value) :=
  if p.thread d.threadid then some (d.tryGet p) else none

/-- Where a pending future has left the waker of its task. -/
inductive Waker where
  | thunk (d : Thunk)
  | receiver
  | join (threadid : ThreadId)
  deriving DecidableEq, Repr

/-- The process, the mutexes and condition variables, and the task of each thread: what is
left of it and its last call from the interpreter. `ready` are the tasks that the pool will
poll, `wakers` what is registered to make a task ready, `sent` the values of the join signals,
and `backtrace` tells for a thunk in which call it was decoded. -/
structure Machine where
  config : Config
  sync : Sync
  control : ThreadId → Task
  call : ThreadId → Option Call
  backtrace : ThreadId → ℕ → Option Call
  sent : ThreadId → Option ℕ
  ready : ThreadId → Bool
  wakers : List (Waker × ThreadId)
  failure : Option Failure

namespace Machine

def new (memory : Memory) : Machine where
  config := .decoding (.new memory)
  sync := .new
  control _ := .done
  call _ := none
  backtrace _ _ := none
  sent _ := none
  ready _ := false
  wakers := []
  failure := none

def process (s : Machine) : Process := s.config.process

def goto (s : Machine) (t : ThreadId) (k : Task) : Machine :=
  { s with control := Function.update s.control t k }

def setProcess (s : Machine) (p : Process) : Machine := { s with config := .decoding p }

def setSync (s : Machine) (sync : Sync) : Machine := { s with sync }

def fail (s : Machine) (f : Failure) : Machine := { s with failure := some f }

/-- The poll of the task returns `Pending`, with its waker left at `w`. -/
def suspend (s : Machine) (t : ThreadId) (w : Option Waker) : Machine :=
  { s with
    ready := Function.update s.ready t false
    wakers := s.wakers ++ w.toList.map fun w => (w, t) }

/-- `add_thread`: the new task is ready to be polled. -/
def spawn (s : Machine) (p : Process) (params : List Value) : Machine :=
  { s with
    config := .decoding p.addThread
    control := Function.update s.control p.nextThreadid (.start params)
    ready := Function.update s.ready p.nextThreadid true }

/-- The thunk that `thunk_impl` decodes carries the backtrace of its task. -/
def decoded (s : Machine) (p : Process) (t : ThreadId) : Machine :=
  { s with
    config := .decoding p
    backtrace := Function.update s.backtrace t
      (Function.update (s.backtrace t) (s.process.flows t).seq (s.call t)) }

def finish (s : Machine) (p : Process) (t : ThreadId) (value : ℕ) : Machine :=
  { s with
    config := .decoding p
    control := Function.update s.control t .done
    sent := Function.update s.sent t (some value)
    ready := Function.update s.ready t false }

/-- One operation of the task of thread `t` while it is polled. -/
def poll (s : Machine) (p : Process) (t : ThreadId) : Task → Option Machine
  | .ret | .done => none
  | .panic f => some (s.fail f)
  | .thunk a k =>
    if (p.flows t).len < Process.pipelineSize then
      (p.thunkImpl t a.address a.atomicity a.deps a.compute).map fun (d, p') =>
        (s.decoded p' t).goto t (k d)
    -- `pending_once` leaves its waker nowhere
    else some (s.suspend t none)
  | .await d k =>
    match d.poll p with
    | none => some (s.fail (.noThread d.threadid))
    | some none => some (s.suspend t (some (.thunk d)))
    | some (some v) => some (s.goto t (k v))
  | .threadLocal layout value k =>
    (p.threadLocal t layout value).map fun (ptr, p') => (s.setProcess p').goto t (k ptr)
  | .lock m k => some ((s.setSync (s.sync.lock t m)).goto t (.receive k))
  | .tryLock m k =>
    some ((s.setSync (s.sync.tryLock t m)).goto t (k (s.sync.mutexes m).tryLock.1))
  | .unlock m k =>
    match s.sync.unlock t m with
    | none => some (s.fail (.unlock m))
    | some sync => some ((s.setSync sync).goto t k)
  | .wait c m k =>
    match s.sync.wait t c m with
    | none => some (s.fail (.unlock m))
    | some sync => some ((s.setSync sync).goto t (.receive k))
  | .receive k =>
    if s.sync.waiting t = none then some (s.goto t k) else some (s.suspend t (some .receiver))
  | .notify c k => some ((s.setSync (s.sync.notify c)).goto t k)
  | .notifyAll c k => some ((s.setSync (s.sync.notifyAll c)).goto t k)
  | .addThread params k => some ((s.spawn p params).goto t (k p.nextThreadid))
  | .thread u k => if p.thread u then some (s.goto t k) else some (s.fail (.noThread u))
  | .join u k =>
    match s.sent u with
    | some value => some (s.goto t (k value))
    | none => some (s.suspend t (some (.join u)))
  | .send value => (p.join t).map fun p' => s.finish p' t value

/-- The thunk is ready, the sender dropped, or the join signal sent. -/
def fires (s : Machine) (t : ThreadId) : Waker → Bool
  | .thunk d => (d.tryGet s.process).isSome
  | .receiver => (s.sync.waiting t).isNone
  | .join u => (s.sent u).isSome

/-- The wakers whose event has come make their tasks ready and are dropped. -/
def wake (s : Machine) : Machine :=
  { s with
    ready := fun t => s.ready t || s.wakers.any fun w => w.2 == t && s.fires t w.1
    wakers := s.wakers.filter fun w => !s.fires w.2 w.1 }

/-- `run_until_stalled` returns. -/
def Stalled (s : Machine) : Prop := ∀ t < s.process.nextThreadid, s.ready t = false

instance (s : Machine) : Decidable s.Stalled :=
  inferInstanceAs (Decidable (∀ t < s.process.nextThreadid, _))

end Machine

/-- A constant, or a thunk of the thread that is already decoded. -/
def Thunk.Own (t : ThreadId) (n : ℕ) : Thunk → Prop
  | .constant _ => True
  | .cell u i => u = t ∧ i < n

instance (t : ThreadId) (n : ℕ) : DecidablePred (Thunk.Own t n)
  | .constant _ => inferInstanceAs (Decidable True)
  | .cell _ _ => inferInstanceAs (Decidable (_ ∧ _))

inductive MachineAction where
  | addMain
  /-- The interpreter of a thread goes on to its next call. -/
  | call (t : ThreadId) (c : Call)
  | poll (t : ThreadId)
  | pass
  | choose (n : ℕ)

namespace Machine

/-- The interpreter takes the operands of the call from the temporaries of its frames. -/
def enter (s : Machine) (t : ThreadId) (c : Call) : Option Machine :=
  match s.control t with
  | .ret =>
    if s.ready t ∧ ∀ d ∈ c.operands, d.Own t (s.process.flows t).seq then
      some { s with
        control := Function.update s.control t c.task
        call := Function.update s.call t (some c) }
    else none
  | _ => none

/-- What an action does, before the wakers are run. -/
def perform (s : Machine) (a : MachineAction) : Option Machine :=
  match s.config, a with
  | .decoding p, .addMain =>
    if p.nextThreadid = 0 then some (s.spawn p [Value.new 32 0, Process.addr 0]) else none
  | .decoding _, .call t c => s.enter t c
  | .decoding p, .poll t => if s.ready t then s.poll p t (s.control t) else none
  | .decoding _, .pass =>
    if s.Stalled then (s.config.act .pass).map fun config => { s with config } else none
  | .offering _ _, .choose n => (s.config.act (.choose n)).map fun config => { s with config }
  | _, _ => none

/-- After a failure nothing happens any more. -/
def act (s : Machine) (a : MachineAction) : Option Machine :=
  if s.failure = none then (s.perform a).map wake else none

def run (s : Machine) : List MachineAction → Option Machine
  | [] => some s
  | a :: as => (s.act a).bind fun s' => s'.run as

/-- A run that goes on while its actions meet `D`. -/
def runWhile (D : Machine → MachineAction → Prop) [∀ s a, Decidable (D s a)] (s : Machine) :
    List MachineAction → Option Machine
  | [] => some s
  | a :: as => if D s a then (s.act a).bind fun s' => s'.runWhile D as else none

/-- The states of the runs from a memory whose actions meet `D` when they are taken. -/
inductive Reachable (D : Machine → MachineAction → Prop) (memory : Memory) : Machine → Prop
  | new : Reachable D memory (new memory)
  | act {s s' : Machine} {a : MachineAction} : Reachable D memory s → D s a →
      s.act a = some s' → Reachable D memory s'

end Machine
end AtomicSim
