import AtomicSim.Memory

namespace AtomicSim

inductive Ordering where
  | none
  | relaxed
  | acquire
  | release
  | acqRel
  | seqCst
  deriving DecidableEq, Repr

namespace Ordering

def union : Ordering → Ordering → Ordering
  | seqCst, _ | _, seqCst => seqCst
  | acqRel, _ | _, acqRel | acquire, release | release, acquire => acqRel
  | acquire, _ | _, acquire => acquire
  | release, _ | _, release => release
  | relaxed, _ | _, relaxed => relaxed
  | none, none => none

/-- The orderings whose arm of `step_pure` leaves the loop. -/
def isAcquire : Ordering → Bool
  | acquire | acqRel | seqCst => true
  | none | relaxed | release => false

end Ordering

abbrev ThreadId := ℕ

/-- A handle to a thunk: a constant, which is ready, or a thunk of a thread. -/
inductive Thunk where
  | constant (value : Value)
  | cell (threadid : ThreadId) (seq : ℕ)
  deriving DecidableEq, Repr

/-- A decoded thunk. Its closure sees the memory and the values of `deps`; `none` is a panic. -/
structure ThunkInner where
  threadid : ThreadId
  seq : ℕ
  deps : List Thunk
  address : Option (Thunk × Layout)
  atomicity : Ordering
  compute : Memory → List Value → Option (Value × Memory)

/-- A `res` line of the trace, with the memory around it, or a store made while decoding. -/
inductive Event where
  | res (threadid : ThreadId) (seq : ℕ) (value : Value) (before after : Memory)
  | store (before after : Memory)

namespace Event

def id : Event → Option (ThreadId × ℕ)
  | res threadid seq _ _ _ => some (threadid, seq)
  | store _ _ => none

def before : Event → Memory
  | res _ _ _ before _ | store before _ => before

def after : Event → Memory
  | res _ _ _ _ after | store _ after => after

end Event

/-- The pipeline of a thread: every thunk decoded so far, those still in `thunks`, and the
values of the resolved ones. -/
structure DataFlow where
  decoded : List ThunkInner
  thunks : List ThunkInner
  value : ℕ → Option Value
  joined : Bool

namespace DataFlow

def new : DataFlow := ⟨[], [], fun _ => none, false⟩

def seq (f : DataFlow) : ℕ := f.decoded.length

def len (f : DataFlow) : ℕ := f.thunks.length

/-- `this.thunks.retain(|t| t.try_get().is_none())`. -/
def retain (f : DataFlow) : DataFlow :=
  { f with thunks := f.thunks.filter fun t => (f.value t.seq).isNone }

def push (f : DataFlow) (t : ThunkInner) : DataFlow :=
  { f with decoded := f.decoded ++ [t], thunks := f.thunks ++ [t] }

def resolve (f : DataFlow) (seq : ℕ) (value : Value) : DataFlow :=
  { f with value := Function.update f.value seq (some value) }

/-- `alive`, with the join signal of the thread's task. -/
def alive (f : DataFlow) : Bool := !f.joined || 0 < f.len

end DataFlow

/-- The live threads, their pipelines and the memory they share; `log` is the trace. -/
structure Process where
  memory : Memory
  flows : ThreadId → DataFlow
  threads : List ThreadId
  nextThreadid : ℕ
  log : List Event

namespace Process

def new (memory : Memory) : Process := ⟨memory, fun _ => DataFlow.new, [], 0, []⟩

def value (p : Process) (threadid : ThreadId) (seq : ℕ) : Option Value :=
  (p.flows threadid).value seq

def modify (p : Process) (threadid : ThreadId) (f : DataFlow → DataFlow) : Process :=
  { p with flows := Function.update p.flows threadid (f (p.flows threadid)) }

end Process

namespace Thunk

def tryGet (p : Process) : Thunk → Option Value
  | constant value => some value
  | cell threadid seq => p.value threadid seq

/-- `Debug::fmt`, which prints the value of a ready thunk. -/
def debug (p : Process) : Thunk → Option String
  | constant value => value.debug
  | cell threadid seq =>
    match p.value threadid seq with
    | none => some (toString threadid ++ "#" ++ toString seq)
    | some value => value.debug

end Thunk

namespace ThunkInner

def isMemory (t : ThunkInner) : Bool := t.address.isSome

/-- A memory access that only `Process::step` may resolve. -/
def isAtomic (t : ThunkInner) : Bool := t.isMemory && t.atomicity != .none

def range (p : Process) (t : ThunkInner) : Option (Range ℕ) :=
  match t.address with
  | none => none
  | some (address, layout) =>
    (address.tryGet p).map fun a => ⟨a.asU64, a.asU64 + layout.bytes⟩

end ThunkInner

namespace Process

def resolve (p : Process) (t : ThunkInner) (value : Value) (memory : Memory) : Process :=
  { p.modify t.threadid fun f => f.resolve t.seq value with
    memory
    log := p.log ++ [.res t.threadid t.seq value p.memory memory] }

end Process

/-- `Thunk::step`. Printing the value is part of it, as tracing is on. -/
def ThunkInner.step (t : ThunkInner) (p : Process) : Option (Process × Bool) :=
  match t.deps.mapM (Thunk.tryGet p) with
  | none => some (p, false)
  | some args =>
    match p.value t.threadid t.seq with
    -- a second step finds the thunk ready
    | some _ => some (p, false)
    | none => do
      let (value, memory) ← t.compute p.memory args
      let _ ← value.debug
      some (p.resolve t value memory, true)

namespace Process

def pipelineSize : ℕ := 1000

/-- `DataFlow::thunk_impl` when the pipeline has room; the `dec` line prints the operands. -/
def thunkImpl (p : Process) (threadid : ThreadId) (address : Option (Thunk × Layout))
    (atomicity : Ordering) (deps : List Thunk)
    (compute : Memory → List Value → Option (Value × Memory)) : Option (Thunk × Process) :=
  let flow := p.flows threadid
  if threadid ∈ p.threads ∧ ¬ flow.joined ∧ flow.len < pipelineSize ∧
      (∀ d ∈ deps, (d.debug p).isSome) ∧ ∀ a ∈ address, (a.1.debug p).isSome then
    let thunk : ThunkInner := ⟨threadid, flow.seq, deps, address, atomicity, compute⟩
    some (.cell threadid flow.seq, p.modify threadid fun f => f.push thunk)
  else none

end Process

/-- The variables of the loop of `step_pure`, and the process it works on. -/
structure Scan where
  process : Process
  pending : RangeMap ℕ Unit
  resolvable : List ThunkInner
  progress : Bool

namespace Scan

/-- `progress |= thunk.step()`. -/
def step (s : Scan) (t : ThunkInner) : Option Scan := do
  let (process, progress) ← t.step s.process
  some { s with process, progress := s.progress || progress }

def push (s : Scan) (t : ThunkInner) : Scan := { s with resolvable := s.resolvable ++ [t] }

/-- The body of the loop; the flag is set where it says `break`. -/
def visit (s : Scan) (t : ThunkInner) : Option (Scan × Bool) :=
  match t.address with
  | none => (s.step t).map fun s => (s, false)
  | some (address, layout) =>
    match address.tryGet s.process with
    -- an unknown address may alias any later access
    | none => some (s, true)
    | some a => do
      let stop ← addU64 a.asU64 layout.bytes
      let range : Range ℕ := ⟨a.asU64, stop⟩
      if (s.pending.range range).head?.isSome then
        -- `continue`: neither the range nor the ordering of `t` is looked at further
        some (s, false)
      else
        let s := { s with pending := s.pending.insert range () }
        match t.atomicity with
        | .none => (s.step t).map fun s => (s, false)
        | .relaxed => some (s.push t, false)
        | .release => some (if s.resolvable.isEmpty then s.push t else s, false)
        | .acquire | .acqRel | .seqCst => some (s.push t, true)

def loop : List ThunkInner → Scan → Option Scan
  | [], s => some s
  | t :: ts, s =>
    match s.visit t with
    | none => none
    | some (s', true) => some s'
    | some (s', false) => loop ts s'

/-- The thunks the loop reaches, each with the process as it is then. -/
def visits : List ThunkInner → Scan → List (Process × ThunkInner)
  | [], _ => []
  | t :: ts, s =>
    (s.process, t) ::
      match s.visit t with
      | some (s', false) => visits ts s'
      | _ => []

end Scan

namespace Process

/-- The variables of `step_pure` when its loop starts. -/
def scan (p : Process) (threadid : ThreadId) (resolvable : List ThunkInner) : Scan :=
  ⟨p.modify threadid DataFlow.retain, RangeMap.new, resolvable, false⟩

def stepPure (p : Process) (threadid : ThreadId) (resolvable : List ThunkInner) :
    Option (Process × List ThunkInner × Bool) := do
  let s := p.scan threadid resolvable
  let s ← s.loop (s.process.flows threadid).thunks
  some (s.process, s.resolvable, s.progress)

end Process
end AtomicSim
