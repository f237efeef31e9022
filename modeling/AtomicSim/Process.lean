import AtomicSim.Data

namespace AtomicSim

namespace Process

/-- `add_thread`: thread ids grow, so the new one is last. -/
def addThread (p : Process) : Process :=
  { p with
    flows := Function.update p.flows p.nextThreadid DataFlow.new
    threads := p.threads ++ [p.nextThreadid]
    nextThreadid := p.nextThreadid + 1 }

/-- The task of the thread sends its join signal and ends. -/
def join (p : Process) (threadid : ThreadId) : Option Process :=
  if threadid ∈ p.threads then some (p.modify threadid fun f => { f with joined := true })
  else none

/-- The first use of a key by `thread_local`; later uses find the address in the table. -/
def threadLocal (p : Process) (threadid : ThreadId) (layout : Layout) (value : Value) :
    Option (ℕ × Process) :=
  if threadid ∈ p.threads then do
    let (ptr, memory) ← p.memory.alloc layout
    let memory ← memory.storeImpl ptr value
    some (ptr, { p with memory, log := p.log ++ [.store p.memory memory] })
  else none

def reapThreads (p : Process) : Process :=
  { p with threads := p.threads.filter fun t => (p.flows t).alive }

/-- The loop over the threads in `step`. -/
def passFrom : List ThreadId → Process × List ThunkInner × Bool →
    Option (Process × List ThunkInner × Bool)
  | [], acc => some acc
  | t :: ts, (p, resolvable, progress) =>
    match p.stepPure t resolvable with
    | none => none
    | some (p', resolvable', b) => passFrom ts (p', resolvable', progress || b)

/-- One turn of the loop of `step`, after decoding. -/
def pass (p : Process) : Option (Process × List ThunkInner × Bool) :=
  (passFrom p.threads (p, [], false)).map fun (p, resolvable, progress) =>
    (p.reapThreads, resolvable, progress)

def visitsFrom : List ThreadId → Process × List ThunkInner → List (Process × ThunkInner)
  | [], _ => []
  | t :: ts, (p, resolvable) =>
    (p.scan t resolvable).visits ((p.scan t resolvable).process.flows t).thunks ++
      match p.stepPure t resolvable with
      | none => []
      | some (p', resolvable', _) => visitsFrom ts (p', resolvable')

def visits (p : Process) : List (Process × ThunkInner) := visitsFrom p.threads (p, [])

end Process

/-- What the tasks can do to the process while the pool runs. -/
inductive Decode where
  | thunkImpl (threadid : ThreadId) (address : Option (Thunk × Layout)) (atomicity : Ordering)
      (deps : List Thunk) (compute : Memory → List Value → Option (Value × Memory))
  | addThread
  | join (threadid : ThreadId)
  | threadLocal (threadid : ThreadId) (layout : Layout) (value : Value)

def Process.decode (p : Process) : Decode → Option Process
  | .thunkImpl threadid address atomicity deps compute =>
    (p.thunkImpl threadid address atomicity deps compute).map Prod.snd
  | .addThread => some p.addThread
  | .join threadid => p.join threadid
  | .threadLocal threadid layout value => (p.threadLocal threadid layout value).map Prod.snd

/-- `Process::step` at its two points of choice: what the tasks decode, and which of the
offered thunks is resolved. -/
inductive Config where
  | decoding (p : Process)
  | offering (p : Process) (resolvable : List ThunkInner)

inductive Action where
  | decode (d : Decode)
  | pass
  | choose (n : ℕ)

namespace Config

def process : Config → Process
  | decoding p | offering p _ => p

/-- `none` where the action is not enabled or the code panics, as when the chosen thunk's
`step` returns false. -/
def act : Config → Action → Option Config
  | decoding p, .decode d => (p.decode d).map decoding
  | decoding p, .pass =>
    -- a pass that makes progress drops what it offered and decodes again
    p.pass.map fun (p', resolvable, progress) =>
      if progress then decoding p' else offering p' resolvable
  | offering p resolvable, .choose n =>
    match resolvable[n]? with
    | none => none
    | some t =>
      match t.step p with
      | some (p', true) => some (decoding p')
      | _ => none
  | _, _ => none

/-- The thunks an action reaches, each with the process as it is then. -/
def visits : Config → Action → List (Process × ThunkInner)
  | decoding p, .pass => p.visits
  | _, _ => []

def run (c : Config) : List Action → Option Config
  | [] => some c
  | a :: as => (c.act a).bind fun c' => c'.run as

theorem run_append {c c' : Config} {l l' : List Action} (h : c.run l = some c') :
    c.run (l ++ l') = c'.run l' := by
  induction l generalizing c with
  | nil =>
    cases h
    rfl
  | cons a l ih =>
    obtain ⟨d, hd, h⟩ := Option.bind_eq_some_iff.mp h
    rw [List.cons_append, run, hd, Option.bind_some]
    exact ih h

def runVisits (c : Config) : List Action → List (Process × ThunkInner)
  | [] => []
  | a :: as => c.visits a ++ ((c.act a).map fun c' => c'.runVisits as).getD []

end Config

/-- The configurations of the runs from a fresh process in which every thunk that a pass
reaches meets `G` when it is reached. -/
inductive Reachable (G : Process → ThunkInner → Prop) : Config → Prop
  | new (memory : Memory) : Reachable G (.decoding (.new memory))
  | act {c c' : Config} {a : Action} : Reachable G c → c.act a = some c' →
      (∀ v ∈ c.visits a, G v.1 v.2) → Reachable G c'

theorem Reachable.run {G : Process → ThunkInner → Prop} {c c' : Config} {as : List Action}
    (h : Reachable G c) (hr : c.run as = some c')
    (hG : ∀ v ∈ c.runVisits as, G v.1 v.2) : Reachable G c' := by
  induction as generalizing c with
  | nil =>
    rw [Config.run, Option.some.injEq] at hr
    exact hr ▸ h
  | cons a as ih =>
    obtain ⟨d, hd, hr⟩ := Option.bind_eq_some_iff.mp hr
    rw [Config.runVisits, hd] at hG
    refine ih (h.act hd fun v hv => hG v (List.mem_append_left _ hv)) hr fun v hv => ?_
    exact hG v (List.mem_append_right _ hv)

end AtomicSim
