import AtomicSim.Process

namespace AtomicSim

abbrev ModuleId := ℕ

abbrev ThreadLocalKey := ℕ

inductive Symbol where
  | external (name : String)
  | internal (moduleid : ModuleId) (name : String)
  deriving DecidableEq, Repr

inductive SymbolDef where
  | global (address : ℕ)
  | threadLocal (key : ThreadLocalKey)
  deriving DecidableEq, Repr

/-- `forward`, with the last insertion first. -/
structure SymbolTable where
  forward : List (Symbol × SymbolDef)

/-- A name that is nowhere stands for the symbol `explode`; where that is not there either,
the lookup panics. -/
def SymbolTable.lookup (symbols : SymbolTable) (moduleid : Option ModuleId) (name : String) :
    Option SymbolDef :=
  let internal := moduleid.bind fun m => symbols.forward.lookup (.internal m name)
  internal.or ((symbols.forward.lookup (.external name)).or
    (symbols.forward.lookup (.external "explode")))

/-- The process with the table `thread_locals` of each thread. -/
structure Locals where
  process : Process
  threadLocals : ThreadId → List (ThreadLocalKey × ℕ)

/-- `Thread::thread_local` behind `Process::thread`, with the initial values of the keys. A
thread that is not alive, and a key without initial value, panic. -/
def threadLocal (threadLocalInit : ThreadLocalKey → Option (Layout × Value))
    (threadid : ThreadId) (key : ThreadLocalKey) : StateT Locals Option ℕ := fun s =>
  if threadid ∈ s.process.threads then
    match (s.threadLocals threadid).lookup key with
    | some ptr => some (ptr, s)
    | none => do
      let (layout, value) ← threadLocalInit key
      let (ptr, process) ← s.process.threadLocal threadid layout value
      let table := (key, ptr) :: s.threadLocals threadid
      some (ptr, ⟨process, Function.update s.threadLocals threadid table⟩)
  else none

end AtomicSim
