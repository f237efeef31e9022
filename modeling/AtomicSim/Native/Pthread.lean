import AtomicSim.Native.Inputs
import AtomicSim.Util.Mutex

namespace AtomicSim

def unlocked : ℕ := 0x32AAABA7

def locked : ℕ := 1

def mutexLockAcquire (address : ℕ) (k : Task) : Task :=
  FlowCtx.cmpxchgU64 address unlocked locked .acquire .relaxed fun result =>
  if (unlocked, true) = result then k else .panic (.mutexLockAcquire address)

def mutexLockRelease (address : ℕ) (k : Task) : Task :=
  FlowCtx.cmpxchgU64 address locked unlocked .release .relaxed fun result =>
  if (locked, true) = result then k else .panic (.mutexLockRelease address)

/-- The value that a native function returns becomes a thunk. -/
def nativeReturn (v : ℕ) : Task := FlowCtx.constant (Value.new 32 v) fun _ => .ret

def pthreadMutexTrylock (m : ℕ) : Task :=
  .tryLock m fun b =>
  if b then mutexLockAcquire m (nativeReturn 0) else nativeReturn 1

def pthreadMutexLock (m : ℕ) : Task :=
  .lock m <| mutexLockAcquire m (nativeReturn 0)

def pthreadMutexUnlock (m : ℕ) : Task :=
  mutexLockRelease m <| .unlock m (nativeReturn 0)

def pthreadMutexInit (m : ℕ) : Task :=
  FlowCtx.store m (Value.new 64 unlocked) (nativeReturn 0)

def pthreadCondWait (cond mutex : ℕ) : Task :=
  mutexLockRelease mutex <| .wait cond mutex <| mutexLockAcquire mutex (nativeReturn 0)

def pthreadCondBroadcast (c : ℕ) : Task := .notifyAll c (nativeReturn 0)

def pthreadCondSignal (c : ℕ) : Task := .notify c (nativeReturn 0)

def pthreadCreate (thread : ℕ) (arg : Value) : Task :=
  .addThread [arg] fun threadid =>
  FlowCtx.store thread (Value.new 64 threadid) (nativeReturn 0)

def pthreadJoin (threadid : ThreadId) (retval : ℕ) : Task :=
  .thread threadid <| .join threadid fun result =>
  if retval ≠ 0 then FlowCtx.store retval (Process.addr result) (nativeReturn 0)
  else nativeReturn 0

/-- `native_fn!` on what its operands read as. -/
def nativeBody {α : Type} (name : String) (f : α → Task) : Option α → Task
  | none => .panic (.argumentMismatch name)
  | some argvs => f argvs

/-- A call of what `native_fn!` has made of `f`: the callee is awaited and found to be this
function, and then the function awaits its operands. -/
def nativeCall {α : Type} (name : String) (inputs : NativeInputs α) (f : α → Task)
    (callee : Thunk) (args : List Thunk) : Task :=
  .await callee fun _ => fromThunksImpl inputs args (nativeBody name f)

theorem nativeCall_induction {α : Type} {P : Task → Prop} {name : String} {inputs : NativeInputs α}
    {f : α → Task} {callee : Thunk} {args : List Thunk} (hunwrap : P (.panic .unwrap))
    (hmismatch : P (.panic (.argumentMismatch name))) (hf : ∀ a, P (f a))
    (hawait : ∀ d ∈ callee :: args, ∀ k : Value → Task, (∀ v, P (k v)) → P (.await d k)) :
    P (nativeCall name inputs f callee args) := by
  obtain ⟨hcallee, hargs⟩ := List.forall_mem_cons.mp hawait
  refine hcallee _ fun _ => fromThunksLoop_induction hunwrap (fun o => ?_) hargs []
  cases o with
  | none => exact hmismatch
  | some a => exact hf a

/-- What the interpreter does next: a native call, an instruction that decodes a thunk, one
that awaits a value, the first use of a thread-local, or the return from the start routine.
A `join` awaits its callee and its operands. The other native calls start behind that, with the
values of their operands: what they await is left to `await`. -/
inductive Call where
  | mutexTrylock (m : ℕ)
  | mutexLock (m : ℕ)
  | mutexUnlock (m : ℕ)
  | mutexInit (m : ℕ)
  | condWait (cond mutex : ℕ)
  | condBroadcast (c : ℕ)
  | condSignal (c : ℕ)
  | create (thread : ℕ) (arg : Value)
  | join (callee : Thunk) (args : List Thunk)
  | decode (args : ThunkArgs)
  | await (d : Thunk)
  | threadLocal (layout : Layout) (value : Value)
  | exit (d : Thunk)

namespace Call

def task : Call → Task
  | mutexTrylock m => pthreadMutexTrylock m
  | mutexLock m => pthreadMutexLock m
  | mutexUnlock m => pthreadMutexUnlock m
  | mutexInit m => pthreadMutexInit m
  | condWait cond mutex => pthreadCondWait cond mutex
  | condBroadcast c => pthreadCondBroadcast c
  | condSignal c => pthreadCondSignal c
  | create thread arg => pthreadCreate thread arg
  | join callee args =>
    nativeCall "pthread_join" (.two .u64 .addr) (fun (thread, retval) => pthreadJoin thread retval)
      callee args
  | decode args => .thunk args fun _ => .ret
  | await d => .await d fun _ => .ret
  | threadLocal layout value => .threadLocal layout value fun _ => .ret
  | exit d => .await d fun v => .send v.asU64

/-- The thunks that an instruction takes from the frame. -/
def operands : Call → List Thunk
  | join callee args => callee :: args
  | decode args => args.operands
  | await d | exit d => [d]
  | _ => []

end Call

/-- The task of a new thread makes thunks of its parameters and enters the interpreter. -/
def Task.start (params : List Value) : Task :=
  params.foldr (fun v k => FlowCtx.constant v fun _ => k) .ret

end AtomicSim
