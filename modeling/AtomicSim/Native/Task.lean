import AtomicSim.Flow

namespace AtomicSim

/-- The assertions and unwraps that can fail in a task. -/
inductive Failure where
  | mutexLockAcquire (m : ℕ)
  | mutexLockRelease (m : ℕ)
  | unlock (m : ℕ)
  | noThread (threadid : ThreadId)
  | argumentMismatch (name : String)
  | unwrap
  deriving DecidableEq, Repr

/-- The rest of a task, as the operations it performs between which others may run. -/
inductive Task where
  /-- Back in the interpreter, which decodes the next instruction. -/
  | ret
  | done
  | panic (failure : Failure)
  /-- `thunk_impl(..).await`. -/
  | thunk (args : ThunkArgs) (k : Thunk → Task)
  /-- A thunk is awaited. -/
  | await (d : Thunk) (k : Value → Task)
  | threadLocal (layout : Layout) (value : Value) (k : ℕ → Task)
  | lock (m : ℕ) (k : Task)
  | tryLock (m : ℕ) (k : Bool → Task)
  | unlock (m : ℕ) (k : Task)
  | wait (c m : ℕ) (k : Task)
  /-- What is left of `lock` and `wait` once they have made their channel: `receiver.await`. -/
  | receive (k : Task)
  | notify (c : ℕ) (k : Task)
  | notifyAll (c : ℕ) (k : Task)
  | addThread (params : List Value) (k : ThreadId → Task)
  /-- `process.thread(threadid).unwrap()`. -/
  | thread (threadid : ThreadId) (k : Task)
  /-- `join_handle.clone().await` on a thread that was looked up. -/
  | join (threadid : ThreadId) (k : ℕ → Task)
  /-- `join_signal.send`, with which the task ends. -/
  | send (value : ℕ)

instance : DecidablePred (· = Task.ret)
  | .ret => isTrue rfl
  | .done | .panic _ | .thunk _ _ | .await _ _ | .threadLocal _ _ _ | .lock _ _ | .tryLock _ _
  | .unlock _ _ | .wait _ _ _ | .receive _ | .notify _ _ | .notifyAll _ _ | .addThread _ _
  | .thread _ _ | .join _ _ | .send _ => isFalse nofun

/-- The thunk that the task polls next. -/
def Task.polls : Task → Option Thunk
  | await d _ => some d
  | _ => none

/-- The task is in `thunk_impl`. -/
def Task.decodes : Task → Bool
  | thunk _ _ => true
  | _ => false

/-- Everything a thunk reads. -/
def ThunkArgs.operands (a : ThunkArgs) : List Thunk := a.deps ++ a.address.toList.map Prod.fst

/-- `DataFlow::constant`. -/
def DataFlow.constant (v : Value) : ThunkArgs := DataFlow.thunk [] fun _ => some v

/-- `Process::addr`, with pointers of 64 bits. -/
def Process.addr (x : ℕ) : Value := Value.new 64 x

theorem Value.asU64_addr {x : ℕ} (hx : x < 2 ^ 64) : (Process.addr x).asU64 = x := by
  rw [Value.asU64, Process.addr, Value.asU128_new (by decide), Nat.mod_mod, Nat.mod_eq_of_lt hx]

namespace FlowCtx

def constant (v : Value) (k : Thunk → Task) : Task := .thunk (DataFlow.constant v) k

def store (address : ℕ) (value : Value) (k : Task) : Task :=
  constant (Process.addr address) fun address =>
  constant value fun v =>
  .thunk (DataFlow.store address (.fromBytes value.imp.length 1) v .none) fun d =>
  .await d fun _ => k

/-- The two fields of the output of `cmpxchg_u64`. -/
def cmpxchgOutputU64 (output : Value) : Option (ℕ × Bool) := do
  let old ← cmpxchgExtract i64 output 0
  let old ← old.unwrapInt 64
  let changed ← cmpxchgExtract i64 output 1
  let changed ← changed.unwrapBool
  some (old, changed)

def cmpxchgU64 (address expected replacement : ℕ) (success failure : Ordering)
    (k : ℕ × Bool → Task) : Task :=
  constant (Process.addr address) fun address =>
  constant (Value.new 64 expected) fun expected =>
  constant (Value.new 64 replacement) fun replacement =>
  .thunk (cmpxchg i64 address expected replacement success failure) fun d =>
  .await d fun output =>
  match cmpxchgOutputU64 output with
  | some result => k result
  | none => .panic .unwrap

end FlowCtx

end AtomicSim
