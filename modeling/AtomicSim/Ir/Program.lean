import AtomicSim.Ir.Linking
import AtomicSim.Ir.System

namespace AtomicSim

namespace Ir

namespace Builtin

def callee : Builtin → Callee
  | comp f => .comp f
  | native arity f => .native arity f
  | bomb => .bomb

def func : Builtin → Func
  | comp f => .comp f
  | native arity f => .native arity f
  | bomb => .bomb

end Builtin

def rustAlloc (m : Memory) (args : List Value) : Option (Value × Memory) := do
  let len ← args[0]?
  let align ← args[1]?
  let layout ← Layout.fromBytesU64 len.asU64 align.asU64
  let (ptr, m) ← m.alloc layout
  some (Process.addr ptr, m)

def rustRealloc (args : List Value) : Flow Value := do
  let ptr ← args[0]?
  let oldSize ← args[1]?
  let align ← args[2]?
  let newSize ← args[3]?
  let oldLayout ← Layout.fromBytesU64 oldSize.asU64 align.asU64
  let newLayout ← Layout.fromBytesU64 newSize.asU64 align.asU64
  let new ← Flow.realloc ptr.asU64 oldLayout newLayout
  pure (Process.addr new)

def rustDealloc (args : List Value) : Flow Value := do
  let ptr ← args[0]?
  let size ← args[1]?
  let align ← args[2]?
  let _ ← Layout.fromBytesU64 size.asU64 align.asU64
  Flow.free ptr.asU64
  pure .ofUnit

/-- `builtins` in `native/rust.rs`. -/
def rustBuiltins : List (String × Builtin) :=
  [("__rust_alloc", .comp rustAlloc), ("__rust_realloc", .native 4 rustRealloc),
    ("__rust_dealloc", .native 3 rustDealloc), ("__rust_alloc_zeroed", .bomb)]

theorem static_rustBuiltins : ∀ b ∈ rustBuiltins, b.2.callee.Static := by
  have hrust : (Callee.comp rustAlloc).Static := by
    refine .inr ⟨fun args => args[0]?.bind fun len => args[1]?.bind fun align =>
      Layout.fromBytesU64 len.asU64 align.asU64, fun m args => ?_⟩
    simp only [rustAlloc, Option.bind_eq_bind, Option.bind_assoc, Option.map_eq_bind]
    rfl
  intro b hb
  simp only [rustBuiltins, List.mem_cons, List.not_mem_nil, or_false] at hb
  rcases hb with rfl | rfl | rfl | rfl
  · exact hrust
  · trivial
  · trivial
  · trivial

section Run

variable (tm : TypeMap)

namespace Image

variable (p : Image)

/-- The compiler of a module. Functions are compiled once everything is linked. -/
def compiler (m : ModuleId) : ExprCompiler := ⟨tm, p.symbols, m⟩

def callee (address : ℕ) : Option Callee :=
  (p.reverseLookupFun address).map fun
    | .builtin b => b.callee
    | .lazy m func => .function (p.compiler tm m) func

/-- What is called at an address: `Lazy::force` compiles a function on its first call. -/
def func (address : ℕ) : Option Func := do
  match ← p.reverseLookupFun address with
  | .builtin b => some b.func
  | .lazy m func => (compileFunc (p.compiler tm m) func).map .compiled

/-- The function that `add_main` starts a thread with, and its parameters. -/
def main : Option (ℕ × List Value) := do
  let d ← p.lookupSymbol (.external "main")
  let address ← d.asGlobal
  some (address, [.new 32 0, .new 64 0])

/-- Thread `t` is to start with the function and the parameters `start t`. -/
def system (threadLocals : ThreadId → List (ThreadLocalKey × ℕ)) (n : ℕ)
    (start : ThreadId → ℕ × List Value) : System :=
  .new p.memory threadLocals fun t => control tm (p.func tm) n (start t).1 (start t).2

def program (n : ℕ) (start : ThreadId → ℕ × List Value) (t : ThreadId) : Execution Value :=
  Ssa.call p.definitions.threadLocalInit t (p.callee tm) n (start t).1 (start t).2

/-- What is assumed of the functions of the modules, and of the native ones. -/
structure Runnable (builtins : List (String × Builtin)) (modules : List Module) : Prop where
  wellFormed : ∀ m func, (m, Item.function func) ∈ itemsOf modules →
    Ssa.WellFormed (p.compiler tm m) func.toFunction
  compiles : ∀ m func, (m, Item.function func) ∈ itemsOf modules →
    (compileFunc (p.compiler tm m) func.toFunction).isSome
  static : ∀ m func, (m, Item.function func) ∈ itemsOf modules →
    (Callee.function (p.compiler tm m) func.toFunction).Static
  builtins : ∀ b ∈ builtins, b.2.callee.Static

end Image

variable {tm} {builtins : List (String × Builtin)} {modules : List Module} {p : Image}
  {entries : List Entry}

theorem linked_func (h : p.Implements tm builtins modules entries)
    (hr : p.Runnable tm builtins modules) (address : ℕ) :
    Option.Rel (Linked tm) (p.callee tm address) (p.func tm address) := by
  rw [Image.callee, Image.func]
  cases hf : p.reverseLookupFun address with
  | none => exact .none
  | some f =>
    rcases h.only address f hf with ⟨b, -, rfl⟩ | ⟨m, func, hmem, rfl⟩
    · obtain ⟨name, b⟩ := b
      cases b with
      | comp f => exact .some (.comp f)
      | native arity f => exact .some (.native arity f)
      | bomb => exact .some .bomb
    · obtain ⟨c, hc⟩ := Option.isSome_iff_exists.mp (hr.compiles m func hmem)
      show Option.Rel _ (some _) ((compileFunc _ _).map Func.compiled)
      rw [hc]
      exact .some (.function rfl (hr.wellFormed m func hmem) hc)

theorem static_callee (h : p.Implements tm builtins modules entries)
    (hr : p.Runnable tm builtins modules) (address : ℕ) :
    ∀ callee ∈ p.callee tm address, callee.Static := by
  intro callee hcallee
  obtain ⟨f, hf, rfl⟩ := Option.map_eq_some_iff.mp hcallee
  rcases h.only address f hf with ⟨b, hb, rfl⟩ | ⟨m, func, hmem, rfl⟩
  · exact hr.builtins b hb
  · exact hr.static m func hmem

/-- A linked program with a function `main`, whatever other threads there are: in some turns the
functions of the modules do what the threads do in a run. -/
theorem link_run
    (hroom : 128 + builtins.length * funcRoom + ((itemsOf modules).map fun e =>
      Item.room (.ofModules (modules.map Module.toModule)) e.2).sum < 2 ^ 64)
    (h : link builtins modules = some p)
    (hr : p.Runnable (.ofModules (modules.map Module.toModule)) builtins modules) {m : ModuleId}
    {func : NamedFunction} (hmem : (m, Item.function func) ∈ itemsOf modules)
    (hmain : func.symbol m = some (.external "main")) :
    let tm := TypeMap.ofModules (modules.map Module.toModule)
    ∃ main, p.main = some main ∧
      p.callee tm main.1 = some (.function (p.compiler tm m) func.toFunction) ∧
      ∀ locals n others acts s, locals.memory = p.memory →
        (p.system tm locals.threadLocals n (Function.update others 0 main)).run tm
          p.definitions.threadLocalInit acts = some s → System.Settled s.process →
        (∀ t < s.process.nextThreadid, t ∈ locals.process.threads) →
        ∃ turns r, Effects.run (p.program tm n (Function.update others 0 main), locals) turns =
            some (r, locals.setMemory s.process.memory) ∧
          ∀ t e, (s.task t).ended = some e → (r t).ended = some e := by
  intro tm
  obtain ⟨p₀, hnative, hcompile⟩ := Option.bind_eq_some_iff.mp h
  obtain ⟨entries₀, hn⟩ := natives_of_addNative ((Nat.le_add_right _ _).trans_lt hroom) hnative
  obtain ⟨entries, himpl⟩ := implements_of_compileModules hn hroom hcompile
  obtain ⟨symbol, a, hsymbol, hentry, hf⟩ := himpl.function m func hmem
  obtain rfl := Option.some.inj (hmain.symm.trans hsymbol)
  have hlookup := himpl.symbol _ hentry
  refine ⟨(a, [.new 32 0, .new 64 0]), ?_, ?_, ?_⟩
  · rw [Image.main, hlookup]
    rfl
  · rw [Image.callee, hf]
    rfl
  · intro locals n others acts s hmemory hrun hsettled halive
    have hlinked := linked_func himpl hr
    rw [Image.system, ← hmemory] at hrun
    obtain ⟨code, htracks⟩ := System.tracks_new.run hrun
    exact htracks.exists_turns (fun t => only_control hlinked (static_callee himpl hr) n _ _)
      (fun t => realizes_control hlinked n _ _) hsettled halive

end Run

namespace Boxed

def native (name : String) : Operand :=
  .constantOperand (.globalReference (.name name) (.funcType .voidType [] true))

def local32 (name : String) : Operand := .localOperand (.name name) (.integerType 32)

def box : Operand := .localOperand (.name "box") (.pointerType (.integerType 32) 0)

def four : Operand := .constantOperand (.int 64 4)

/-- Keeps a number on the heap while it counts. -/
def main : NamedFunction where
  name := "main"
  linkage := .external
  parameters := [.name "argc", .name "argv"]
  basicBlocks := [⟨.name "entry", [
    .call (some (native "__rust_alloc")) [four, four] (some (.name "box")),
    .store box (.constantOperand (.int 32 7)) (some ⟨.system, .sequentiallyConsistent⟩),
    .atomicRMW .add (.constantOperand Shared.total) (.constantOperand (.int 32 1)) (.name "old")
      ⟨.system, .sequentiallyConsistent⟩,
    .load box (.name "kept") (some ⟨.system, .acquire⟩),
    .call (some (native "__rust_dealloc")) [box, four, four] none,
    .compute (.binop .add (local32 "old") (local32 "kept") (.name "sum"))],
    .simple (.ret (some (local32 "sum")))⟩]

def modules : List Module :=
  [⟨⟨[]⟩, [main], [], []⟩,
    ⟨⟨[]⟩, [], [Shared.counter], [⟨.name "total",
      .globalReference (.name "counter") (.integerType 32), .external⟩]⟩]

def tm : TypeMap := .ofModules (modules.map Module.toModule)

def image : Image := (link rustBuiltins modules).get (by decide +kernel)

theorem link_eq : link rustBuiltins modules = some image := (Option.some_get _).symm

theorem room : 128 + rustBuiltins.length * funcRoom +
    ((itemsOf modules).map fun e => Item.room tm e.2).sum < 2 ^ 64 := by decide +kernel

theorem runnable : image.Runnable tm rustBuiltins modules := by
  have hmain : ∀ m func, (m, Item.function func) ∈ itemsOf modules → m = 0 ∧ func = main := by
    intro m func hmem
    have hitems : itemsOf modules = [(0, .function main), (1, .globalVar Shared.counter)] := rfl
    simpa [hitems] using hmem
  constructor
  · intro m func hmem
    obtain ⟨rfl, rfl⟩ := hmain m func hmem
    refine ⟨List.cons_ne_nil _ _, List.nodup_singleton _, ?_, ?_⟩
    · intro b hb phi hphi
      cases List.mem_singleton.mp hb
      cases hphi
    · intro b hb condition dests defaultDest hterm
      cases List.mem_singleton.mp hb
      cases hterm
  · intro m func hmem
    obtain ⟨rfl, rfl⟩ := hmain m func hmem
    decide +kernel
  · intro m func hmem
    obtain ⟨rfl, rfl⟩ := hmain m func hmem
    intro block hblock instr hinstr
    cases List.mem_singleton.mp hblock
    change instr ∈ [_, _, _, _, _, _] at hinstr
    simp only [List.mem_cons, List.not_mem_nil, or_false] at hinstr
    rcases hinstr with rfl | rfl | rfl | rfl | rfl | rfl
    · trivial
    · trivial
    · intro cls hcls element len hkind
      cases hcls
      cases hkind
    · trivial
    · trivial
    · trivial
  · exact static_rustBuiltins

end Boxed

/-- Two threads run `main`, and the second counts first. -/
theorem link_run_boxed : ∃ main, Boxed.image.main = some main ∧
    ∃ s : System, ∃ turns r, ∃ locals locals' : Locals,
    Effects.run (Boxed.image.program Boxed.tm 3 (Function.update (fun _ => main) 0 main), locals)
      turns = some (r, locals') ∧ locals.memory = Boxed.image.memory ∧
    locals'.memory = s.process.memory ∧
    (r 0).ended = some (some (.ok (.new 32 13))) ∧ (r 1).ended = some (some (.ok (.new 32 12))) := by
  let start : ℕ × List Value := (1664, [.new 32 0, .new 64 0])
  let locals : Locals := ⟨{ Process.new Boxed.image.memory with threads := [0, 1] }, fun _ => []⟩
  let polls (n : ℕ) (t : ThreadId) : List SystemAction := .replicate n (.poll t)
  let acts : List SystemAction := [.addThread, .addThread] ++ polls 8 0 ++ polls 8 1 ++
    [.pass, .pass, .choose 1, .pass, .choose 1, .pass, .choose 1] ++ polls 4 1 ++ [.pass] ++
    polls 6 1 ++ [.pass] ++ polls 1 1 ++
    [.pass, .choose 0, .pass, .choose 0, .pass, .choose 0] ++ polls 4 0 ++ [.pass] ++
    polls 6 0 ++ [.pass] ++ polls 1 0
  have hmain : Boxed.image.main = some start := by decide +kernel
  have hrun : ∃ s ∈ (Boxed.image.system Boxed.tm locals.threadLocals 3
      (Function.update (fun _ => start) 0 start)).run Boxed.tm
        Boxed.image.definitions.threadLocalInit acts,
      s.process.nextThreadid = 2 ∧ (∀ e ∈ s.process.log, e.id ≠ none) ∧
      (∀ t < 2, (s.process.unresolved t).isEmpty ∧ ∀ c ∈ (s.process.flows t).decoded,
        (c.isMemory → c.atomicity.isAcquire) ∧
          (c.isMemory ∨ c.Constant ∨ s.process.LeavesHeap c)) ∧
      (s.task 0).ended = some (some (.ok (.new 32 13))) ∧
      (s.task 1).ended = some (some (.ok (.new 32 12))) := by decide +kernel
  obtain ⟨s, hs, hnext, hl, hall, h0, h1⟩ := hrun
  obtain ⟨code, htracks⟩ := System.tracks_new.run hs
  have halive : ∀ t < s.process.nextThreadid, t ∈ locals.process.threads := by
    rw [hnext]
    decide
  have hmem : (0, Item.function Boxed.main) ∈ itemsOf Boxed.modules := List.mem_cons_self
  obtain ⟨main, hm, -, hturns⟩ := link_run Boxed.room Boxed.link_eq Boxed.runnable hmem rfl
  obtain rfl := Option.some.inj (hm.symm.trans hmain)
  have hmemory : locals.memory = Boxed.image.memory := rfl
  obtain ⟨turns, r, hr, hended⟩ := hturns locals 3 (fun _ => start) acts s hmemory hs
    (htracks.settled hnext hl hall) halive
  exact ⟨start, hmain, s, turns, r, locals, _, hr, hmemory, Locals.memory_setMemory _ _,
    hended 0 _ h0, hended 1 _ h1⟩

end Ir
end AtomicSim
