import AtomicSim.Compile.Aliases
import AtomicSim.Compile.Table
import AtomicSim.Compile.Typing
import AtomicSim.Ir.Interp
import AtomicSim.Lib.Loop
import AtomicSim.ThreadLocals

namespace AtomicSim

namespace Ir

inductive ThreadLocalMode where
  | notThreadLocal
  | generalDynamic
  | localDynamic
  | initialExec
  | localExec
  deriving DecidableEq, Repr

/-- A function with the name and the linkage that its module gives it. -/
structure NamedFunction extends Function where
  name : String
  linkage : Linkage

structure GlobalVariable where
  name : Name
  linkage : Linkage
  ty : TypeRef
  threadLocalMode : ThreadLocalMode
  initializer : Option Constant
  alignment : UInt32

structure Module extends AtomicSim.Module where
  functions : List NamedFunction
  globalVars : List GlobalVariable
  globalAliases : List GlobalAlias

/-- A native function that is registered under its name. -/
inductive Builtin where
  | comp (f : Memory → List Value → Option (Value × Memory))
  | native (arity : ℕ) (f : List Value → Flow Value)
  | bomb

/-- A function of a module is compiled when it is first called. -/
inductive FuncDefinition where
  | builtin (b : Builtin)
  | lazy (moduleid : ModuleId) (func : Function)

/-- What linking fills in. The tables have the last insertion first. -/
structure Image where
  memory : Memory
  symbols : SymbolTable
  reverse : List (ℕ × Symbol)
  nextThreadLocalKey : ThreadLocalKey
  functions : List (ℕ × FuncDefinition)
  definitions : Definitions

end Ir

/-- `SymbolDef::global`. -/
def SymbolDef.asGlobal : SymbolDef → Option ℕ
  | global address => some address
  | threadLocal _ => none

theorem SymbolDef.eq_of_asGlobal {d : SymbolDef} {address : ℕ} (h : d.asGlobal = some address) :
    d = .global address := by
  cases d with
  | global a => exact congrArg SymbolDef.global (Option.some.inj h)
  | threadLocal key => cases h

namespace Ir

namespace Image

/-- `Process::new`. -/
def new : Image := ⟨.new, ⟨[]⟩, [], 0, [], .new⟩

variable (p : Image)

/-- A symbol or an address that is there already panics. -/
def addGlobal (name : Symbol) (address : ℕ) : Option (SymbolDef × Image) :=
  if p.symbols.forward.lookup name = none ∧ p.reverse.lookup address = none then
    some (.global address, { p with
      symbols := ⟨(name, .global address) :: p.symbols.forward⟩
      reverse := (address, name) :: p.reverse })
  else none

def addThreadLocal (name : Symbol) : Option (SymbolDef × Image) :=
  let key := p.nextThreadLocalKey
  if p.symbols.forward.lookup name = none then
    some (.threadLocal key, { p with
      symbols := ⟨(name, .threadLocal key) :: p.symbols.forward⟩
      nextThreadLocalKey := key + 1 })
  else none

def addSymbol (name : Symbol) (mode : ThreadLocalMode) (layout : Layout) :
    Option (SymbolDef × Image) :=
  match mode with
  | .notThreadLocal => do
    let (address, memory) ← p.memory.alloc layout
    addGlobal { p with memory } name address
  | _ => p.addThreadLocal name

def addFunc (address : ℕ) (f : FuncDefinition) : Option Image :=
  if p.functions.lookup address = none then
    some { p with functions := (address, f) :: p.functions }
  else none

/-- `native::builtins()` is a parameter. -/
def addNative (builtins : List (String × Builtin)) : Option Image :=
  builtins.foldlM (fun p b => do
    let (d, p) ← p.addSymbol (.external b.1) .notThreadLocal .ofFunc
    let address ← d.asGlobal
    p.addFunc address (.builtin b.2)) p

def reverseLookup (address : ℕ) : Option Symbol := p.reverse.lookup address

def lookupSymbol (symbol : Symbol) : Option SymbolDef := p.symbols.forward.lookup symbol

def reverseLookupFun (address : ℕ) : Option FuncDefinition := p.functions.lookup address

end Image

/-- What the first loop of `compile_modules` comes to in a module. -/
inductive Item where
  | function (func : NamedFunction)
  | globalVar (g : GlobalVariable)

/-- The functions and the variables of all modules in the order in which `compile_modules` comes
to them. -/
def itemsOf (modules : List Module) : List (ModuleId × Item) :=
  modules.zipIdx.flatMap fun e =>
    (e.1.functions.map Item.function ++ e.1.globalVars.map Item.globalVar).map fun i => (e.2, i)

structure FuncInit where
  moduleid : ModuleId
  loc : ℕ
  func : NamedFunction

structure GlobalInit where
  moduleid : ModuleId
  definition : SymbolDef
  layout : Layout
  g : GlobalVariable

structure Linker where
  image : Image
  funcInits : List FuncInit
  globalInits : List GlobalInit

section Compile

variable (tm : TypeMap)

def NamedFunction.symbol (m : ModuleId) (func : NamedFunction) : Option Symbol :=
  func.linkage.symbol m func.name

namespace GlobalVariable

def symbol (m : ModuleId) (g : GlobalVariable) : Option Symbol := do
  let name ← strOfName g.name
  g.linkage.symbol m name

def layout (g : GlobalVariable) : Option Layout := do
  let cls ← tm.get g.ty
  let element ← cls.element tm 0
  element.cls.layout.alignToBits (8 * g.alignment.toNat)

end GlobalVariable

/-- The body of the first loop. A variable without an initializer is another module's. -/
def addItem (s : Linker) (e : ModuleId × Item) : Option Linker :=
  match e.2 with
  | .function func => do
    let symbol ← func.symbol e.1
    let (d, image) ← s.image.addSymbol symbol .notThreadLocal .ofFunc
    let loc ← d.asGlobal
    some { s with image, funcInits := s.funcInits ++ [⟨e.1, loc, func⟩] }
  | .globalVar g =>
    match g.initializer with
    | none => some s
    | some _ => do
      let symbol ← g.symbol e.1
      let layout ← g.layout tm
      let (d, image) ← s.image.addSymbol symbol g.threadLocalMode layout
      some { s with image, globalInits := s.globalInits ++ [⟨e.1, d, layout, g⟩] }

/-- The body of the loop over `func_inits`. -/
def addFuncInit (p : Image) (i : FuncInit) : Option Image :=
  p.addFunc i.loc (.lazy i.moduleid i.func.toFunction)

/-- The value of an initializer, which has to fit in the layout of the variable. -/
def initialValue (symbols : SymbolTable) (m : ModuleId) (layout : Layout) :
    Option Constant → Option Value
  | none => some (.zero layout.bits)
  | some init => do
    let init ← (ExprCompiler.mk tm symbols m).compileConst init
    let (c, value) ← init.asConst
    if c.layout.bits = layout.bits ∧ c.layout.bitAlign ≤ layout.bitAlign then some value else none

/-- The body of the loop over `global_inits`. -/
def addGlobalInit (p : Image) (i : GlobalInit) : Option Image := do
  let value ← initialValue tm p.symbols i.moduleid i.layout i.g.initializer
  match i.definition with
  | .global addr => do
    let memory ← p.memory.storeImpl addr value
    some { p with memory }
  | .threadLocal key => do
    let definitions ← p.definitions.addThreadLocalInit key i.layout value
    some { p with definitions }

/-- `compile_modules`, where the table has the types of all modules. -/
def compileModules (modules : List Module) (p : Image) : Option Image := do
  let s ← (itemsOf modules).foldlM (addItem tm) ⟨p, [], []⟩
  let symbols ← compileAliases tm s.image.symbols (modules.map Module.globalAliases)
  let p ← s.funcInits.foldlM addFuncInit { s.image with symbols }
  s.globalInits.foldlM (addGlobalInit tm) p

end Compile

/-- What `main` does before the program is run. -/
def link (builtins : List (String × Builtin)) (modules : List Module) : Option Image := do
  let p ← Image.new.addNative builtins
  compileModules (.ofModules (modules.map Module.toModule)) modules p

/-- A symbol with what it is defined as, and the layout of what lies there. -/
structure Entry where
  symbol : Symbol
  definition : SymbolDef
  layout : Layout

namespace Entry

def block (e : Entry) : Option (ℕ × Layout) := e.definition.asGlobal.map fun a => (a, e.layout)

theorem block_eq_some {e : Entry} {b : ℕ × Layout} :
    e.block = some b ↔ e.definition = .global b.1 ∧ e.layout = b.2 := by
  obtain ⟨a, l⟩ := b
  unfold block
  cases hd : e.definition with
  | global a' => simp [SymbolDef.asGlobal]
  | threadLocal key => simp [SymbolDef.asGlobal]

end Entry

/-- How far at most a new symbol moves the bump pointer. -/
def ThreadLocalMode.room (mode : ThreadLocalMode) (layout : Layout) : ℕ :=
  if mode = .notThreadLocal then layout.bytes + layout.byteAlign + heapGuard else 0

theorem alloc_room {m n : Memory} {layout : Layout} {ptr : ℕ} (hm : 0 < m.inner.next)
    (hl : isPowerOfTwo layout.byteAlign)
    (hroom : m.inner.next + ThreadLocalMode.notThreadLocal.room layout < 2 ^ 64)
    (h : m.alloc layout = some (ptr, n)) :
    m.inner.next ≤ ptr ∧ layout.byteAlign ∣ ptr ∧
      ptr + layout.bytes + heapGuard = n.inner.next ∧
      n.inner.next ≤ m.inner.next + ThreadLocalMode.notThreadLocal.room layout := by
  obtain ⟨hptr, hnext, -⟩ := Memory.alloc_next h
  obtain ⟨k, hk⟩ := eq_two_pow_of_isPowerOfTwo hl
  have hpos : 0 < layout.byteAlign := hk ▸ Nat.two_pow_pos k
  have hround : roundUp m.inner.next layout.byteAlign < m.inner.next + layout.byteAlign :=
    roundUp_lt hpos
  have hle : m.inner.next ≤ roundUp m.inner.next layout.byteAlign := le_roundUp hpos
  rw [ThreadLocalMode.room, if_pos rfl] at hroom ⊢
  rw [alignTo_eq_roundUp hm hl (by omega)] at hptr
  subst hptr
  exact ⟨hle, dvd_roundUp _ _, hnext.symm, by omega⟩

theorem lookup_cons_iff {α β : Type} [DecidableEq α] {l : List (α × β)} {R : α → β → Prop} {k : α}
    {v : β} (h : ∀ a b, l.lookup a = some b ↔ R a b) (hk : l.lookup k = none) (a : α) (b : β) :
    List.lookup a ((k, v) :: l) = some b ↔ R a b ∨ k = a ∧ v = b := by
  rw [List.lookup_cons]
  by_cases ha : a = k
  · subst ha
    have hno : ¬ R a b := by
      rw [← h, hk]
      simp
    simp [hno]
  · rw [beq_false_of_ne ha]
    simp [Ne.symm ha, h]

namespace Image

variable {p p' : Image} {entries : List Entry} {name : Symbol} {d : SymbolDef} {layout : Layout}
  {mode : ThreadLocalMode}

/-- The tables hold the entries, each under a symbol of its own, and the blocks are apart. -/
structure Inv (p : Image) (entries : List Entry) : Prop where
  forward : ∀ s d, p.symbols.forward.lookup s = some d ↔
    ∃ e ∈ entries, e.symbol = s ∧ e.definition = d
  reverse : ∀ a s, p.reverse.lookup a = some s ↔
    ∃ e ∈ entries, e.symbol = s ∧ e.definition = .global a
  start : 0 < p.memory.inner.next
  stop : p.memory.inner.next < 2 ^ 64
  below : ∀ b ∈ entries.filterMap Entry.block, b.1 + b.2.bytes + heapGuard ≤ p.memory.inner.next
  aligned : ∀ b ∈ entries.filterMap Entry.block, b.2.byteAlign ∣ b.1
  apart : (entries.filterMap Entry.block).Pairwise Apart
  keys : ∀ e ∈ entries, ∀ key, e.definition = .threadLocal key → key < p.nextThreadLocalKey
  distinct : (entries.map Entry.definition).Nodup

theorem inv_new : new.Inv [] where
  forward _ _ := by simp [new]
  reverse _ _ := by simp [new]
  start := by decide
  stop := by decide
  below _ hb := absurd hb List.not_mem_nil
  aligned _ hb := absurd hb List.not_mem_nil
  apart := .nil
  keys _ he := absurd he List.not_mem_nil
  distinct := .nil

theorem addSymbol_cases (h : p.addSymbol name mode layout = some (d, p')) :
    p.symbols.forward.lookup name = none ∧
      ((mode = .notThreadLocal ∧ ∃ address memory, p.memory.alloc layout = some (address, memory) ∧
          p.reverse.lookup address = none ∧ d = .global address ∧
          p' = { p with
            memory
            symbols := ⟨(name, d) :: p.symbols.forward⟩
            reverse := (address, name) :: p.reverse }) ∨
        mode ≠ .notThreadLocal ∧ d = .threadLocal p.nextThreadLocalKey ∧
          p' = { p with
            symbols := ⟨(name, d) :: p.symbols.forward⟩
            nextThreadLocalKey := p.nextThreadLocalKey + 1 }) := by
  have hlocal : p.addThreadLocal name = some (d, p') → p.symbols.forward.lookup name = none ∧
      d = .threadLocal p.nextThreadLocalKey ∧ p' = { p with
        symbols := ⟨(name, d) :: p.symbols.forward⟩
        nextThreadLocalKey := p.nextThreadLocalKey + 1 } := by
    intro h
    simp only [addThreadLocal] at h
    split_ifs at h with hn
    cases h
    exact ⟨hn, rfl, rfl⟩
  cases mode with
  | notThreadLocal =>
    obtain ⟨⟨address, memory⟩, ha, h⟩ := Option.bind_eq_some_iff.mp h
    simp only [addGlobal] at h
    split_ifs at h with hn
    cases h
    exact ⟨hn.1, .inl ⟨rfl, address, memory, ha, hn.2, rfl, rfl⟩⟩
  | _ =>
    obtain ⟨hn, hd, hp⟩ := hlocal h
    exact ⟨hn, .inr ⟨ThreadLocalMode.noConfusion, hd, hp⟩⟩

theorem exists_mem_concat {e : Entry} {P : Entry → Prop} :
    (∃ e' ∈ entries ++ [e], P e') ↔ (∃ e' ∈ entries, P e') ∨ P e := by
  simp only [List.mem_append, List.mem_singleton, or_and_right, exists_or, exists_eq_left]

/-- The bump pointer stays behind the blocks, and a new block starts behind it. -/
theorem Inv.addGlobal (hi : p.Inv entries) {address : ℕ} {memory : Memory}
    (hl : isPowerOfTwo layout.byteAlign)
    (hroom : p.memory.inner.next + ThreadLocalMode.notThreadLocal.room layout < 2 ^ 64)
    (ha : p.memory.alloc layout = some (address, memory))
    (hname : p.symbols.forward.lookup name = none) (haddr : p.reverse.lookup address = none) :
    Inv { p with
      memory
      symbols := ⟨(name, .global address) :: p.symbols.forward⟩
      reverse := (address, name) :: p.reverse } (entries ++ [⟨name, .global address, layout⟩]) := by
  obtain ⟨hle, hdvd, hnext, hlast⟩ := alloc_room hi.start hl hroom ha
  have hblocks : (entries ++ [Entry.mk name (.global address) layout]).filterMap Entry.block =
      entries.filterMap Entry.block ++ [(address, layout)] := by
    rw [List.filterMap_append]
    rfl
  have hbelow : ∀ b ∈ entries.filterMap Entry.block, b.1 + b.2.bytes + heapGuard ≤ address :=
    fun b hb => (hi.below b hb).trans hle
  have hguard : 0 < heapGuard := by decide
  constructor
  · intro s d
    rw [exists_mem_concat]
    exact lookup_cons_iff hi.forward hname s d
  · intro a s
    rw [exists_mem_concat]
    refine (lookup_cons_iff hi.reverse haddr a s).trans (or_congr_right ?_)
    rw [SymbolDef.global.injEq]
    exact and_comm
  · show 0 < memory.inner.next
    omega
  · show memory.inner.next < 2 ^ 64
    omega
  · rw [hblocks, List.forall_mem_append, List.forall_mem_singleton]
    refine ⟨fun b hb => (hbelow b hb).trans ?_, hnext.le⟩
    show address ≤ memory.inner.next
    omega
  · rw [hblocks, List.forall_mem_append, List.forall_mem_singleton]
    exact ⟨hi.aligned, hdvd⟩
  · rw [hblocks, List.pairwise_append]
    refine ⟨hi.apart, List.pairwise_singleton _ _, fun b hb c hc => ?_⟩
    rw [List.mem_singleton.mp hc]
    exact .inl (hbelow b hb)
  · rw [List.forall_mem_append, List.forall_mem_singleton]
    exact ⟨hi.keys, fun key hkey => SymbolDef.noConfusion hkey⟩
  · rw [List.map_append, List.nodup_append']
    refine ⟨hi.distinct, List.nodup_singleton _, ?_⟩
    rw [List.map_singleton, List.disjoint_singleton, List.mem_map]
    rintro ⟨e, he, hd⟩
    have hmem : (address, e.layout) ∈ entries.filterMap Entry.block :=
      List.mem_filterMap.mpr ⟨e, he, Entry.block_eq_some.mpr ⟨hd, rfl⟩⟩
    have hlt := hbelow _ hmem
    omega

theorem Inv.addThreadLocal (hi : p.Inv entries) (hname : p.symbols.forward.lookup name = none)
    (layout : Layout) :
    Inv { p with
      symbols := ⟨(name, .threadLocal p.nextThreadLocalKey) :: p.symbols.forward⟩
      nextThreadLocalKey := p.nextThreadLocalKey + 1 }
      (entries ++ [⟨name, .threadLocal p.nextThreadLocalKey, layout⟩]) := by
  have hblocks : (entries ++ [Entry.mk name (.threadLocal p.nextThreadLocalKey) layout]).filterMap
      Entry.block = entries.filterMap Entry.block := by
    rw [List.filterMap_append]
    exact List.append_nil _
  constructor
  · intro s d
    rw [exists_mem_concat]
    exact lookup_cons_iff hi.forward hname s d
  · intro a s
    rw [exists_mem_concat, hi.reverse]
    simp
  · exact hi.start
  · exact hi.stop
  · exact hblocks ▸ hi.below
  · exact hblocks ▸ hi.aligned
  · exact hblocks ▸ hi.apart
  · rw [List.forall_mem_append, List.forall_mem_singleton]
    refine ⟨fun e he key hkey => (hi.keys e he key hkey).trans (Nat.lt_succ_self _), ?_⟩
    intro key hkey
    cases hkey
    exact Nat.lt_succ_self _
  · rw [List.map_append, List.nodup_append']
    refine ⟨hi.distinct, List.nodup_singleton _, ?_⟩
    rw [List.map_singleton, List.disjoint_singleton, List.mem_map]
    rintro ⟨e, he, hd⟩
    exact (hi.keys e he _ hd).false

/-- What a new symbol leaves alone. -/
structure Keeps (p p' : Image) : Prop where
  functions : p'.functions = p.functions
  definitions : p'.definitions = p.definitions

theorem Keeps.trans {p'' : Image} (h : p.Keeps p') (h' : p'.Keeps p'') : p.Keeps p'' :=
  ⟨h'.functions.trans h.functions, h'.definitions.trans h.definitions⟩

theorem Inv.addSymbol (hi : p.Inv entries) (hl : isPowerOfTwo layout.byteAlign)
    (hroom : p.memory.inner.next + mode.room layout < 2 ^ 64)
    (h : p.addSymbol name mode layout = some (d, p')) :
    p'.Inv (entries ++ [⟨name, d, layout⟩]) ∧ p.Keeps p' ∧
      p'.memory.inner.next ≤ p.memory.inner.next + mode.room layout := by
  obtain ⟨hname, ⟨rfl, address, memory, ha, haddr, rfl, rfl⟩ | ⟨-, rfl, rfl⟩⟩ := addSymbol_cases h
  · have hlast := (alloc_room hi.start hl hroom ha).2.2.2
    exact ⟨hi.addGlobal hl hroom ha hname haddr, ⟨rfl, rfl⟩, hlast⟩
  · exact ⟨hi.addThreadLocal hname layout, ⟨rfl, rfl⟩, Nat.le_add_right _ _⟩

theorem addFunc_eq_some {address : ℕ} {f : FuncDefinition} (h : p.addFunc address f = some p') :
    p.functions.lookup address = none ∧
      p' = { p with functions := (address, f) :: p.functions } := by
  unfold addFunc at h
  split_ifs at h with hn
  exact ⟨hn, (Option.some.inj h).symm⟩

theorem Inv.withFunctions (hi : p.Inv entries) (functions : List (ℕ × FuncDefinition)) :
    Inv { p with functions } entries :=
  ⟨hi.forward, hi.reverse, hi.start, hi.stop, hi.below, hi.aligned, hi.apart, hi.keys, hi.distinct⟩

end Image

theorem isPowerOfTwo_byteAlign {l l' : Layout} {n : ℕ} (h : l.alignToBits n = some l') :
    isPowerOfTwo l'.byteAlign := by
  unfold Layout.alignToBits Layout.fromBits at h
  split_ifs at h with ha
  obtain ⟨hge, hpow⟩ := ha
  cases h
  obtain ⟨k, hk⟩ := eq_two_pow_of_isPowerOfTwo hpow
  have hk3 : 3 ≤ k := by
    by_contra hlt
    have hle : 2 ^ k ≤ 2 ^ 2 := Nat.pow_le_pow_right Nat.two_pos (by omega)
    omega
  have hsplit : 2 ^ k = 2 ^ (k - 3) * 8 := by
    rw [show 8 = 2 ^ 3 from rfl, ← pow_add, Nat.sub_add_cancel hk3]
  rw [Layout.byteAlign, hk, hsplit, show (2 ^ (k - 3) * 8 + 7) / 8 = 2 ^ (k - 3) by omega]
  exact isPowerOfTwo_two_pow (k - 3)

theorem isPowerOfTwo_ofFunc : isPowerOfTwo Layout.ofFunc.byteAlign := by decide

theorem isPowerOfTwo_layout {tm : TypeMap} {g : GlobalVariable} {layout : Layout}
    (h : g.layout tm = some layout) : isPowerOfTwo layout.byteAlign := by
  obtain ⟨cls, -, h⟩ := Option.bind_eq_some_iff.mp h
  obtain ⟨element, -, h⟩ := Option.bind_eq_some_iff.mp h
  exact isPowerOfTwo_byteAlign h

def funcRoom : ℕ := ThreadLocalMode.notThreadLocal.room .ofFunc

/-- The native functions that have been registered, and nothing else. -/
structure Natives (done : List (String × Builtin)) (p : Image) (entries : List Entry) : Prop where
  inv : p.Inv entries
  definitions : p.definitions = .new
  next : p.memory.inner.next ≤ 128 + done.length * funcRoom
  defined : ∀ b ∈ done, ∃ a, ⟨.external b.1, .global a, .ofFunc⟩ ∈ entries ∧
    p.functions.lookup a = some (.builtin b.2)
  only : ∀ a f, p.functions.lookup a = some f → ∃ b ∈ done, f = .builtin b.2

theorem natives_of_addNative {builtins : List (String × Builtin)} {p : Image}
    (hroom : 128 + builtins.length * funcRoom < 2 ^ 64)
    (h : Image.new.addNative builtins = some p) : ∃ entries, Natives builtins p entries := by
  refine Loop.foldlM_invariant (P := fun done p => ∃ entries, Natives done p entries) ?_ ?_ h
  · rintro done b p p' ⟨rest, rfl⟩ ⟨entries, hn⟩ hstep
    obtain ⟨⟨d, p₁⟩, hadd, hstep⟩ := Option.bind_eq_some_iff.mp hstep
    obtain ⟨a, ha, hstep⟩ := Option.bind_eq_some_iff.mp hstep
    obtain ⟨hfree, rfl⟩ := Image.addFunc_eq_some hstep
    obtain rfl := SymbolDef.eq_of_asGlobal ha
    have hfuncRoom : funcRoom = 385 := by decide
    have hnext := hn.next
    rw [List.length_append, List.length_append, List.length_singleton, hfuncRoom] at hroom
    rw [hfuncRoom] at hnext
    have hfits : p.memory.inner.next + funcRoom < 2 ^ 64 := by omega
    obtain ⟨hinv, hkeeps, hnext₁⟩ := hn.inv.addSymbol isPowerOfTwo_ofFunc hfits hadd
    change _ ≤ p.memory.inner.next + funcRoom at hnext₁
    rw [hkeeps.functions] at hfree ⊢
    have htable := lookup_cons_iff (v := FuncDefinition.builtin b.2) (fun _ _ => Iff.rfl) hfree
    refine ⟨_, hinv.withFunctions _, hkeeps.definitions.trans hn.definitions, ?_, ?_, ?_⟩
    · rw [List.length_append, List.length_singleton]
      show p₁.memory.inner.next ≤ _
      rw [hfuncRoom] at hnext₁ ⊢
      omega
    · rw [List.forall_mem_append, List.forall_mem_singleton]
      refine ⟨fun b' hb' => ?_, a, List.mem_append_right _ (List.mem_singleton_self _), ?_⟩
      · obtain ⟨a', hmem, hf⟩ := hn.defined b' hb'
        exact ⟨a', List.mem_append_left _ hmem, (htable a' _).mpr (.inl hf)⟩
      · exact List.lookup_cons_self
    · intro a' f hf
      rcases (htable a' f).mp hf with hf | ⟨-, rfl⟩
      · obtain ⟨b', hb', rfl⟩ := hn.only a' f hf
        exact ⟨b', List.mem_append_left _ hb', rfl⟩
      · exact ⟨b, List.mem_append_right _ (List.mem_singleton_self b), rfl⟩
  · refine ⟨[], Image.inv_new, rfl, by decide, ?_, ?_⟩
    · exact fun b hb => absurd hb List.not_mem_nil
    · exact fun a f hf => by cases hf

section Items

variable {tm : TypeMap} {p p' : Image} {entries₀ entries : List Entry} {s s' : Linker}
  {done : List (ModuleId × Item)}

variable (tm) in
def Item.room : Item → ℕ
  | .function _ => funcRoom
  | .globalVar g =>
    match g.initializer with
    | none => 0
    | some _ => (g.layout tm).elim 0 g.threadLocalMode.room

variable (tm p) in
/-- Each item that the first loop has come to has its symbol, and the list of the inits to come
has the item with what the symbol stands for. -/
structure Placed (entries₀ : List Entry) (done : List (ModuleId × Item)) (s : Linker)
    (entries : List Entry) : Prop where
  inv : s.image.Inv entries
  old : entries₀ ⊆ entries
  keeps : p.Keeps s.image
  next : s.image.memory.inner.next ≤
    p.memory.inner.next + (done.map fun e => Item.room tm e.2).sum
  funcs : ∀ m func, (m, Item.function func) ∈ done ↔ ∃ loc, ⟨m, loc, func⟩ ∈ s.funcInits
  globals : ∀ m g, (m, Item.globalVar g) ∈ done ∧ g.initializer.isSome ↔
    ∃ d layout, ⟨m, d, layout, g⟩ ∈ s.globalInits
  funcEntry : ∀ i ∈ s.funcInits, ∃ symbol, i.func.symbol i.moduleid = some symbol ∧
    ⟨symbol, .global i.loc, .ofFunc⟩ ∈ entries
  globalEntry : ∀ i ∈ s.globalInits, ∃ symbol, i.g.symbol i.moduleid = some symbol ∧
    i.g.layout tm = some i.layout ∧ ⟨symbol, i.definition, i.layout⟩ ∈ entries ∧
    (i.definition.asGlobal.isSome ↔ i.g.threadLocalMode = .notThreadLocal)
  distinct : (s.globalInits.map GlobalInit.definition).Nodup

theorem asGlobal_of_addSymbol {name : Symbol} {mode : ThreadLocalMode} {layout : Layout}
    {d : SymbolDef} (h : p.addSymbol name mode layout = some (d, p')) :
    d.asGlobal.isSome ↔ mode = .notThreadLocal := by
  obtain ⟨-, ⟨rfl, address, -, -, -, rfl, -⟩ | ⟨hmode, rfl, -⟩⟩ := Image.addSymbol_cases h
  · simp [SymbolDef.asGlobal]
  · simp [SymbolDef.asGlobal, hmode]

theorem sum_room_concat (done : List (ModuleId × Item)) (e : ModuleId × Item) :
    ((done ++ [e]).map fun e => Item.room tm e.2).sum =
      (done.map fun e => Item.room tm e.2).sum + Item.room tm e.2 := by
  rw [List.map_append, List.sum_append, List.map_singleton, List.sum_singleton]

namespace Placed

variable {name : Symbol} {mode : ThreadLocalMode} {layout : Layout} {d : SymbolDef} {image : Image}

theorem addSymbol (h : Placed tm p entries₀ done s entries) (hl : isPowerOfTwo layout.byteAlign)
    (hroom : p.memory.inner.next + ((done.map fun e => Item.room tm e.2).sum + mode.room layout) <
      2 ^ 64)
    (hadd : s.image.addSymbol name mode layout = some (d, image)) :
    image.Inv (entries ++ [⟨name, d, layout⟩]) ∧ p.Keeps image ∧
      image.memory.inner.next ≤
        p.memory.inner.next + ((done.map fun e => Item.room tm e.2).sum + mode.room layout) := by
  have hnext := h.next
  rw [← Nat.add_assoc] at hroom ⊢
  obtain ⟨hinv, hkeeps, hnext'⟩ := h.inv.addSymbol hl
    ((Nat.add_le_add_right hnext _).trans_lt hroom) hadd
  exact ⟨hinv, h.keeps.trans hkeeps, hnext'.trans (Nat.add_le_add_right hnext _)⟩

theorem funcEntry_concat (h : Placed tm p entries₀ done s entries) (e : Entry) :
    ∀ i ∈ s.funcInits, ∃ symbol, i.func.symbol i.moduleid = some symbol ∧
      ⟨symbol, .global i.loc, .ofFunc⟩ ∈ entries ++ [e] := by
  intro i hi
  obtain ⟨symbol, hsymbol, hmem⟩ := h.funcEntry i hi
  exact ⟨symbol, hsymbol, List.mem_append_left _ hmem⟩

theorem globalEntry_concat (h : Placed tm p entries₀ done s entries) (e : Entry) :
    ∀ i ∈ s.globalInits, ∃ symbol, i.g.symbol i.moduleid = some symbol ∧
      i.g.layout tm = some i.layout ∧ ⟨symbol, i.definition, i.layout⟩ ∈ entries ++ [e] ∧
      (i.definition.asGlobal.isSome ↔ i.g.threadLocalMode = .notThreadLocal) := by
  intro i hi
  obtain ⟨symbol, hsymbol, hlayout, hmem, hmode⟩ := h.globalEntry i hi
  exact ⟨symbol, hsymbol, hlayout, List.mem_append_left _ hmem, hmode⟩

theorem definition_notMem (h : Placed tm p entries₀ done s entries) {e : Entry}
    (hinv : image.Inv (entries ++ [e])) :
    e.definition ∉ s.globalInits.map GlobalInit.definition := by
  have hdistinct := hinv.distinct
  rw [List.map_append, List.map_singleton, ← List.concat_eq_append, List.nodup_concat] at hdistinct
  intro hmem
  obtain ⟨i, hi, hd⟩ := List.mem_map.mp hmem
  obtain ⟨symbol, -, -, hentry, -⟩ := h.globalEntry i hi
  apply hdistinct.1
  rw [← hd]
  exact List.mem_map_of_mem (f := Entry.definition) hentry

theorem addFunction (h : Placed tm p entries₀ done s entries) {m : ModuleId}
    {func : NamedFunction} {loc : ℕ} (hsymbol : func.symbol m = some name)
    (hroom : p.memory.inner.next + ((done ++ [(m, Item.function func)]).map fun e =>
      Item.room tm e.2).sum < 2 ^ 64)
    (hadd : s.image.addSymbol name .notThreadLocal .ofFunc = some (.global loc, image)) :
    Placed tm p entries₀ (done ++ [(m, Item.function func)])
      { s with image, funcInits := s.funcInits ++ [⟨m, loc, func⟩] }
      (entries ++ [⟨name, .global loc, .ofFunc⟩]) := by
  have hitem : Item.room tm (.function func) = ThreadLocalMode.notThreadLocal.room .ofFunc := rfl
  rw [sum_room_concat, hitem] at hroom
  obtain ⟨hinv, hkeeps, hnext⟩ := h.addSymbol isPowerOfTwo_ofFunc hroom hadd
  refine ⟨hinv, List.subset_append_of_subset_left _ h.old, hkeeps, ?_, fun m' func' => ?_,
    fun m' g => ?_, ?_, h.globalEntry_concat _, h.distinct⟩
  · rw [sum_room_concat]
    exact hnext
  · simp only [List.mem_append, List.mem_singleton, h.funcs, exists_or, Prod.mk.injEq,
      Item.function.injEq, FuncInit.mk.injEq]
    simp
  · simp only [← h.globals, List.mem_append, List.mem_singleton, Prod.mk.injEq, reduceCtorEq,
      and_false, or_false]
  · rw [List.forall_mem_append, List.forall_mem_singleton]
    exact ⟨h.funcEntry_concat _, name, hsymbol,
      List.mem_append_right _ (List.mem_singleton_self _)⟩

theorem addGlobalVar (h : Placed tm p entries₀ done s entries) {m : ModuleId} {g : GlobalVariable}
    {init : Constant} (hinit : g.initializer = some init) (hsymbol : g.symbol m = some name)
    (hlayout : g.layout tm = some layout)
    (hroom : p.memory.inner.next + ((done ++ [(m, Item.globalVar g)]).map fun e =>
      Item.room tm e.2).sum < 2 ^ 64)
    (hadd : s.image.addSymbol name g.threadLocalMode layout = some (d, image)) :
    Placed tm p entries₀ (done ++ [(m, Item.globalVar g)])
      { s with image, globalInits := s.globalInits ++ [⟨m, d, layout, g⟩] }
      (entries ++ [⟨name, d, layout⟩]) := by
  have hitem : Item.room tm (.globalVar g) = g.threadLocalMode.room layout := by
    rw [Item.room, hinit, hlayout]
    rfl
  rw [sum_room_concat, hitem] at hroom
  obtain ⟨hinv, hkeeps, hnext⟩ := h.addSymbol (isPowerOfTwo_layout hlayout) hroom hadd
  refine ⟨hinv, List.subset_append_of_subset_left _ h.old, hkeeps, ?_, fun m' func => ?_,
    fun m' g' => ?_, h.funcEntry_concat _, ?_, ?_⟩
  · rw [sum_room_concat, hitem]
    exact hnext
  · simp only [← h.funcs, List.mem_append, List.mem_singleton, Prod.mk.injEq, reduceCtorEq,
      and_false, or_false]
  · simp only [List.mem_append, List.mem_singleton, or_and_right, h.globals, exists_or,
      Prod.mk.injEq, Item.globalVar.injEq, GlobalInit.mk.injEq]
    refine or_congr_right ?_
    constructor
    · rintro ⟨⟨rfl, rfl⟩, -⟩
      exact ⟨d, layout, rfl, rfl, rfl, rfl⟩
    · rintro ⟨-, -, rfl, -, -, rfl⟩
      exact ⟨⟨rfl, rfl⟩, by rw [hinit]; rfl⟩
  · rw [List.forall_mem_append, List.forall_mem_singleton]
    exact ⟨h.globalEntry_concat _, name, hsymbol, hlayout,
      List.mem_append_right _ (List.mem_singleton_self _), asGlobal_of_addSymbol hadd⟩
  · rw [List.map_append, List.map_singleton, ← List.concat_eq_append, List.nodup_concat]
    exact ⟨h.definition_notMem hinv, h.distinct⟩

theorem skip (h : Placed tm p entries₀ done s entries) {m : ModuleId} {g : GlobalVariable}
    (hinit : g.initializer = none) :
    Placed tm p entries₀ (done ++ [(m, Item.globalVar g)]) s entries := by
  refine ⟨h.inv, h.old, h.keeps, ?_, fun m' func => ?_, fun m' g' => ?_, h.funcEntry,
    h.globalEntry, h.distinct⟩
  · rw [sum_room_concat]
    exact h.next.trans (Nat.add_le_add_left (Nat.le_add_right _ _) _)
  · simp only [← h.funcs, List.mem_append, List.mem_singleton, Prod.mk.injEq, reduceCtorEq,
      and_false, or_false]
  · rw [← h.globals, List.mem_append, List.mem_singleton, or_and_right, or_iff_left_iff_imp]
    rintro ⟨heq, hsome⟩
    cases heq
    rw [hinit] at hsome
    cases hsome

theorem step (h : Placed tm p entries₀ done s entries) {e : ModuleId × Item}
    (hroom : p.memory.inner.next + ((done ++ [e]).map fun e => Item.room tm e.2).sum < 2 ^ 64)
    (ha : addItem tm s e = some s') :
    ∃ entries', Placed tm p entries₀ (done ++ [e]) s' entries' := by
  obtain ⟨m, item⟩ := e
  cases item with
  | function func =>
    obtain ⟨symbol, hsymbol, ha⟩ := Option.bind_eq_some_iff.mp ha
    obtain ⟨⟨d, image⟩, hadd, ha⟩ := Option.bind_eq_some_iff.mp ha
    obtain ⟨loc, hloc, ha⟩ := Option.bind_eq_some_iff.mp ha
    cases ha
    obtain rfl := SymbolDef.eq_of_asGlobal hloc
    exact ⟨_, h.addFunction hsymbol hroom hadd⟩
  | globalVar g =>
    simp only [addItem] at ha
    cases hinit : g.initializer with
    | none =>
      rw [hinit] at ha
      cases ha
      exact ⟨entries, h.skip hinit⟩
    | some init =>
      rw [hinit] at ha
      obtain ⟨symbol, hsymbol, ha⟩ := Option.bind_eq_some_iff.mp ha
      obtain ⟨layout, hlayout, ha⟩ := Option.bind_eq_some_iff.mp ha
      obtain ⟨⟨d, image⟩, hadd, ha⟩ := Option.bind_eq_some_iff.mp ha
      cases ha
      exact ⟨_, h.addGlobalVar hinit hsymbol hlayout hroom hadd⟩

end Placed

theorem placed_of_items {items : List (ModuleId × Item)} (hinv : p.Inv entries₀)
    (hroom : p.memory.inner.next + (items.map fun e => Item.room tm e.2).sum < 2 ^ 64)
    (h : items.foldlM (addItem tm) ⟨p, [], []⟩ = some s) :
    ∃ entries, Placed tm p entries₀ items s entries := by
  have hnil : Placed tm p entries₀ [] ⟨p, [], []⟩ entries₀ := by
    refine ⟨hinv, List.Subset.refl _, ⟨rfl, rfl⟩, Nat.le_add_right _ _, ?_, ?_, ?_, ?_,
      List.nodup_nil⟩
    · intro m func
      simp
    · intro m g
      simp
    · exact fun i hi => absurd hi List.not_mem_nil
    · exact fun i hi => absurd hi List.not_mem_nil
  refine Loop.foldlM_invariant (P := fun done s => ∃ entries, Placed tm p entries₀ done s entries)
    ?_ ⟨entries₀, hnil⟩ h
  rintro done e s s' ⟨rest, rfl⟩ ⟨entries, hplaced⟩ hstep
  have hsum : ((done ++ [e] ++ rest).map fun e => Item.room tm e.2).sum =
      ((done ++ [e]).map fun e => Item.room tm e.2).sum +
        (rest.map fun e => Item.room tm e.2).sum := by rw [List.map_append, List.sum_append]
  refine hplaced.step (lt_of_le_of_lt (Nat.add_le_add_left ?_ _) hroom) hstep
  rw [hsum]
  exact Nat.le_add_right _ _

end Items

section Inits

variable {tm : TypeMap} {symbols symbols' : SymbolTable} {p p' : Image} {entries : List Entry}

theorem lookup_compileAliases {aliases : List (List GlobalAlias)}
    (h : compileAliases tm symbols aliases = some symbols') {s : Symbol} {d : SymbolDef}
    (hd : symbols.forward.lookup s = some d) : symbols'.forward.lookup s = some d := by
  refine Loop.foldlM_invariant
    (P := fun _ (t : SymbolTable) => t.forward.lookup s = some d) ?_ hd h
  intro done g t t' _ hl hstep
  simp only [compileAlias, Option.bind_eq_bind, Option.bind_eq_some_iff] at hstep
  obtain ⟨symbol, -, target, -, value, -, hadd⟩ := hstep
  exact SymbolTable.lookup_of_addAlias hadd hl

theorem functions_of_funcInits {inits : List FuncInit} (h : inits.foldlM addFuncInit p = some p') :
    (∀ a f, p'.functions.lookup a = some f ↔ p.functions.lookup a = some f ∨
      ∃ i ∈ inits, i.loc = a ∧ .lazy i.moduleid i.func.toFunction = f) ∧
    ∃ functions, p' = { p with functions } := by
  refine Loop.foldlM_invariant (P := fun done (p' : Image) => (∀ a f,
    p'.functions.lookup a = some f ↔ p.functions.lookup a = some f ∨
      ∃ i ∈ done, i.loc = a ∧ .lazy i.moduleid i.func.toFunction = f) ∧
    ∃ functions, p' = { p with functions }) ?_ ⟨fun a f => by simp, p.functions, rfl⟩ h
  rintro done i p₁ p₂ - ⟨htable, functions, rfl⟩ hstep
  obtain ⟨hfree, rfl⟩ := Image.addFunc_eq_some hstep
  refine ⟨fun a f => (lookup_cons_iff htable hfree a f).trans ?_, _, rfl⟩
  simp only [List.mem_append, List.mem_singleton, or_and_right, exists_or, exists_eq_left, or_assoc]

theorem bits_initialValue {m : ModuleId} {layout : Layout} {init : Option Constant} {v : Value}
    (h : initialValue tm symbols m layout init = some v) : v.bits = layout.bits := by
  cases init with
  | none =>
    cases h
    rfl
  | some init =>
    obtain ⟨e, he, h⟩ := Option.bind_eq_some_iff.mp h
    obtain ⟨⟨cls, w⟩, hw, h⟩ := Option.bind_eq_some_iff.mp h
    dsimp only at h
    split_ifs at h with hfit
    cases h
    cases ExprCompiler.wellTyped_compileConst init he with
    | const _ hbits =>
      cases hw
      exact hbits.trans hfit.1
    | threadLocal | apply => cases hw

variable (tm symbols) in
/-- What a variable stands for has its initial value. -/
def Initialized (p : Image) (i : GlobalInit) : Prop :=
  ∃ value, initialValue tm symbols i.moduleid i.layout i.g.initializer = some value ∧
    (∀ a, i.definition = .global a → p.memory.loadImpl a i.layout = some value) ∧
    ∀ key, i.definition = .threadLocal key →
      p.definitions.threadLocalInit key = some (i.layout, value)

/-- The variables lie apart. -/
def GlobalInit.ApartFrom (i j : GlobalInit) : Prop :=
  ∀ a b, i.definition = .global a → j.definition = .global b → Apart (a, i.layout) (b, j.layout)

/-- What the initialization of a variable leaves alone. -/
structure Stays (p p' : Image) : Prop where
  symbols : p'.symbols = p.symbols
  reverse : p'.reverse = p.reverse
  functions : p'.functions = p.functions

theorem threadLocalInit_add {d d' : Definitions} {key : ThreadLocalKey} {layout : Layout}
    {value : Value} (h : d.addThreadLocalInit key layout value = some d')
    (key' : ThreadLocalKey) (e : Layout × Value) :
    d'.threadLocalInit key' = some e ↔
      d.threadLocalInit key' = some e ∨ key = key' ∧ (layout, value) = e := by
  unfold Definitions.addThreadLocalInit at h
  split_ifs at h with hn
  cases h
  exact lookup_cons_iff (R := fun a b => d.threadLocalInit a = some b) (fun _ _ => Iff.rfl) hn.2
    key' e

/-- The initialization of a variable that lies apart from the variables that have their values. -/
theorem initialized_addGlobalInit {i : GlobalInit}
    (hfit : ∀ a, i.definition = .global a → a + i.layout.bytes < 2 ^ 64)
    (h : addGlobalInit tm p i = some p') :
    Stays p p' ∧ Initialized tm p.symbols p' i ∧
      ∀ symbols j, j.ApartFrom i → Initialized tm symbols p j → Initialized tm symbols p' j := by
  obtain ⟨value, hvalue, h⟩ := Option.bind_eq_some_iff.mp h
  have hbits := bits_initialValue hvalue
  cases hd : i.definition with
  | global a =>
    rw [hd] at h
    obtain ⟨memory, hstore, h⟩ := Option.bind_eq_some_iff.mp h
    cases h
    obtain ⟨rfl, -⟩ := Memory.storeImpl_eq_some hstore
    have hin : Heap.Inside (a, i.layout) a value.imp.length := by
      rw [value.length_imp, hbits]
      exact ⟨le_rfl, le_rfl⟩
    refine ⟨⟨rfl, rfl, rfl⟩, ⟨value, hvalue, fun a' ha' => ?_, fun key hkey => ?_⟩, ?_⟩
    · cases hd.symm.trans ha'
      exact p.memory.load_write_self hbits (hfit a hd)
    · cases hd.symm.trans hkey
    · rintro symbols j hapart ⟨w, hw, hload, hlocal⟩
      refine ⟨w, hw, fun b hb => ?_, hlocal⟩
      rw [← hload b hb]
      exact p.memory.load_write_apart (hapart b a hb hd) hin
  | threadLocal key =>
    rw [hd] at h
    obtain ⟨definitions, hadd, h⟩ := Option.bind_eq_some_iff.mp h
    cases h
    have htable := threadLocalInit_add hadd
    refine ⟨⟨rfl, rfl, rfl⟩, ⟨value, hvalue, fun a ha => ?_, fun key' hkey => ?_⟩, ?_⟩
    · cases hd.symm.trans ha
    · cases hd.symm.trans hkey
      exact (htable key _).mpr (.inr ⟨rfl, rfl⟩)
    · rintro symbols j - ⟨w, hw, hload, hlocal⟩
      exact ⟨w, hw, hload, fun key' hkey => (htable key' _).mpr (.inl (hlocal key' hkey))⟩

theorem initialized_of_globalInits {inits : List GlobalInit}
    (hfit : ∀ i ∈ inits, ∀ a, i.definition = .global a → a + i.layout.bytes < 2 ^ 64)
    (hapart : inits.Pairwise GlobalInit.ApartFrom)
    (h : inits.foldlM (addGlobalInit tm) p = some p') :
    Stays p p' ∧ ∀ i ∈ inits, Initialized tm p.symbols p' i := by
  refine Loop.foldlM_invariant (P := fun done p' => Stays p p' ∧
    ∀ i ∈ done, Initialized tm p.symbols p' i) ?_ ⟨⟨rfl, rfl, rfl⟩, by simp⟩ h
  rintro done i p₁ p₂ ⟨rest, rfl⟩ ⟨hstays, hdone⟩ hstep
  have hmem : i ∈ done ++ [i] ++ rest := by simp
  obtain ⟨hstays', hi, hothers⟩ := initialized_addGlobalInit (hfit i hmem) hstep
  rw [hstays.symbols] at hi
  refine ⟨⟨hstays'.symbols.trans hstays.symbols, hstays'.reverse.trans hstays.reverse,
    hstays'.functions.trans hstays.functions⟩, ?_⟩
  rw [List.forall_mem_append, List.forall_mem_singleton]
  refine ⟨fun j hj => hothers _ j ?_ (hdone j hj), hi⟩
  rw [List.append_assoc, List.pairwise_append] at hapart
  exact hapart.2.2 j hj i List.mem_cons_self

end Inits

section Link

variable {tm : TypeMap} {builtins : List (String × Builtin)} {modules : List Module}
  {p p' : Image} {entries : List Entry}

/-- What linking is for. Each entry has a block of its own and its symbol resolves to it; the
functions are found at their addresses, and nothing else is; and each variable with an initializer
reads as its value. -/
structure Image.Implements (tm : TypeMap) (builtins : List (String × Builtin))
    (modules : List Module) (p : Image) (entries : List Entry) : Prop where
  apart : (entries.filterMap Entry.block).Pairwise Apart
  aligned : ∀ b ∈ entries.filterMap Entry.block, b.2.byteAlign ∣ b.1
  fits : ∀ b ∈ entries.filterMap Entry.block, b.1 + b.2.bytes < 2 ^ 64
  symbol : ∀ e ∈ entries, p.lookupSymbol e.symbol = some e.definition
  reverse : ∀ a s, p.reverseLookup a = some s ↔
    ∃ e ∈ entries, e.symbol = s ∧ e.definition = .global a
  builtin : ∀ b ∈ builtins, ∃ a, ⟨.external b.1, .global a, .ofFunc⟩ ∈ entries ∧
    p.reverseLookupFun a = some (.builtin b.2)
  function : ∀ m func, (m, Item.function func) ∈ itemsOf modules →
    ∃ symbol a, func.symbol m = some symbol ∧ ⟨symbol, .global a, .ofFunc⟩ ∈ entries ∧
      p.reverseLookupFun a = some (.lazy m func.toFunction)
  only : ∀ a f, p.reverseLookupFun a = some f → (∃ b ∈ builtins, f = .builtin b.2) ∨
    ∃ m func, (m, Item.function func) ∈ itemsOf modules ∧ f = .lazy m func.toFunction
  globalVar : ∀ m g, (m, Item.globalVar g) ∈ itemsOf modules → g.initializer.isSome →
    ∃ symbol d layout value, g.symbol m = some symbol ∧ g.layout tm = some layout ∧
      ⟨symbol, d, layout⟩ ∈ entries ∧
      initialValue tm p.symbols m layout g.initializer = some value ∧
      if g.threadLocalMode = .notThreadLocal then
        ∃ a, d = .global a ∧ p.memory.loadImpl a layout = some value
      else ∃ key, d = .threadLocal key ∧ p.definitions.threadLocalInit key = some (layout, value)

theorem Placed.apart {items : List (ModuleId × Item)} {s : Linker} {entries₀ : List Entry}
    (h : Placed tm p entries₀ items s entries) : s.globalInits.Pairwise GlobalInit.ApartFrom := by
  refine (List.pairwise_map.mp h.distinct).imp_of_mem ?_
  intro i j hi hj hne a b ha hb
  have hmem : ∀ i ∈ s.globalInits, ∀ a, i.definition = .global a →
      (a, i.layout) ∈ entries.filterMap Entry.block := by
    intro i hi a ha
    obtain ⟨symbol, -, -, hentry, -⟩ := h.globalEntry i hi
    exact List.mem_filterMap.mpr ⟨_, hentry, Entry.block_eq_some.mpr ⟨ha, rfl⟩⟩
  have : Std.Symm Apart := ⟨fun _ _ hapart => hapart.symm⟩
  refine h.inv.apart.forall (hmem i hi a ha) (hmem j hj b hb) ?_
  intro heq
  rw [ha, hb, (Prod.mk.inj heq).1] at hne
  exact hne rfl

theorem implements_of_compileModules {entries₀ : List Entry} (hn : Natives builtins p entries₀)
    (hroom : 128 + builtins.length * funcRoom +
      ((itemsOf modules).map fun e => Item.room tm e.2).sum < 2 ^ 64)
    (h : compileModules tm modules p = some p') :
    ∃ entries, p'.Implements tm builtins modules entries := by
  obtain ⟨s, hitems, h⟩ := Option.bind_eq_some_iff.mp h
  obtain ⟨symbols, haliases, h⟩ := Option.bind_eq_some_iff.mp h
  obtain ⟨p₁, hfuncs, hglobals⟩ := Option.bind_eq_some_iff.mp h
  have hnext := hn.next
  obtain ⟨entries, hplaced⟩ := placed_of_items hn.inv
    (lt_of_le_of_lt (Nat.add_le_add_right hnext _) hroom) hitems
  obtain ⟨htable, functions, rfl⟩ := functions_of_funcInits hfuncs
  have hblock : ∀ b ∈ entries.filterMap Entry.block, b.1 + b.2.bytes < 2 ^ 64 := by
    intro b hb
    have hbelow := hplaced.inv.below b hb
    have hstop := hplaced.inv.stop
    omega
  have hfit : ∀ i ∈ s.globalInits, ∀ a, i.definition = .global a →
      a + i.layout.bytes < 2 ^ 64 := by
    intro i hi a ha
    obtain ⟨symbol, -, -, hentry, -⟩ := hplaced.globalEntry i hi
    exact hblock (a, i.layout)
      (List.mem_filterMap.mpr ⟨_, hentry, Entry.block_eq_some.mpr ⟨ha, rfl⟩⟩)
  obtain ⟨hstays, hinit⟩ := initialized_of_globalInits hfit hplaced.apart hglobals
  have hlookup : ∀ a, p'.reverseLookupFun a = functions.lookup a := by
    intro a
    rw [Image.reverseLookupFun, hstays.functions]
  refine ⟨entries, hplaced.inv.apart, hplaced.inv.aligned, hblock, ?_, ?_, ?_, ?_, ?_, ?_⟩
  · intro e he
    rw [Image.lookupSymbol, hstays.symbols]
    exact lookup_compileAliases haliases ((hplaced.inv.forward _ _).mpr ⟨e, he, rfl, rfl⟩)
  · intro a s'
    rw [Image.reverseLookup, hstays.reverse]
    exact hplaced.inv.reverse a s'
  · intro b hb
    obtain ⟨a, hmem, hf⟩ := hn.defined b hb
    refine ⟨a, hplaced.old hmem, ?_⟩
    rw [hlookup, htable]
    exact .inl (hplaced.keeps.functions ▸ hf)
  · intro m func hmem
    obtain ⟨loc, hi⟩ := (hplaced.funcs m func).mp hmem
    obtain ⟨symbol, hsymbol, hentry⟩ := hplaced.funcEntry _ hi
    refine ⟨symbol, loc, hsymbol, hentry, ?_⟩
    rw [hlookup, htable]
    exact .inr ⟨_, hi, rfl, rfl⟩
  · intro a f hf
    rw [hlookup, htable] at hf
    rcases hf with hf | ⟨i, hi, -, rfl⟩
    · exact .inl (hn.only a f (hplaced.keeps.functions ▸ hf))
    · exact .inr ⟨i.moduleid, i.func, (hplaced.funcs _ _).mpr ⟨i.loc, hi⟩, rfl⟩
  · intro m g hmem hsome
    obtain ⟨d, layout, hi⟩ := (hplaced.globals m g).mp ⟨hmem, hsome⟩
    obtain ⟨symbol, hsymbol, hlayout, hentry, hmode⟩ := hplaced.globalEntry _ hi
    obtain ⟨value, hvalue, hload, hlocal⟩ := hinit _ hi
    refine ⟨symbol, d, layout, value, hsymbol, hlayout, hentry, hstays.symbols ▸ hvalue, ?_⟩
    cases d with
    | global a =>
      rw [if_pos (hmode.mp rfl)]
      exact ⟨a, rfl, hload a rfl⟩
    | threadLocal key =>
      rw [if_neg fun hn => by cases hmode.mpr hn]
      exact ⟨key, rfl, hlocal key rfl⟩

theorem link_implements
    (hroom : 128 + builtins.length * funcRoom + ((itemsOf modules).map fun e =>
      Item.room (.ofModules (modules.map Module.toModule)) e.2).sum < 2 ^ 64)
    (h : link builtins modules = some p) :
    ∃ entries,
      p.Implements (.ofModules (modules.map Module.toModule)) builtins modules entries := by
  obtain ⟨p₀, hnative, h⟩ := Option.bind_eq_some_iff.mp h
  obtain ⟨entries₀, hn⟩ := natives_of_addNative ((Nat.le_add_right _ _).trans_lt hroom) hnative
  exact implements_of_compileModules hn hroom h

end Link

namespace Shared

def counter : GlobalVariable :=
  ⟨.name "counter", .external, .pointerType (.integerType 32) 0, .notThreadLocal,
    some (.int 32 5), 4⟩

def total : Constant := .globalReference (.name "total") (.integerType 32)

/-- A pointer to what the other module names `total`. -/
def cell : GlobalVariable :=
  ⟨.name "cell", .internal, .pointerType (.pointerType (.integerType 32) 0) 0, .notThreadLocal,
    some total, 8⟩

def depth : GlobalVariable :=
  ⟨.name "depth", .external, .pointerType (.integerType 32) 0, .generalDynamic,
    some (.int 32 1), 4⟩

/-- Counts once and returns what it found. -/
def main : NamedFunction where
  name := "main"
  linkage := .external
  parameters := [.name "argc", .name "argv"]
  basicBlocks := [⟨.name "entry",
    [.atomicRMW .add (.constantOperand total) (.constantOperand (.int 32 1)) (.name "old")
      ⟨.system, .sequentiallyConsistent⟩],
    .simple (.ret (some (.localOperand (.name "old") (.integerType 32))))⟩]

def modules : List Module :=
  [⟨⟨[]⟩, [main], [cell, depth], []⟩,
    ⟨⟨[]⟩, [], [counter], [⟨.name "total", .globalReference (.name "counter") (.integerType 32),
      .external⟩]⟩]

def builtins : List (String × Builtin) := [("pause", .native 0 fun _ => pure .ofUnit)]

def tm : TypeMap := .ofModules (modules.map Module.toModule)

def image : Image := (link builtins modules).get (by decide +kernel)

theorem link_eq : link builtins modules = some image := (Option.some_get _).symm

theorem room : 128 + builtins.length * funcRoom +
    ((itemsOf modules).map fun e => Item.room tm e.2).sum < 2 ^ 64 := by decide +kernel

end Shared

/-- The initializer of `cell` is the address of a variable that is added after it. -/
theorem link_implements_shared :
    (∃ entries, Shared.image.Implements Shared.tm Shared.builtins Shared.modules entries) ∧
    Shared.image.lookupSymbol (.external "counter") = some (.global 1032) ∧
    Shared.image.memory.loadImpl 896 ⟨64, 64⟩ = some (.new 64 1032) :=
  ⟨link_implements Shared.room Shared.link_eq, by decide +kernel, by decide +kernel⟩

end Ir
end AtomicSim
