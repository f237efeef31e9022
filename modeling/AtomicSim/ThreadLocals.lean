import AtomicSim.Heap
import AtomicSim.Lib.Related
import AtomicSim.Symbols

namespace AtomicSim

/-- `thread_local_inits`, with the last insertion first. `compile_modules`, which is the only
caller of `add_thread_local_init`, asserts that a value is as wide as its layout. -/
structure Definitions where
  threadLocalInits : List (ThreadLocalKey × Layout × Value)
  bits : ∀ e ∈ threadLocalInits, e.2.2.bits = e.2.1.bits

namespace Definitions

def new : Definitions := ⟨[], nofun⟩

def threadLocalInit (d : Definitions) (key : ThreadLocalKey) : Option (Layout × Value) :=
  d.threadLocalInits.lookup key

/-- A width that differs and a key that has a value already panic. -/
def addThreadLocalInit (d : Definitions) (key : ThreadLocalKey) (layout : Layout)
    (value : Value) : Option Definitions :=
  if h : value.bits = layout.bits ∧ d.threadLocalInits.lookup key = none then
    some ⟨(key, layout, value) :: d.threadLocalInits, List.forall_mem_cons.mpr ⟨h.1, d.bits⟩⟩
  else none

theorem bits_of_threadLocalInit {d : Definitions} {key : ThreadLocalKey} {layout : Layout}
    {value : Value} (h : d.threadLocalInit key = some (layout, value)) :
    value.bits = layout.bits :=
  d.bits _ (lookup_mem h)

end Definitions

/-- There are guard bytes between the two blocks. -/
def Apart (a b : ℕ × Layout) : Prop :=
  a.1 + a.2.bytes + heapGuard ≤ b.1 ∨ b.1 + b.2.bytes + heapGuard ≤ a.1

theorem Apart.symm {a b : ℕ × Layout} (h : Apart a b) : Apart b a := Or.symm h

theorem Apart.ne {a b : ℕ × Layout} (h : Apart a b) : a.1 ≠ b.1 := by
  have hguard : 0 < heapGuard := by decide
  unfold Apart at h
  omega

namespace Memory

/-- `align_to` does not wrap past `2 ^ 64`. -/
def Rounds (m : Memory) (layout : Layout) : Prop :=
  m.inner.next ≤ alignTo m.inner.next layout.byteAlign

instance (m : Memory) (layout : Layout) : Decidable (m.Rounds layout) :=
  inferInstanceAs (Decidable (_ ≤ _))

theorem alloc_next {m n : Memory} {layout : Layout} {ptr : ℕ}
    (h : m.alloc layout = some (ptr, n)) :
    ptr = alignTo m.inner.next layout.byteAlign ∧
      n.inner.next = ptr + layout.bytes + heapGuard ∧ n.inner.next < 2 ^ 64 := by
  have hinner := inner_alloc h
  simp only [MemoryInner.alloc] at hinner
  split_ifs at hinner
  simp only [Option.bind_eq_bind, Option.bind_eq_some_iff, addU64_eq_some] at hinner
  obtain ⟨_, ⟨-, rfl⟩, next, ⟨hlt, rfl⟩, hinner⟩ := hinner
  obtain ⟨rfl, hn⟩ := Prod.mk.inj (Option.some.inj hinner)
  rw [← hn]
  exact ⟨rfl, rfl, hlt⟩

theorem storeImpl_eq_some {m n : Memory} {ptr : ℕ} {value : Value}
    (h : m.storeImpl ptr value = some n) :
    n = m.write ptr value.imp ∧ ptr + value.imp.length < 2 ^ 64 := by
  rw [storeImpl_eq] at h
  split_ifs at h with hlt
  exact ⟨(Option.some.inj h).symm, hlt⟩

theorem load_write_apart (m : Memory) {b c : ℕ × Layout} (h : Apart b c) {ptr : ℕ}
    {bytes : List Byte} (hin : Heap.Inside c ptr bytes.length) :
    (m.write ptr bytes).loadImpl b.1 b.2 = m.loadImpl b.1 b.2 := by
  refine loadImpl_congr fun x hx => ?_
  rw [byteAt_write, if_neg]
  intro hcov
  have h₁ : b.1 ≤ x := hx.1
  have h₂ : x < b.1 + b.2.bytes := hx.2
  unfold Heap.Inside at hin
  unfold Apart at h
  omega

theorem load_write_self (m : Memory) {ptr : ℕ} {layout : Layout} {value : Value}
    (hbits : value.bits = layout.bits) (hfit : ptr + layout.bytes < 2 ^ 64) :
    (m.write ptr value.imp).loadImpl ptr layout = some value := by
  have hlen : value.imp.length = layout.bytes := by rw [value.length_imp, hbits, Layout.bytes]
  rw [loadImpl_eq, if_pos hfit]
  exact congrArg some (Value.ext hbits.symm (read_write_imp m ptr value layout hlen))

end Memory

/-- A call of `thread_local` with what it returned. -/
structure LocalCall where
  threadid : ThreadId
  key : ThreadLocalKey
  ptr : ℕ

/-- The tables of the threads, with the blocks of others, the stores after the first uses, and
the calls of `thread_local` made so far. -/
structure Storage where
  locals : Locals
  blocks : List (ℕ × Layout)
  stores : List (ℕ × Value)
  calls : List LocalCall

/-- `rest` is whatever else happens in the process, with the memory left alone: threads that
start or end, thunks that are decoded or resolved. -/
inductive StorageOp where
  | threadLocal (threadid : ThreadId) (key : ThreadLocalKey)
  | alloc (layout : Layout)
  | store (ptr : ℕ) (value : Value)
  | rest (process : Process)

namespace Storage

def new : Storage := ⟨⟨.new .new, fun _ => []⟩, [], [], []⟩

def memory (s : Storage) : Memory := s.locals.process.memory

def setMemory (s : Storage) (memory : Memory) : Storage :=
  { s with locals := { s.locals with process := { s.locals.process with memory } } }

variable (d : Definitions)

def block (c : LocalCall) : Option (ℕ × Layout) :=
  (d.threadLocalInit c.key).map fun i => (c.ptr, i.1)

def allocated (s : Storage) : List (ℕ × Layout) := s.blocks ++ s.calls.filterMap (block d)

def act (s : Storage) : StorageOp → Option Storage
  | .threadLocal threadid key =>
    (AtomicSim.threadLocal d.threadLocalInit threadid key s.locals).map fun (ptr, locals) =>
      { s with locals, calls := s.calls ++ [⟨threadid, key, ptr⟩] }
  | .alloc layout => (s.memory.alloc layout).map fun (ptr, memory) =>
    { s.setMemory memory with blocks := s.blocks ++ [(ptr, layout)] }
  | .store ptr value => (s.memory.storeImpl ptr value).map fun memory =>
    { s.setMemory memory with stores := s.stores ++ [(ptr, value)] }
  | .rest process =>
    some { s with locals := { s.locals with process := { process with memory := s.memory } } }

/-- A store lies in a block that was returned before it. -/
def Allowed (s : Storage) : StorageOp → Prop
  | .store ptr value => ∃ b ∈ s.allocated d, Heap.Inside b ptr value.imp.length
  | _ => True

instance (s : Storage) : DecidablePred (s.Allowed d)
  | .store _ _ => inferInstanceAs (Decidable (∃ b ∈ s.allocated d, _))
  | .threadLocal _ _ | .alloc _ | .rest _ => .isTrue trivial

def run (s : Storage) : List StorageOp → Option Storage
  | [] => some s
  | op :: ops => if s.Allowed d op then (s.act d op).bind fun s' => s'.run ops else none

/-- The layout that a step allocates; a second use of a key allocates nothing. -/
def allocates (s : Storage) : StorageOp → Option Layout
  | .threadLocal threadid key =>
    match (s.locals.threadLocals threadid).lookup key with
    | some _ => none
    | none => (d.threadLocalInit key).map Prod.fst
  | .alloc layout => some layout
  | .store _ _ | .rest _ => none

/-- No allocation of the run wraps past `2 ^ 64`. -/
def Rounding (s : Storage) : List StorageOp → Prop
  | [] => True
  | op :: ops => (∀ layout ∈ s.allocates d op, s.memory.Rounds layout) ∧
    ∀ s' ∈ s.act d op, s'.Rounding ops

instance decidableRounding : ∀ (s : Storage) (ops : List StorageOp), Decidable (s.Rounding d ops)
  | _, [] => .isTrue trivial
  | s, op :: ops =>
    have : DecidablePred fun s' : Storage => s'.Rounding d ops :=
      fun s' => decidableRounding s' ops
    inferInstanceAs (Decidable ((∀ layout ∈ s.allocates d op, _) ∧ ∀ s' ∈ s.act d op, _))

/-- Whatever was allocated lies below the bump pointer, and the block of a call is apart from
every other. -/
structure Inv (s : Storage) : Prop where
  stop : s.memory.inner.next < 2 ^ 64
  table : ∀ threadid key ptr, (s.locals.threadLocals threadid).lookup key = some ptr ↔
    ⟨threadid, key, ptr⟩ ∈ s.calls
  below : ∀ b ∈ s.allocated d, b.1 + b.2.bytes + heapGuard ≤ s.memory.inner.next
  registered : ∀ c ∈ s.calls, (d.threadLocalInit c.key).isSome
  apart : ∀ c ∈ s.calls, ∀ b ∈ block d c, ∀ b' ∈ s.blocks, Apart b b'
  apartCalls : ∀ c ∈ s.calls, ∀ c' ∈ s.calls, c ≠ c' → ∀ b ∈ block d c, ∀ b' ∈ block d c',
    Apart b b'
  initial : ∀ c ∈ s.calls, ∀ layout value, d.threadLocalInit c.key = some (layout, value) →
    (∀ st ∈ s.stores, ¬ Heap.Inside (c.ptr, layout) st.1 st.2.imp.length) →
    s.memory.loadImpl c.ptr layout = some value

variable {d} {s s' : Storage}

theorem inv_new : new.Inv d where
  stop := by decide
  table := by simp [new]
  below := by simp [new, allocated]
  registered := by simp [new]
  apart := by simp [new]
  apartCalls := by simp [new]
  initial := by simp [new]

theorem mem_allocated {b : ℕ × Layout} :
    b ∈ s.allocated d ↔ b ∈ s.blocks ∨ ∃ c ∈ s.calls, b ∈ block d c := by
  simp [allocated, List.mem_filterMap]

theorem mem_block {c : LocalCall} {b : ℕ × Layout} :
    b ∈ block d c ↔ ∃ value, d.threadLocalInit c.key = some (b.2, value) ∧ c.ptr = b.1 := by
  obtain ⟨ptr, layout⟩ := b
  simp only [block, Option.mem_def, Option.map_eq_some_iff, Prod.exists, Prod.mk.injEq]
  constructor
  · rintro ⟨_, value, hi, rfl, rfl⟩
    exact ⟨value, hi, rfl⟩
  · rintro ⟨value, hi, rfl⟩
    exact ⟨layout, value, hi, rfl, rfl⟩

theorem Inv.alloc {layout : Layout} (hi : s.Inv d) (hr : s.memory.Rounds layout)
    (hact : s.act d (.alloc layout) = some s') : s'.Inv d := by
  obtain ⟨⟨ptr, n⟩, ha, rfl⟩ := Option.map_eq_some_iff.mp hact
  obtain ⟨hptr, hnext, hstop⟩ := Memory.alloc_next ha
  have hle : s.memory.inner.next ≤ ptr := hptr ▸ hr
  have hload : ∀ p l, n.loadImpl p l = s.memory.loadImpl p l := fun p l =>
    Memory.loadImpl_congr fun x _ => Memory.byteAt_alloc ha x
  constructor
  · exact hstop
  · exact hi.table
  · intro b hb
    show _ ≤ n.inner.next
    have hmem : b ∈ s.blocks ++ [(ptr, layout)] ∨ ∃ c ∈ s.calls, b ∈ block d c :=
      mem_allocated.mp hb
    rw [List.mem_append, List.mem_singleton, or_right_comm, ← mem_allocated] at hmem
    rcases hmem with hold | rfl
    · have hbelow := hi.below b hold
      omega
    · exact hnext.ge
  · exact hi.registered
  · intro c hc b hb b' hb'
    rcases List.mem_append.mp hb' with hb' | hb'
    · exact hi.apart c hc b hb b' hb'
    · rw [List.mem_singleton.mp hb']
      exact .inl ((hi.below b (mem_allocated.mpr (.inr ⟨c, hc, hb⟩))).trans hle)
  · exact hi.apartCalls
  · intro c hc l value hv hno
    exact (hload c.ptr l).trans (hi.initial c hc l value hv hno)

theorem Inv.store {ptr : ℕ} {value : Value} (hi : s.Inv d)
    (ha : s.Allowed d (.store ptr value)) (hact : s.act d (.store ptr value) = some s') :
    s'.Inv d := by
  obtain ⟨n, hn, rfl⟩ := Option.map_eq_some_iff.mp hact
  obtain ⟨rfl, -⟩ := Memory.storeImpl_eq_some hn
  refine ⟨hi.stop, hi.table, hi.below, hi.registered, hi.apart, hi.apartCalls, ?_⟩
  intro c hc l v hv hno
  rw [List.forall_mem_append, List.forall_mem_singleton] at hno
  have hb : (c.ptr, l) ∈ block d c := mem_block.mpr ⟨v, hv, rfl⟩
  obtain ⟨b, hmem, hin⟩ := ha
  have hapart : Apart (c.ptr, l) b := by
    rcases mem_allocated.mp hmem with hmem | ⟨c', hc', hb'⟩
    · exact hi.apart c hc _ hb b hmem
    · by_cases hcc : c = c'
      · subst hcc
        rw [Option.mem_unique hb hb'] at hno
        exact absurd hin hno.2
      · exact hi.apartCalls c hc c' hc' hcc _ hb b hb'
  exact (Memory.load_write_apart s.memory hapart hin).trans (hi.initial c hc l v hv hno.1)

/-- A call finds its key in the table, or allocates a block and stores the initial value. -/
theorem threadLocal_cases {threadid : ThreadId} {key : ThreadLocalKey} {l l' : Locals} {ptr : ℕ}
    (h : threadLocal d.threadLocalInit threadid key l = some (ptr, l')) :
    (l.threadLocals threadid).lookup key = some ptr ∧ l' = l ∨
    (l.threadLocals threadid).lookup key = none ∧ ∃ layout value m n,
      d.threadLocalInit key = some (layout, value) ∧
      l.process.memory.alloc layout = some (ptr, m) ∧ m.storeImpl ptr value = some n ∧
      l'.process.memory = n ∧
      l'.threadLocals =
        Function.update l.threadLocals threadid ((key, ptr) :: l.threadLocals threadid) := by
  unfold threadLocal at h
  split_ifs at h
  cases hl : (l.threadLocals threadid).lookup key with
  | some p =>
    simp only [hl, Option.some.injEq, Prod.mk.injEq] at h
    exact .inl ⟨h.1 ▸ rfl, h.2.symm⟩
  | none =>
    simp only [hl, Option.bind_eq_bind, Option.bind_eq_some_iff] at h
    obtain ⟨⟨layout, value⟩, hinit, ⟨p, process⟩, hp, h⟩ := h
    unfold Process.threadLocal at hp
    split_ifs at hp
    simp only [Option.bind_eq_bind, Option.bind_eq_some_iff] at hp
    obtain ⟨⟨q, m⟩, ha, n, hn, hp⟩ := hp
    cases hp
    cases h
    exact .inr ⟨rfl, layout, value, m, n, hinit, ha, hn, rfl, rfl⟩

theorem table_update {tables : ThreadId → List (ThreadLocalKey × ℕ)} {calls : List LocalCall}
    (h : ∀ t k p, (tables t).lookup k = some p ↔ ⟨t, k, p⟩ ∈ calls) {threadid : ThreadId}
    {key : ThreadLocalKey} (hl : (tables threadid).lookup key = none) (ptr : ℕ)
    (t : ThreadId) (k : ThreadLocalKey) (p : ℕ) :
    (Function.update tables threadid ((key, ptr) :: tables threadid) t).lookup k = some p ↔
      ⟨t, k, p⟩ ∈ calls ++ [⟨threadid, key, ptr⟩] := by
  rw [List.mem_append, List.mem_singleton, ← h, LocalCall.mk.injEq]
  by_cases ht : t = threadid
  · subst ht
    rw [Function.update_self, List.lookup_cons]
    by_cases hk : k = key
    · subst hk
      simp [hl, eq_comm]
    · simp [hk, beq_false_of_ne hk]
  · simp [ht]

theorem Inv.repeated {c₀ : LocalCall} (hi : s.Inv d) (hc₀ : c₀ ∈ s.calls) :
    Inv d { s with calls := s.calls ++ [c₀] } := by
  have hcalls : ∀ c, c ∈ s.calls ++ [c₀] ↔ c ∈ s.calls := by
    intro c
    rw [List.mem_append, List.mem_singleton, or_iff_left_of_imp]
    exact fun h => h ▸ hc₀
  constructor
  · exact hi.stop
  · exact fun t k p => (hi.table t k p).trans (hcalls _).symm
  · intro b hb
    refine hi.below b ?_
    rw [mem_allocated] at hb ⊢
    simpa only [hcalls] using hb
  · exact fun c hc => hi.registered c ((hcalls c).mp hc)
  · exact fun c hc => hi.apart c ((hcalls c).mp hc)
  · exact fun c hc c' hc' => hi.apartCalls c ((hcalls c).mp hc) c' ((hcalls c').mp hc')
  · exact fun c hc => hi.initial c ((hcalls c).mp hc)

theorem Inv.firstUse (c₀ : LocalCall) {locals : Locals} {layout : Layout} {value : Value}
    {m n : Memory} (hi : s.Inv d) (hround : s.memory.Rounds layout)
    (hl : (s.locals.threadLocals c₀.threadid).lookup c₀.key = none)
    (hinit : d.threadLocalInit c₀.key = some (layout, value))
    (ha : s.memory.alloc layout = some (c₀.ptr, m)) (hn : m.storeImpl c₀.ptr value = some n)
    (hmem : locals.process.memory = n)
    (htable : locals.threadLocals = Function.update s.locals.threadLocals c₀.threadid
      ((c₀.key, c₀.ptr) :: s.locals.threadLocals c₀.threadid)) :
    Inv d { s with locals, calls := s.calls ++ [c₀] } := by
  obtain ⟨hptr, hnext, hstop⟩ := Memory.alloc_next ha
  obtain ⟨rfl, -⟩ := Memory.storeImpl_eq_some hn
  have hle : s.memory.inner.next ≤ c₀.ptr := hptr ▸ hround
  have hlen : value.imp.length = layout.bytes := by
    rw [value.length_imp, Definitions.bits_of_threadLocalInit hinit, Layout.bytes]
  -- the new block is behind all that have been allocated
  have hfresh : ∀ b ∈ s.allocated d, Apart b (c₀.ptr, layout) := fun b hb =>
    .inl ((hi.below b hb).trans hle)
  have hblock : ∀ c ∈ s.calls, ∀ b ∈ block d c, b ∈ s.allocated d := fun c hc b hb =>
    mem_allocated.mpr (.inr ⟨c, hc, hb⟩)
  -- the new call is the only one with the new block
  have hself : ∀ b ∈ block d c₀, b = (c₀.ptr, layout) := fun b hb =>
    Option.mem_unique hb (mem_block.mpr ⟨value, hinit, rfl⟩)
  have hload : ∀ b ∈ s.allocated d,
      locals.process.memory.loadImpl b.1 b.2 = s.memory.loadImpl b.1 b.2 := by
    intro b hb
    rw [hmem, Memory.load_write_apart m (hfresh b hb) ⟨le_rfl, by rw [hlen]⟩]
    exact Memory.loadImpl_congr fun x _ => Memory.byteAt_alloc ha x
  constructor
  · show locals.process.memory.inner.next < 2 ^ 64
    rw [hmem]
    exact hstop
  · show ∀ t k p, (locals.threadLocals t).lookup k = some p ↔ _
    rw [htable]
    exact table_update hi.table hl c₀.ptr
  · intro b hb
    show _ ≤ locals.process.memory.inner.next
    have hmem' : b ∈ s.allocated d ∨ b ∈ block d c₀ := by
      rw [mem_allocated] at hb ⊢
      simpa only [List.mem_append, List.mem_singleton, or_and_right, exists_or,
        exists_eq_left, or_assoc] using hb
    have hgrown : locals.process.memory.inner.next = c₀.ptr + layout.bytes + heapGuard := by
      rw [hmem]
      exact hnext
    rcases hmem' with hb | hb
    · have hbelow := hi.below b hb
      omega
    · rw [hself b hb, hgrown]
  · intro c hc
    rcases List.mem_append.mp hc with hc | hc
    · exact hi.registered c hc
    · rw [List.mem_singleton.mp hc, hinit]
      rfl
  · intro c hc b hb b' hb'
    rcases List.mem_append.mp hc with hc | hc
    · exact hi.apart c hc b hb b' hb'
    · rw [List.mem_singleton.mp hc] at hb
      rw [hself b hb]
      exact (hfresh b' (mem_allocated.mpr (.inl hb'))).symm
  · intro c hc c' hc' hne b hb b' hb'
    rcases List.mem_append.mp hc with hc | hc <;> rcases List.mem_append.mp hc' with hc' | hc'
    · exact hi.apartCalls c hc c' hc' hne b hb b' hb'
    · rw [List.mem_singleton.mp hc'] at hb'
      rw [hself b' hb']
      exact hfresh b (hblock c hc b hb)
    · rw [List.mem_singleton.mp hc] at hb
      rw [hself b hb]
      exact (hfresh b' (hblock c' hc' b' hb')).symm
    · rw [List.mem_singleton] at hc hc'
      exact absurd (hc.trans hc'.symm) hne
  · intro c hc l v hv hno
    rcases List.mem_append.mp hc with hc | hc
    · rw [← hi.initial c hc l v hv hno]
      exact hload (c.ptr, l) (hblock c hc _ (mem_block.mpr ⟨v, hv, rfl⟩))
    · rw [List.mem_singleton] at hc
      subst hc
      obtain ⟨rfl, rfl⟩ := Prod.mk.inj (Option.some.inj (hinit.symm.trans hv))
      show locals.process.memory.loadImpl c.ptr layout = some value
      rw [hmem]
      exact Memory.load_write_self m (Definitions.bits_of_threadLocalInit hinit) (by omega)

theorem Inv.threadLocal {threadid : ThreadId} {key : ThreadLocalKey} (hi : s.Inv d)
    (hr : ∀ layout ∈ s.allocates d (.threadLocal threadid key), s.memory.Rounds layout)
    (hact : s.act d (.threadLocal threadid key) = some s') : s'.Inv d := by
  obtain ⟨⟨ptr, locals⟩, hcall, rfl⟩ := Option.map_eq_some_iff.mp hact
  rcases threadLocal_cases hcall with
    ⟨hl, rfl⟩ | ⟨hl, layout, value, m, n, hinit, ha, hn, hmem, htable⟩
  · exact hi.repeated ((hi.table threadid key ptr).mp hl)
  · have hround : s.memory.Rounds layout := hr layout (by simp [allocates, hl, hinit])
    exact hi.firstUse ⟨threadid, key, ptr⟩ hround hl hinit ha hn hmem htable

theorem Inv.act {op : StorageOp} (hi : s.Inv d) (ha : s.Allowed d op)
    (hr : ∀ layout ∈ s.allocates d op, s.memory.Rounds layout) (hact : s.act d op = some s') :
    s'.Inv d := by
  cases op with
  | threadLocal threadid key => exact hi.threadLocal hr hact
  | alloc layout => exact hi.alloc (hr layout rfl) hact
  | store ptr value => exact hi.store ha hact
  | rest process =>
    cases hact
    exact ⟨hi.stop, hi.table, hi.below, hi.registered, hi.apart, hi.apartCalls, hi.initial⟩

theorem Inv.run {ops : List StorageOp} (hi : s.Inv d) (hr : s.Rounding d ops)
    (hrun : s.run d ops = some s') : s'.Inv d := by
  induction ops generalizing s with
  | nil => exact Option.some.inj hrun ▸ hi
  | cons op ops ih =>
    rw [run] at hrun
    split_ifs at hrun with ha
    obtain ⟨s₁, hact, hrun⟩ := Option.bind_eq_some_iff.mp hrun
    exact ih (hi.act ha hr.1 hact) (hr.2 s₁ hact) hrun

/-- In a run of which no allocation wraps past `2 ^ 64`, two calls return the same address
exactly if they come from the same thread with the same key, the blocks of others are apart,
and a block reads as the initial value of its key until a store into it. -/
theorem threadLocal_stable {ops : List StorageOp} (hr : new.Rounding d ops)
    (hrun : new.run d ops = some s) :
    (∀ c ∈ s.calls, ∀ c' ∈ s.calls,
      c.ptr = c'.ptr ↔ c.threadid = c'.threadid ∧ c.key = c'.key) ∧
    (∀ c ∈ s.calls, ∀ c' ∈ s.calls, ¬ (c.threadid = c'.threadid ∧ c.key = c'.key) →
      ∀ b ∈ block d c, ∀ b' ∈ block d c', Apart b b') ∧
    ∀ c ∈ s.calls, ∃ layout value, d.threadLocalInit c.key = some (layout, value) ∧
      ((∀ st ∈ s.stores, ¬ Heap.Inside (c.ptr, layout) st.1 st.2.imp.length) →
        s.memory.loadImpl c.ptr layout = some value) := by
  have hi := inv_new.run hr hrun
  have hapart : ∀ c ∈ s.calls, ∀ c' ∈ s.calls, ¬ (c.threadid = c'.threadid ∧ c.key = c'.key) →
      ∀ b ∈ block d c, ∀ b' ∈ block d c', Apart b b' := by
    intro c hc c' hc' hne
    refine hi.apartCalls c hc c' hc' fun heq => hne ?_
    rw [heq]
    exact ⟨rfl, rfl⟩
  refine ⟨fun c hc c' hc' => ⟨fun hptr => ?_, fun heq => ?_⟩, hapart, fun c hc => ?_⟩
  · by_contra hne
    obtain ⟨i, hi₁⟩ := Option.isSome_iff_exists.mp (hi.registered c hc)
    obtain ⟨i', hi₂⟩ := Option.isSome_iff_exists.mp (hi.registered c' hc')
    exact (hapart c hc c' hc' hne (c.ptr, i.1) (mem_block.mpr ⟨i.2, hi₁, rfl⟩)
      (c'.ptr, i'.1) (mem_block.mpr ⟨i'.2, hi₂, rfl⟩)).ne hptr
  · have hc₁ := (hi.table c.threadid c.key c.ptr).mpr hc
    have hc₂ := (hi.table c'.threadid c'.key c'.ptr).mpr hc'
    rw [heq.1, heq.2, hc₂] at hc₁
    exact (Option.some.inj hc₁).symm
  · obtain ⟨⟨layout, value⟩, hinit⟩ := Option.isSome_iff_exists.mp (hi.registered c hc)
    exact ⟨layout, value, hinit, hi.initial c hc layout value hinit⟩

def twoThreads : Process := { Process.new .new with threads := [0, 1], nextThreadid := 2 }

/-- The key 0 has four bytes, the key 1 none. -/
def twoKeys : Definitions where
  threadLocalInits := [(0, ⟨32, 32⟩, Value.new 32 7), (1, ⟨0, 8⟩, Value.new 0 0)]
  bits := by decide

def useKeys : List StorageOp :=
  [.rest twoThreads, .threadLocal 0 0, .alloc ⟨64, 64⟩, .store 128 (Value.new 8 1),
    .threadLocal 1 1, .threadLocal 1 0, .threadLocal 0 0]

theorem threadLocal_stable_useKeys : new.Rounding twoKeys useKeys ∧
    ∃ s ∈ new.run twoKeys useKeys, s.calls.map LocalCall.ptr = [128, 400, 528, 128] ∧
      ∀ c ∈ s.calls, ∀ c' ∈ s.calls,
        c.ptr = c'.ptr ↔ c.threadid = c'.threadid ∧ c.key = c'.key := by
  have hround : new.Rounding twoKeys useKeys := by decide +kernel
  have hrun : ∃ s ∈ new.run twoKeys useKeys,
      s.calls.map LocalCall.ptr = [128, 400, 528, 128] := by decide +kernel
  obtain ⟨s, hs, hptr⟩ := hrun
  exact ⟨hround, s, hs, hptr, (threadLocal_stable hround hs).1⟩

/-- The blocks of others leave one byte below `2 ^ 64`, and the next allocation wraps to the
address zero; then the first use by another thread returns the address of the first. -/
theorem threadLocal_stable_fails : ∃ s ∈ new.run twoKeys
    [.rest twoThreads, .threadLocal 0 0, .alloc ⟨2 ^ 64 - 8, 8⟩, .alloc ⟨2 ^ 64 - 8, 8⟩,
      .alloc ⟨2 ^ 64 - 8, 8⟩, .alloc ⟨2 ^ 64 - 8, 8⟩, .alloc ⟨2 ^ 64 - 8, 8⟩,
      .alloc ⟨2 ^ 64 - 8, 8⟩, .alloc ⟨2 ^ 64 - 8, 8⟩, .alloc ⟨(2 ^ 61 - 1278) * 8, 8⟩,
      .alloc ⟨0, 64⟩, .threadLocal 1 0],
    s.calls.map (fun c => (c.threadid, c.ptr)) = [(0, 128), (1, 128)] := by
  decide +kernel

end Storage
end AtomicSim
