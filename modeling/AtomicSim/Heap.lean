import Mathlib.Data.Nat.Bitwise
import AtomicSim.Memory

namespace AtomicSim

/-- The byte that the last store to cover an address put there. -/
def lastStored (stores : List (ℕ × Value)) (x : ℕ) : Option Byte :=
  stores.reverse.findSome? fun s => if s.1 ≤ x then s.2.imp[x - s.1]? else none

theorem lastStored_append (stores : List (ℕ × Value)) (ptr : ℕ) (value : Value) (x : ℕ) :
    lastStored (stores ++ [(ptr, value)]) x =
      if ptr ≤ x ∧ x < ptr + value.imp.length then some (value.imp.getD (x - ptr) 0)
      else lastStored stores x := by
  rw [lastStored, List.reverse_append, List.reverse_singleton, List.singleton_append,
    List.findSome?_cons]
  by_cases hin : ptr ≤ x ∧ x < ptr + value.imp.length
  · have hlt : x - ptr < value.imp.length := by omega
    rw [if_pos hin.1, if_pos hin, List.getElem?_eq_getElem hlt, List.getD_eq_getElem _ _ hlt]
  · rw [if_neg hin]
    by_cases hle : ptr ≤ x
    · have hge : value.imp.length ≤ x - ptr := by omega
      rw [if_pos hle, List.getElem?_eq_none hge]
      rfl
    · rw [if_neg hle]
      rfl

namespace MemoryInner

/-- What a memory is after the given stores. -/
structure Holds (m : MemoryInner) (stores : List (ℕ × Value)) : Prop where
  wf : m.WF
  byte : ∀ x, m.byteAt x = (lastStored stores x).getD 0

theorem holds_new : new.Holds [] := ⟨wf_new, fun _ => rfl⟩

theorem Holds.write {m : MemoryInner} {stores : List (ℕ × Value)} (h : m.Holds stores) (ptr : ℕ)
    (value : Value) : (m.write ptr value.imp).Holds (stores ++ [(ptr, value)]) := by
  refine ⟨wf_write h.wf ptr value.imp, fun x => ?_⟩
  rw [byteAt_write h.wf, lastStored_append, h.byte]
  split_ifs <;> rfl

theorem Holds.storeImpl {m m' : MemoryInner} {stores : List (ℕ × Value)} (h : m.Holds stores)
    {ptr : ℕ} {value : Value} (hs : m.storeImpl ptr value = some m') :
    m'.Holds (stores ++ [(ptr, value)]) := by
  rw [storeImpl_eq] at hs
  split_ifs at hs
  exact Option.some.inj hs ▸ h.write ptr value

theorem Holds.foldlM {m : MemoryInner} {done stores : List (ℕ × Value)} (h : m.Holds done)
    (hs : ∀ s ∈ stores, s.1 + s.2.imp.length < 2 ^ 64) :
    ∃ m', stores.foldlM (fun m s => m.storeImpl s.1 s.2) m = some m' ∧
      m'.Holds (done ++ stores) := by
  induction stores generalizing m done with
  | nil => exact ⟨m, rfl, by rwa [List.append_nil]⟩
  | cons s stores ih =>
    rw [List.forall_mem_cons] at hs
    obtain ⟨m', hm', hd⟩ := ih (h.write s.1 s.2) hs.2
    refine ⟨m', ?_, ?_⟩
    · rw [List.foldlM_cons, storeImpl_eq, if_pos hs.1]
      exact hm'
    · rwa [List.append_assoc, List.singleton_append] at hd

theorem Holds.loadImpl {m : MemoryInner} {stores : List (ℕ × Value)} (h : m.Holds stores)
    {ptr : ℕ} {layout : Layout} (hl : ptr + layout.bytes < 2 ^ 64) :
    ∃ v, m.loadImpl ptr layout = some v ∧ v.bits = layout.bits ∧ v.imp.length = layout.bytes ∧
      ∀ i < layout.bytes, v.imp[i]? = some ((lastStored stores (ptr + i)).getD 0) := by
  refine ⟨m.read ptr layout, ?_, rfl, by simp [read], fun i hi => ?_⟩
  · rw [loadImpl_eq h.wf, if_pos hl]
  · simp [read, hi, h.byte]

/-- After any stores that fit below `2 ^ 64`, a load finds at each of its addresses the byte
stored there last, or zero, and its indices are in bounds. -/
theorem refines_byteMap (stores : List (ℕ × Value))
    (hs : ∀ s ∈ stores, s.1 + s.2.imp.length < 2 ^ 64) :
    ∃ m, stores.foldlM (fun m s => m.storeImpl s.1 s.2) new = some m ∧
      ∀ ptr layout, ptr + layout.bytes < 2 ^ 64 →
        (∀ piece ∈ m.cells.range ⟨ptr, ptr + layout.bytes⟩, PieceFits ptr layout.bytes piece) ∧
        ∃ v, m.loadImpl ptr layout = some v ∧ v.bits = layout.bits ∧
          v.imp.length = layout.bytes ∧
          ∀ i < layout.bytes, v.imp[i]? = some ((lastStored stores (ptr + i)).getD 0) := by
  obtain ⟨m, hm, hd⟩ := holds_new.foldlM hs
  rw [List.nil_append] at hd
  refine ⟨m, hm, fun ptr layout hl => ⟨fun piece hp => ?_, hd.loadImpl hl⟩⟩
  exact pieceFits_of_mem_range hd.wf hp

/-- The second store splits the first, and the load spans all three pieces. -/
theorem refines_byteMap_split :
    (∀ s ∈ [(128, Value.new 32 0x01020304), (129, Value.new 8 0xff)],
      s.1 + s.2.imp.length < 2 ^ 64) ∧
    ∃ m, [(128, Value.new 32 0x01020304), (129, Value.new 8 0xff)].foldlM
        (fun m s => m.storeImpl s.1 s.2) new = some m ∧
      ∃ v, m.loadImpl 127 ⟨32, 32⟩ = some v ∧ v.imp[2]? = some 0xff := by
  have hs : ∀ s ∈ [(128, Value.new 32 0x01020304), (129, Value.new 8 0xff)],
      s.1 + s.2.imp.length < 2 ^ 64 := by decide
  obtain ⟨m, hm, hload⟩ := refines_byteMap _ hs
  obtain ⟨-, v, hv, -, -, hbyte⟩ := hload 127 ⟨32, 32⟩ (by decide)
  refine ⟨hs, m, hm, v, hv, (hbyte 2 (by decide)).trans ?_⟩
  decide

end MemoryInner

/-- The memory with the blocks that `alloc` has returned and the stores made so far. -/
structure Heap where
  memory : MemoryInner
  blocks : List (ℕ × Layout)
  stores : List (ℕ × Value)

inductive HeapOp where
  | alloc (layout : Layout)
  | store (ptr : ℕ) (value : Value)

namespace Heap

def new : Heap := ⟨.new, [], []⟩

def act (h : Heap) : HeapOp → Option Heap
  | .alloc layout => (h.memory.alloc layout).map fun (ptr, memory) =>
    { h with memory, blocks := h.blocks ++ [(ptr, layout)] }
  | .store ptr value => (h.memory.storeImpl ptr value).map fun memory =>
    { h with memory, stores := h.stores ++ [(ptr, value)] }

def Inside (block : ℕ × Layout) (ptr len : ℕ) : Prop :=
  block.1 ≤ ptr ∧ ptr + len ≤ block.1 + block.2.bytes

instance (block : ℕ × Layout) (ptr len : ℕ) : Decidable (Inside block ptr len) :=
  inferInstanceAs (Decidable (_ ∧ _))

/-- What is assumed of the callers: alignments are powers of two, the heap ends below
`2 ^ 64`, and a store lies in a block that was returned before it. -/
def Allowed (h : Heap) : HeapOp → Prop
  | .alloc layout => isPowerOfTwo layout.byteAlign ∧
    roundUp h.memory.next layout.byteAlign + layout.bytes + heapGuard < 2 ^ 64
  | .store ptr value => ∃ b ∈ h.blocks, Inside b ptr value.imp.length

instance (h : Heap) : DecidablePred h.Allowed
  | .alloc _ => inferInstanceAs (Decidable (_ ∧ _))
  | .store _ _ => inferInstanceAs (Decidable (∃ b ∈ h.blocks, _))

def run (h : Heap) : List HeapOp → Option Heap
  | [] => some h
  | op :: ops => if h.Allowed op then (h.act op).bind fun h' => h'.run ops else none

/-- The heaps that allowed operations make. -/
inductive Reachable : Heap → Prop
  | new : Reachable new
  | act {h h' : Heap} {op : HeapOp} : Reachable h → h.Allowed op → h.act op = some h' →
      Reachable h'

theorem Reachable.run {h h' : Heap} {ops : List HeapOp} (hr : Reachable h)
    (hrun : h.run ops = some h') : Reachable h' := by
  induction ops generalizing h with
  | nil =>
    cases hrun
    exact hr
  | cons op ops ih =>
    rw [Heap.run] at hrun
    split_ifs at hrun with hop
    obtain ⟨h₁, h₁act, hrun⟩ := Option.bind_eq_some_iff.mp hrun
    exact ih (hr.act hop h₁act) hrun

/-- The bump pointer is above every block and its guard. -/
structure Inv (h : Heap) : Prop where
  holds : h.memory.Holds h.stores
  start : 128 ≤ h.memory.next
  stop : h.memory.next < 2 ^ 64
  below : ∀ b ∈ h.blocks, b.1 + b.2.bytes + heapGuard ≤ h.memory.next
  positive : ∀ b ∈ h.blocks, 0 < b.1
  aligned : ∀ b ∈ h.blocks, b.1 % b.2.byteAlign = 0
  apart : h.blocks.Pairwise fun a b => a.1 + a.2.bytes + heapGuard ≤ b.1
  inside : ∀ s ∈ h.stores, ∃ b ∈ h.blocks, Inside b s.1 s.2.imp.length

theorem inv_new : new.Inv where
  holds := MemoryInner.holds_new
  start := by decide
  stop := by decide
  below := by simp [new]
  positive := by simp [new]
  aligned := by simp [new]
  apart := List.Pairwise.nil
  inside := by simp [new]

theorem alloc_eq {m : MemoryInner} {layout : Layout} (hpos : 0 < m.next)
    (ha : isPowerOfTwo layout.byteAlign)
    (hfit : roundUp m.next layout.byteAlign + layout.bytes + heapGuard < 2 ^ 64) :
    m.alloc layout = some (roundUp m.next layout.byteAlign,
      { m with next := roundUp m.next layout.byteAlign + layout.bytes + heapGuard }) := by
  obtain ⟨k, hk⟩ := eq_two_pow_of_isPowerOfTwo ha
  have hne : layout.byteAlign ≠ 0 := hk ▸ (Nat.two_pow_pos k).ne'
  have hlt : roundUp m.next layout.byteAlign + layout.bytes < 2 ^ 64 := by omega
  simp only [MemoryInner.alloc, if_neg hne, alignTo_eq_roundUp hpos ha (by omega), addU64,
    if_pos hlt, if_pos hfit, Option.bind_eq_bind, Option.bind_some]

theorem Inv.alloc {h h' : Heap} {layout : Layout} (hi : h.Inv) (ha : h.Allowed (.alloc layout))
    (hact : h.act (.alloc layout) = some h') : h'.Inv := by
  obtain ⟨hpow, hfit⟩ := ha
  obtain ⟨k, hk⟩ := eq_two_pow_of_isPowerOfTwo hpow
  have hpos : 0 < layout.byteAlign := hk ▸ Nat.two_pow_pos k
  have hle : h.memory.next ≤ roundUp h.memory.next layout.byteAlign := le_roundUp hpos
  have hstart := hi.start
  have hmod : roundUp h.memory.next layout.byteAlign % layout.byteAlign = 0 :=
    Nat.mul_mod_left _ _
  simp only [act, alloc_eq (by omega) hpow hfit, Option.map_some, Option.some.injEq] at hact
  subst hact
  refine ⟨⟨⟨hi.holds.wf.cells, hi.holds.wf.covered⟩, hi.holds.byte⟩, ?_, hfit, ?_, ?_, ?_, ?_, ?_⟩
  · simp only
    omega
  · intro b hb
    rcases List.mem_append.mp hb with hb | hb
    · have hbelow := hi.below b hb
      simp only
      omega
    · rw [List.mem_singleton.mp hb]
  · intro b hb
    rcases List.mem_append.mp hb with hb | hb
    · exact hi.positive b hb
    · rw [List.mem_singleton.mp hb]
      simp only
      omega
  · intro b hb
    rcases List.mem_append.mp hb with hb | hb
    · exact hi.aligned b hb
    · rw [List.mem_singleton.mp hb]
      exact hmod
  · refine List.pairwise_append.mpr ⟨hi.apart, List.pairwise_singleton _ _, ?_⟩
    intro a hma b hb
    rw [List.mem_singleton.mp hb]
    exact (hi.below a hma).trans hle
  · intro s hs
    obtain ⟨b, hb, hin⟩ := hi.inside s hs
    exact ⟨b, List.mem_append_left _ hb, hin⟩

theorem Inv.store {h h' : Heap} {ptr : ℕ} {value : Value} (hi : h.Inv)
    (ha : h.Allowed (.store ptr value)) (hact : h.act (.store ptr value) = some h') : h'.Inv := by
  obtain ⟨m, hm, rfl⟩ := Option.map_eq_some_iff.mp hact
  have hnext : m.next = h.memory.next := by
    rw [MemoryInner.storeImpl_eq] at hm
    split_ifs at hm
    exact Option.some.inj hm ▸ rfl
  refine ⟨hi.holds.storeImpl hm, hnext ▸ hi.start, hnext ▸ hi.stop, ?_, hi.positive, hi.aligned,
    hi.apart, ?_⟩
  · intro b hb
    rw [hnext]
    exact hi.below b hb
  · intro s hs
    rcases List.mem_append.mp hs with hs | hs
    · exact hi.inside s hs
    · rw [List.mem_singleton.mp hs]
      exact ha

theorem Reachable.inv {h : Heap} (hr : Reachable h) : h.Inv := by
  induction hr with
  | new => exact inv_new
  | @act h h' op _ hop hact ih =>
    cases op with
    | alloc layout => exact ih.alloc hop hact
    | store ptr value => exact ih.store hop hact

theorem Inv.eq_of_touch {h : Heap} (hi : h.Inv) {a b : ℕ × Layout} (ha : a ∈ h.blocks)
    (hb : b ∈ h.blocks) (hab : a.1 ≤ b.1 + b.2.bytes) (hba : b.1 ≤ a.1 + a.2.bytes) : a = b := by
  by_contra hne
  have hsymm : h.blocks.Pairwise fun a b =>
      a.1 + a.2.bytes + heapGuard ≤ b.1 ∨ b.1 + b.2.bytes + heapGuard ≤ a.1 :=
    hi.apart.imp Or.inl
  have : Std.Symm fun a b : ℕ × Layout =>
      a.1 + a.2.bytes + heapGuard ≤ b.1 ∨ b.1 + b.2.bytes + heapGuard ≤ a.1 :=
    ⟨fun _ _ hab => hab.symm⟩
  have hguard : 0 < heapGuard := by decide
  rcases hsymm.forall ha hb hne with hle | hle
  · omega
  · omega

theorem Inv.act_isSome {h : Heap} (hi : h.Inv) {op : HeapOp} (hop : h.Allowed op) :
    (h.act op).isSome := by
  cases op with
  | alloc layout =>
    obtain ⟨hpow, hfit⟩ := hop
    have hstart := hi.start
    simp [act, alloc_eq (by omega) hpow hfit]
  | store ptr value =>
    obtain ⟨b, hb, hin⟩ := hop
    have hbelow := hi.below b hb
    have hstop := hi.stop
    have hin := hin.2
    have hlt : ptr + value.imp.length < 2 ^ 64 := by omega
    rw [act, MemoryInner.storeImpl_eq, if_pos hlt]
    rfl

theorem lastStored_eq_none {stores : List (ℕ × Value)} {x : ℕ}
    (h : ∀ s ∈ stores, ¬ (s.1 ≤ x ∧ x < s.1 + s.2.imp.length)) : lastStored stores x = none := by
  rw [lastStored, List.findSome?_eq_none_iff]
  intro s hs
  have hnot := h s (List.mem_reverse.mp hs)
  split_ifs with hle
  · exact List.getElem?_eq_none (by omega)
  · rfl

theorem Inv.load_zero {h : Heap} (hi : h.Inv) {b : ℕ × Layout} (hb : b ∈ h.blocks) {x : ℕ}
    (hx : b.1 ≤ x ∧ x < b.1 + b.2.bytes)
    (hnot : ∀ s ∈ h.stores, Inside b s.1 s.2.imp.length →
      ¬ (s.1 ≤ x ∧ x < s.1 + s.2.imp.length))
    {ptr : ℕ} {layout : Layout} (hptr : ptr ≤ x ∧ x < ptr + layout.bytes)
    (hfit : ptr + layout.bytes < 2 ^ 64) :
    ∃ v, h.memory.loadImpl ptr layout = some v ∧ v.imp[x - ptr]? = some 0 := by
  have hnone : lastStored h.stores x = none := by
    refine lastStored_eq_none fun s hs hcov => ?_
    obtain ⟨c, hc, hin⟩ := hi.inside s hs
    have hcb : c = b := hi.eq_of_touch hc hb (by have := hin.1; omega) (by have := hin.2; omega)
    exact hnot s hs (hcb ▸ hin) hcov
  obtain ⟨v, hv, -, -, hbyte⟩ := hi.holds.loadImpl hfit
  refine ⟨v, hv, ?_⟩
  have hsub : ptr + (x - ptr) = x := by omega
  rw [hbyte (x - ptr) (by omega), hsub, hnone]
  rfl

/-- A store into a block leaves the loads from the other blocks alone. -/
theorem Inv.load_store {h h' : Heap} (hi : h.Inv) {b c : ℕ × Layout} (hb : b ∈ h.blocks)
    (hc : c ∈ h.blocks) (hne : c ≠ b) {ptr : ℕ} {value : Value}
    (hin : Inside b ptr value.imp.length) (hact : h.act (.store ptr value) = some h')
    {q : ℕ} {layout : Layout} (hq : Inside c q layout.bytes) :
    h'.memory.loadImpl q layout = h.memory.loadImpl q layout := by
  obtain ⟨m, hm, rfl⟩ := Option.map_eq_some_iff.mp hact
  have hwf := hi.holds.wf
  rw [MemoryInner.storeImpl_eq] at hm
  split_ifs at hm
  cases hm
  have hread : (h.memory.write ptr value.imp).read q layout = h.memory.read q layout := by
    refine Value.ext rfl (List.map_congr_left fun i hi' => ?_)
    rw [MemoryInner.byteAt_write hwf, if_neg]
    intro hcov
    have hlt := List.mem_range.mp hi'
    refine hne (hi.eq_of_touch hc hb ?_ ?_)
    · have := hq.1
      have := hin.2
      omega
    · have := hq.2
      have := hin.1
      omega
  simp only [MemoryInner.loadImpl_eq (MemoryInner.wf_write hwf ptr value.imp),
    MemoryInner.loadImpl_eq hwf, hread]

/-- Whatever blocks have been allocated and whatever was stored into them: the blocks are
aligned, above address zero and apart by the guard; their bytes are zero until stored to; and
no store shows outside its block. -/
theorem heap_isolation {h : Heap} (hr : Reachable h) :
    (∀ b ∈ h.blocks, b.1 % b.2.byteAlign = 0 ∧ 0 < b.1) ∧
    (h.blocks.Pairwise fun a b => a.1 + a.2.bytes + heapGuard ≤ b.1) ∧
    (∀ op, h.Allowed op → (h.act op).isSome) ∧
    (∀ b ∈ h.blocks, ∀ x, b.1 ≤ x ∧ x < b.1 + b.2.bytes →
      (∀ s ∈ h.stores, Inside b s.1 s.2.imp.length →
        ¬ (s.1 ≤ x ∧ x < s.1 + s.2.imp.length)) →
      ∀ ptr layout, ptr ≤ x ∧ x < ptr + layout.bytes → ptr + layout.bytes < 2 ^ 64 →
        ∃ v, h.memory.loadImpl ptr layout = some v ∧ v.imp[x - ptr]? = some 0) ∧
    ∀ b ∈ h.blocks, ∀ c ∈ h.blocks, c ≠ b → ∀ ptr value h', Inside b ptr value.imp.length →
      h.act (.store ptr value) = some h' → ∀ q layout, Inside c q layout.bytes →
        h'.memory.loadImpl q layout = h.memory.loadImpl q layout := by
  have hi := hr.inv
  refine ⟨fun b hb => ⟨hi.aligned b hb, hi.positive b hb⟩, hi.apart, fun op => hi.act_isSome,
    ?_, ?_⟩
  · intro b hb x hx hnot ptr layout hptr hfit
    exact hi.load_zero hb hx hnot hptr hfit
  · intro b hb c hc hne ptr value h' hin hact q layout hq
    exact hi.load_store hb hc hne hin hact hq

/-- A zero-sized block between two others, and a store into the last. -/
theorem heap_isolation_three : ∃ h, Reachable h ∧
    h.blocks = [(128, ⟨32, 32⟩), (264, ⟨0, 64⟩), (400, ⟨64, 128⟩)] ∧ h.stores.length = 1 ∧
    h.blocks.Pairwise fun a b => a.1 + a.2.bytes + heapGuard ≤ b.1 := by
  have hrun : ∃ h ∈ new.run [.alloc ⟨32, 32⟩, .alloc ⟨0, 64⟩, .alloc ⟨64, 128⟩,
      .store 404 (Value.new 32 7)],
      h.blocks = [(128, ⟨32, 32⟩), (264, ⟨0, 64⟩), (400, ⟨64, 128⟩)] ∧ h.stores.length = 1 := by
    decide +kernel
  obtain ⟨h, hh, hblocks, hstores⟩ := hrun
  have hr : Reachable h := Reachable.new.run hh
  exact ⟨h, hr, hblocks, hstores, (heap_isolation hr).2.1⟩

end Heap

end AtomicSim
