import AtomicSim.Util.RangeMap
import AtomicSim.Value

namespace AtomicSim

/-- One store: where it started, its bytes, and what it replaced. -/
inductive Log where
  | mk (start : ℕ) (value : List Byte) (pred : RangeMap ℕ Log)

namespace Log

def start : Log → ℕ
  | mk start _ _ => start

def value : Log → List Byte
  | mk _ value _ => value

end Log

structure MemoryInner where
  cells : RangeMap ℕ Log
  next : ℕ

def heapGuard : ℕ := 128

namespace MemoryInner

def new : MemoryInner := ⟨RangeMap.new, 128⟩

def alloc (m : MemoryInner) (layout : Layout) : Option (ℕ × MemoryInner) :=
  let len := layout.bytes
  let align := layout.byteAlign
  -- `align - 1` underflows
  if align = 0 then none
  else do
    let result := alignTo m.next align
    let next ← addU64 result len
    let next ← addU64 next heapGuard
    some (result, { m with next })

def storeImpl (m : MemoryInner) (ptr : ℕ) (value : Value) : Option MemoryInner := do
  let stop ← addU64 ptr value.imp.length
  let range : Range ℕ := ⟨ptr, stop⟩
  let pred := RangeMap.fromIter (m.cells.range range)
  let log := Log.mk ptr value.imp pred
  some { m with cells := m.cells.insert range log }

/-- The body of the loop of `load_impl`; a subtraction that underflows panics. -/
def loadPiece (ptr : ℕ) (result : Value) (piece : Range ℕ × Log) : Option Value :=
  let (r, v) := piece
  if ptr ≤ r.start ∧ ptr ≤ r.stop ∧ v.start ≤ r.start ∧ v.start ≤ r.stop then do
    let src ← Value.slice v.value (r.start - v.start) (r.stop - v.start)
    result.copyFromSlice (r.start - ptr) (r.stop - ptr) src
  else none

def loadImpl (m : MemoryInner) (ptr : ℕ) (layout : Layout) : Option Value := do
  let stop ← addU64 ptr layout.bytes
  (m.cells.range ⟨ptr, stop⟩).foldlM (loadPiece ptr) (Value.zero layout.bits)

/-- Cells are disjoint and each lies inside the store it comes from. -/
structure WF (m : MemoryInner) : Prop where
  cells : m.cells.WF
  covered : ∀ e ∈ m.cells.map, e.2.2.start ≤ e.2.1 ∧ e.1 ≤ e.2.2.start + e.2.2.value.length

/-- The byte last stored at an address, zero where nothing was stored. -/
def byteAt (m : MemoryInner) (x : ℕ) : Byte :=
  match m.cells.lookup x with
  | none => 0
  | some log => log.value.getD (x - log.start) 0

def write (m : MemoryInner) (ptr : ℕ) (bytes : List Byte) : MemoryInner :=
  let range : Range ℕ := ⟨ptr, ptr + bytes.length⟩
  let log := Log.mk ptr bytes (RangeMap.fromIter (m.cells.range range))
  { m with cells := m.cells.insert range log }

theorem wf_new : new.WF := ⟨RangeMap.wf_new, by simp [new, RangeMap.new]⟩

theorem storeImpl_eq (m : MemoryInner) (ptr : ℕ) (value : Value) :
    m.storeImpl ptr value =
      if ptr + value.imp.length < 2 ^ 64 then some (m.write ptr value.imp) else none := by
  unfold storeImpl addU64 write
  split_ifs <;> rfl

theorem wf_write {m : MemoryInner} (h : m.WF) (ptr : ℕ) (bytes : List Byte) :
    (m.write ptr bytes).WF := by
  refine ⟨RangeMap.wf_insert h.cells _ _, ?_⟩
  intro e he
  rcases Nat.eq_zero_or_pos bytes.length with hn | hn
  · rw [write, RangeMap.insert_of_empty (by simp only; omega)] at he
    exact h.covered e he
  · have hr : ptr < ptr + bytes.length := by omega
    rcases (RangeMap.mem_insert h.cells hr).mp he with rfl | ⟨f, hf, hef⟩
    · exact ⟨le_rfl, le_rfl⟩
    · have hin := RangeMap.cut_inside hef
      have hcov := h.covered f hf
      rw [(RangeMap.mem_cut.mp hef).1]
      exact ⟨hcov.1.trans hin.1, hin.2.2.trans hcov.2⟩

theorem byteAt_write {m : MemoryInner} (h : m.WF) (ptr : ℕ) (bytes : List Byte) (x : ℕ) :
    (m.write ptr bytes).byteAt x =
      if ptr ≤ x ∧ x < ptr + bytes.length then bytes.getD (x - ptr) 0 else m.byteAt x := by
  let r : Range ℕ := ⟨ptr, ptr + bytes.length⟩
  have hl := RangeMap.lookup_insert h.cells r
    (Log.mk ptr bytes (RangeMap.fromIter (m.cells.range r))) x
  by_cases hx : r.Contains x
  · have hx' : ptr ≤ x ∧ x < ptr + bytes.length := hx
    rw [if_pos hx] at hl
    simp only [byteAt, write]
    rw [hl, if_pos hx']
    rfl
  · have hx' : ¬ (ptr ≤ x ∧ x < ptr + bytes.length) := hx
    rw [if_neg hx] at hl
    simp only [byteAt, write]
    rw [hl, if_neg hx']

theorem write_comm {m : MemoryInner} (h : m.WF) {p q : ℕ} {a b : List Byte}
    (hd : ¬ (⟨p, p + a.length⟩ : Range ℕ).Overlaps ⟨q, q + b.length⟩) :
    (m.write p a).write q b = (m.write q b).write p a := by
  have hd' := Range.overlaps_comm.not.mp hd
  unfold write
  simp only [RangeMap.range_insert h.cells _ hd, RangeMap.range_insert h.cells _ hd',
    RangeMap.insert_comm h.cells _ _ hd]

def read (m : MemoryInner) (ptr : ℕ) (layout : Layout) : Value :=
  ⟨layout.bits, (List.range layout.bytes).map fun i => m.byteAt (ptr + i), by simp [Layout.bytes]⟩

/-- What the loop of `load_impl` needs of a piece: it lies in the load and in its store. -/
structure PieceFits (ptr len : ℕ) (piece : Range ℕ × Log) : Prop where
  inside : ptr ≤ piece.1.start ∧ piece.1.start ≤ piece.1.stop ∧ piece.1.stop ≤ ptr + len
  covered : piece.2.start ≤ piece.1.start ∧ piece.1.stop ≤ piece.2.start + piece.2.value.length

theorem loadPiece_eq {ptr : ℕ} {result : Value} {piece : Range ℕ × Log}
    (h : PieceFits ptr result.imp.length piece) :
    ∃ v, loadPiece ptr result piece = some v ∧ v.bits = result.bits ∧
      v.imp.length = result.imp.length ∧
      ∀ i < result.imp.length, v.imp.getD i 0 =
        if piece.1.Contains (ptr + i) then piece.2.value.getD (ptr + i - piece.2.start) 0
        else result.imp.getD i 0 := by
  obtain ⟨⟨start, stop⟩, log⟩ := piece
  obtain ⟨⟨h₁, h₂, h₃⟩, h₄, h₅⟩ := h
  simp only at h₁ h₂ h₃ h₄ h₅
  have hslice : start - log.start ≤ stop - log.start ∧
      stop - log.start ≤ log.value.length := by omega
  obtain ⟨src, hsrc, hlen, hget⟩ := Value.slice_eq_some hslice
  have hcopy : start - ptr ≤ stop - ptr ∧ stop - ptr ≤ result.imp.length ∧
      src.length = stop - ptr - (start - ptr) := by omega
  obtain ⟨v, hv, hbits, hvlen, hvget⟩ := Value.copyFromSlice_eq_some hcopy
  have hpos : ptr ≤ start ∧ ptr ≤ stop ∧ log.start ≤ start ∧ log.start ≤ stop := by omega
  refine ⟨v, ?_, hbits, hvlen, fun i hi => ?_⟩
  · simp only [loadPiece, if_pos hpos, hsrc]
    exact hv
  · rw [hvget i]
    by_cases hc : start ≤ ptr + i ∧ ptr + i < stop
    · have hidx : start - log.start + (i - (start - ptr)) = ptr + i - log.start := by omega
      rw [if_pos (show (⟨start, stop⟩ : Range ℕ).Contains (ptr + i) from hc), if_pos (by omega),
        hget _ (by omega), hidx]
    · rw [if_neg (show ¬ (⟨start, stop⟩ : Range ℕ).Contains (ptr + i) from hc), if_neg (by omega)]

theorem foldlM_loadPiece {ptr : ℕ} {pieces : List (Range ℕ × Log)} {result : Value}
    (hfits : ∀ p ∈ pieces, PieceFits ptr result.imp.length p)
    (hdisj : pieces.Pairwise fun a b => a.1.stop ≤ b.1.start) :
    ∃ v, pieces.foldlM (loadPiece ptr) result = some v ∧ v.bits = result.bits ∧
      v.imp.length = result.imp.length ∧
      ∀ i < result.imp.length,
        (∀ p ∈ pieces, p.1.Contains (ptr + i) →
          v.imp.getD i 0 = p.2.value.getD (ptr + i - p.2.start) 0) ∧
        ((∀ p ∈ pieces, ¬ p.1.Contains (ptr + i)) → v.imp.getD i 0 = result.imp.getD i 0) := by
  induction pieces generalizing result with
  | nil => exact ⟨result, rfl, rfl, rfl, fun i _ => ⟨by simp, fun _ => rfl⟩⟩
  | cons p pieces ih =>
    rw [List.pairwise_cons] at hdisj
    obtain ⟨v₁, hv₁, hbits₁, hlen₁, hget₁⟩ := loadPiece_eq (hfits p List.mem_cons_self)
    have hfits₁ : ∀ q ∈ pieces, PieceFits ptr v₁.imp.length q :=
      fun q hq => hlen₁ ▸ hfits q (List.mem_cons_of_mem _ hq)
    obtain ⟨v, hv, hbits, hlen, hget⟩ := ih hfits₁ hdisj.2
    refine ⟨v, ?_, hbits.trans hbits₁, hlen.trans hlen₁, fun i hi => ⟨?_, ?_⟩⟩
    · rw [List.foldlM_cons, hv₁]
      exact hv
    · intro q hq hc
      rcases List.mem_cons.mp hq with rfl | hq
      · -- a byte of the first piece is in none of the later ones, which leave it alone
        have hrest : ∀ p ∈ pieces, ¬ p.1.Contains (ptr + i) :=
          fun p hp hp' => absurd (hc.2.trans_le ((hdisj.1 p hp).trans hp'.1)) (lt_irrefl _)
        rw [(hget i (hlen₁ ▸ hi)).2 hrest, hget₁ i hi, if_pos hc]
      · exact (hget i (hlen₁ ▸ hi)).1 q hq hc
    · intro hnone
      rw [List.forall_mem_cons] at hnone
      rw [(hget i (hlen₁ ▸ hi)).2 hnone.2, hget₁ i hi, if_neg hnone.1]

theorem pieceFits_of_mem_range {m : MemoryInner} (h : m.WF) {ptr len : ℕ} {piece : Range ℕ × Log}
    (hp : piece ∈ m.cells.range ⟨ptr, ptr + len⟩) : PieceFits ptr len piece := by
  obtain ⟨s, log⟩ := piece
  obtain ⟨e, he, ho, rfl, rfl⟩ := (RangeMap.mem_range h.cells).mp hp
  have hcov := h.covered e he
  rw [Range.overlaps_iff] at ho
  simp only [RangeMap.entryRange] at ho
  constructor <;> simp only <;> omega

theorem loadImpl_eq {m : MemoryInner} (h : m.WF) (ptr : ℕ) (layout : Layout) :
    m.loadImpl ptr layout =
      if ptr + layout.bytes < 2 ^ 64 then some (m.read ptr layout) else none := by
  unfold loadImpl addU64
  split_ifs with hlt
  swap
  · rfl
  -- the loop starts from zeros and copies over them the pieces of the stores it finds
  let r : Range ℕ := ⟨ptr, ptr + layout.bytes⟩
  have hzero : (Value.zero layout.bits).imp.length = layout.bytes := List.length_replicate
  have hfits : ∀ p ∈ m.cells.range r, PieceFits ptr (Value.zero layout.bits).imp.length p :=
    fun p hp => hzero ▸ pieceFits_of_mem_range h hp
  obtain ⟨v, hv, hbits, hlen, hget⟩ := foldlM_loadPiece hfits (RangeMap.range_ordered h.cells r)
  rw [hzero] at hlen hget
  have hbyte : ∀ i < layout.bytes, v.imp.getD i 0 = m.byteAt (ptr + i) := by
    intro i hi
    have hcont : r.Contains (ptr + i) := ⟨by simp only [r]; omega, by simp only [r]; omega⟩
    unfold byteAt
    cases hl : m.cells.lookup (ptr + i) with
    | none =>
      -- a byte that was never stored keeps the zero it starts with
      have hnone : ∀ p ∈ m.cells.range r, ¬ p.1.Contains (ptr + i) := by
        intro p hp hc
        rw [(RangeMap.lookup_eq_some_iff_range h.cells hcont).mpr ⟨p.1, hp, hc⟩] at hl
        cases hl
      rw [(hget i hi).2 hnone]
      simp [Value.zero]
    | some log =>
      obtain ⟨s, hs, hc⟩ := (RangeMap.lookup_eq_some_iff_range h.cells hcont).mp hl
      exact (hget i hi).1 (s, log) hs hc
  have hveq : v = m.read ptr layout := by
    refine Value.ext hbits (List.ext_getElem (by simp [read, hlen]) fun i hi hi' => ?_)
    have hb := hbyte i (hlen ▸ hi)
    rw [List.getD_eq_getElem _ _ hi] at hb
    simpa [read] using hb
  exact hveq ▸ hv

end MemoryInner

/-- A memory that only allocations and stores have made. -/
structure Memory where
  inner : MemoryInner
  wf : inner.WF

namespace Memory

@[ext] theorem ext {m m' : Memory} (h : m.inner = m'.inner) : m = m' := by
  cases m
  cases m'
  simp only at h
  subst h
  rfl

def new : Memory := ⟨.new, MemoryInner.wf_new⟩

def write (m : Memory) (ptr : ℕ) (bytes : List Byte) : Memory :=
  ⟨m.inner.write ptr bytes, MemoryInner.wf_write m.wf ptr bytes⟩

def byteAt (m : Memory) (x : ℕ) : Byte := m.inner.byteAt x

def read (m : Memory) (ptr : ℕ) (layout : Layout) : Value := m.inner.read ptr layout

theorem wf_storeImpl {m : MemoryInner} (h : m.WF) {ptr : ℕ} {value : Value} {m' : MemoryInner}
    (hs : m.storeImpl ptr value = some m') : m'.WF := by
  rw [MemoryInner.storeImpl_eq] at hs
  split_ifs at hs
  exact Option.some.inj hs ▸ MemoryInner.wf_write h ptr value.imp

theorem cells_alloc {m m' : MemoryInner} {layout : Layout} {ptr : ℕ}
    (ha : m.alloc layout = some (ptr, m')) : m'.cells = m.cells := by
  simp only [MemoryInner.alloc] at ha
  split_ifs at ha
  simp only [Option.bind_eq_bind, Option.bind_eq_some_iff] at ha
  obtain ⟨_, -, _, -, ha⟩ := ha
  cases ha
  rfl

theorem wf_alloc {m : MemoryInner} (h : m.WF) {layout : Layout} {ptr : ℕ} {m' : MemoryInner}
    (ha : m.alloc layout = some (ptr, m')) : m'.WF :=
  have hcells := cells_alloc ha
  ⟨hcells ▸ h.cells, hcells ▸ h.covered⟩

def storeImpl (m : Memory) (ptr : ℕ) (value : Value) : Option Memory :=
  match h : m.inner.storeImpl ptr value with
  | none => none
  | some inner => some ⟨inner, wf_storeImpl m.wf h⟩

def loadImpl (m : Memory) (ptr : ℕ) (layout : Layout) : Option Value := m.inner.loadImpl ptr layout

def alloc (m : Memory) (layout : Layout) : Option (ℕ × Memory) :=
  match h : m.inner.alloc layout with
  | none => none
  | some (ptr, inner) => some (ptr, ⟨inner, wf_alloc m.wf h⟩)

theorem inner_alloc {m n : Memory} {layout : Layout} {ptr : ℕ}
    (h : m.alloc layout = some (ptr, n)) : m.inner.alloc layout = some (ptr, n.inner) := by
  unfold alloc at h
  split at h
  · cases h
  · rename_i hs
    cases h
    exact hs

theorem alloc_eq_none {m : Memory} {layout : Layout} (h : m.inner.alloc layout = none) :
    m.alloc layout = none := by
  rw [Option.eq_none_iff_forall_ne_some]
  intro r hr
  rw [inner_alloc (show m.alloc layout = some (r.1, r.2) from hr)] at h
  cases h

theorem byteAt_alloc {m n : Memory} {layout : Layout} {ptr : ℕ}
    (h : m.alloc layout = some (ptr, n)) (x : ℕ) : n.byteAt x = m.byteAt x := by
  simp only [byteAt, MemoryInner.byteAt, cells_alloc (inner_alloc h)]

theorem storeImpl_eq (m : Memory) (ptr : ℕ) (value : Value) :
    m.storeImpl ptr value =
      if ptr + value.imp.length < 2 ^ 64 then some (m.write ptr value.imp) else none := by
  have h := m.inner.storeImpl_eq ptr value
  unfold storeImpl
  split_ifs with hlt
  · rw [if_pos hlt] at h
    split
    · rename_i hn
      rw [hn] at h
      cases h
    · rename_i inner hs
      rw [hs, Option.some.injEq] at h
      exact congrArg some (Memory.ext h)
  · rw [if_neg hlt] at h
    split
    · rfl
    · rename_i inner hs
      rw [hs] at h
      cases h

theorem loadImpl_eq (m : Memory) (ptr : ℕ) (layout : Layout) :
    m.loadImpl ptr layout =
      if ptr + layout.bytes < 2 ^ 64 then some (m.read ptr layout) else none :=
  MemoryInner.loadImpl_eq m.wf ptr layout

theorem byteAt_write (m : Memory) (ptr : ℕ) (bytes : List Byte) (x : ℕ) :
    (m.write ptr bytes).byteAt x =
      if ptr ≤ x ∧ x < ptr + bytes.length then bytes.getD (x - ptr) 0 else m.byteAt x :=
  MemoryInner.byteAt_write m.wf ptr bytes x

theorem write_comm (m : Memory) {p q : ℕ} {a b : List Byte}
    (hd : ¬ (⟨p, p + a.length⟩ : Range ℕ).Overlaps ⟨q, q + b.length⟩) :
    (m.write p a).write q b = (m.write q b).write p a :=
  Memory.ext (MemoryInner.write_comm m.wf hd)

theorem read_congr {m m' : Memory} {ptr : ℕ} {layout : Layout}
    (h : ∀ x, ptr ≤ x → x < ptr + layout.bytes → m.byteAt x = m'.byteAt x) :
    m.read ptr layout = m'.read ptr layout := by
  refine Value.ext rfl (List.map_congr_left fun i hi => ?_)
  exact h _ (by omega) (by have := List.mem_range.mp hi; omega)

theorem loadImpl_congr {m m' : Memory} {ptr : ℕ} {layout : Layout}
    (h : ∀ x, (⟨ptr, ptr + layout.bytes⟩ : Range ℕ).Contains x → m'.byteAt x = m.byteAt x) :
    m'.loadImpl ptr layout = m.loadImpl ptr layout := by
  rw [loadImpl_eq, loadImpl_eq, read_congr fun x h₁ h₂ => h x ⟨h₁, h₂⟩]

theorem bits_of_loadImpl {m : Memory} {ptr : ℕ} {layout : Layout} {v : Value}
    (h : m.loadImpl ptr layout = some v) : v.bits = layout.bits := by
  rw [loadImpl_eq] at h
  split_ifs at h
  exact Option.some.inj h ▸ rfl

theorem read_write_imp (m : Memory) (ptr : ℕ) (value : Value) (layout : Layout)
    (h : value.imp.length = layout.bytes) :
    ((m.write ptr value.imp).read ptr layout).imp = value.imp := by
  refine List.ext_getElem (by simp [read, MemoryInner.read, h]) fun i hi hi' => ?_
  have hin : ptr ≤ ptr + i ∧ ptr + i < ptr + value.imp.length := by omega
  have hb := m.byteAt_write ptr value.imp (ptr + i)
  rw [if_pos hin, Nat.add_sub_cancel_left, List.getD_eq_getElem _ _ hi'] at hb
  simpa [read, MemoryInner.read, byteAt] using hb

end Memory
end AtomicSim
