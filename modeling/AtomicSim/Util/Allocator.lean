import Mathlib.Order.CompletePartialOrder
import Mathlib.Order.Interval.Set.Disjoint
import Mathlib.Algebra.Order.Group.Nat
import Mathlib.Algebra.Order.BigOperators.Group.List
import AtomicSim.Layout

namespace AtomicSim

/-- The layouts of the standard library. -/
structure AllocLayout where
  size : ℕ
  align : ℕ
  powerOfTwo : isPowerOfTwo align
  fits : size + align ≤ 2 ^ 63

namespace AllocLayout

variable (l : AllocLayout)

theorem align_pos : 0 < l.align := by
  obtain ⟨k, hk⟩ := eq_two_pow_of_isPowerOfTwo l.powerOfTwo
  rw [hk]
  exact Nat.two_pow_pos k

end AllocLayout

/-- `size` bytes from `start` on. -/
structure Block where
  start : ℕ
  size : ℕ
  deriving DecidableEq, Repr

def Block.range (b : Block) : Set ℕ := Set.Ico b.start (b.start + b.size)

/-- `System`, whose answer may depend on all the regions that it has given before. -/
structure System where
  alloc : List Block → AllocLayout → ℕ
  nonnull : ∀ regions l, alloc regions l ≠ 0
  aligned : ∀ regions l, l.align ∣ alloc regions l
  disjoint : ∀ regions l, ∀ r ∈ regions, Disjoint r.range (Block.range ⟨alloc regions l, l.size⟩)

/-- What is left of a block. -/
structure Arena where
  start : ℕ
  len : ℕ
  deriving DecidableEq, Repr

/-- What `alloc` has returned for a layout. -/
structure Issued where
  ptr : ℕ
  layout : AllocLayout

def Issued.range (x : Issued) : Set ℕ := Block.range ⟨x.ptr, x.layout.size⟩

/-- A thread, with the regions of `System` and what it has returned, the last ones first. -/
structure Allocator where
  arena : Arena
  regions : List Block
  issued : List Issued

def blockSize : ℕ := 2 ^ 20

def blockAlign : ℕ := 4096

def blockLayout : AllocLayout := ⟨blockSize, blockAlign, rfl, by decide⟩

/-- The distance to the next multiple of `align`. -/
def alignOffset (ptr align : ℕ) : ℕ := roundUp ptr align - ptr

namespace Allocator

/-- The arena of a new thread is null. -/
def new : Allocator := ⟨⟨0, 0⟩, [], []⟩

variable (system : System)

def systemAlloc (s : Allocator) (layout : AllocLayout) : ℕ × Allocator :=
  let result := system.alloc s.regions layout
  (result, { s with regions := ⟨result, layout.size⟩ :: s.regions })

/-- `GlobalAlloc::alloc`, where the assertion or the sum of `usize` may fail. -/
def alloc (s : Allocator) (layout : AllocLayout) : Option (ℕ × Allocator) :=
  if layout.align ≤ blockAlign then do
    let padding := alignOffset s.arena.start layout.align
    let used ← addU64 padding layout.size
    if used ≤ s.arena.len then
      let result := s.arena.start + padding
      some (result, { s with arena := ⟨result + layout.size, s.arena.len - used⟩ })
    else if layout.size < blockSize then
      let (result, s) := s.systemAlloc system blockLayout
      some (result, { s with arena := ⟨result + layout.size, blockSize - layout.size⟩ })
    else
      some (s.systemAlloc system layout)
  else none

def run (s : Allocator) : List AllocLayout → Option Allocator
  | [] => some s
  | layout :: layouts => do
    let (ptr, s) ← s.alloc system layout
    run { s with issued := ⟨ptr, layout⟩ :: s.issued } layouts

end Allocator

theorem add_alignOffset {ptr align : ℕ} (ha : 0 < align) :
    ptr + alignOffset ptr align = roundUp ptr align :=
  Nat.add_sub_cancel' (le_roundUp ha)

theorem alignOffset_lt {ptr align : ℕ} (ha : 0 < align) : alignOffset ptr align < align := by
  have hlt : roundUp ptr align < ptr + align := roundUp_lt ha
  unfold alignOffset
  omega

theorem AllocLayout.dvd_blockAlign {l : AllocLayout} (hl : l.align ≤ blockAlign) :
    l.align ∣ blockAlign := by
  obtain ⟨k, hk⟩ := eq_two_pow_of_isPowerOfTwo l.powerOfTwo
  rw [hk] at hl ⊢
  have hle : 2 ^ k ≤ 2 ^ 12 := hl
  exact pow_dvd_pow 2 ((Nat.pow_le_pow_iff_right Nat.one_lt_two).mp hle)

theorem Block.range_mono {a b : Block} (hstart : b.start ≤ a.start)
    (hend : a.start + a.size ≤ b.start + b.size) : a.range ⊆ b.range :=
  Set.Ico_subset_Ico hstart hend

def Arena.window (a : Arena) : Set ℕ := Block.range ⟨a.start, a.len⟩

theorem Arena.disjoint_window (start size len : ℕ) :
    Disjoint (Block.range ⟨start, size⟩) (window ⟨start + size, len⟩) :=
  Set.Ico_disjoint_Ico_same

namespace Allocator

variable {system : System} {s s' : Allocator} {layout : AllocLayout}

/-- What is left of the arena has not been returned. -/
structure Inv (s : Allocator) : Prop where
  nonnull : ∀ r ∈ s.regions, r.start ≠ 0
  window : s.arena.len = 0 ∨ ∃ r ∈ s.regions, s.arena.window ⊆ r.range
  fresh : ∀ x ∈ s.issued, Disjoint x.range s.arena.window
  inside : ∀ x ∈ s.issued, ∃ r ∈ s.regions, x.range ⊆ r.range
  aligned : ∀ x ∈ s.issued, x.layout.align ∣ x.ptr
  apart : s.issued.Pairwise fun x y => Disjoint x.range y.range

theorem inv_new : new.Inv where
  nonnull := by simp [new]
  window := .inl rfl
  fresh := by simp [new]
  inside := by simp [new]
  aligned := by simp [new]
  apart := List.Pairwise.nil

theorem Inv.issue {arena : Arena} {regions : List Block} {x : Issued} (hi : s.Inv)
    (hnonnull : ∀ r ∈ regions, r.start ≠ 0) (hregions : s.regions ⊆ regions)
    (hwindow : arena.len = 0 ∨ ∃ r ∈ regions, arena.window ⊆ r.range)
    (hfresh : ∀ y ∈ s.issued, Disjoint y.range (x.range ∪ arena.window))
    (hx : Disjoint x.range arena.window) (hinside : ∃ r ∈ regions, x.range ⊆ r.range)
    (haligned : x.layout.align ∣ x.ptr) : Inv ⟨arena, regions, x :: s.issued⟩ := by
  refine ⟨hnonnull, hwindow, ?_, ?_, ?_, ?_⟩
  · refine List.forall_mem_cons.mpr ⟨hx, fun y hy => ?_⟩
    exact (hfresh y hy).mono_right Set.subset_union_right
  · refine List.forall_mem_cons.mpr ⟨hinside, fun y hy => ?_⟩
    obtain ⟨r, hr, hsub⟩ := hi.inside y hy
    exact ⟨r, hregions hr, hsub⟩
  · exact List.forall_mem_cons.mpr ⟨haligned, hi.aligned⟩
  · refine List.pairwise_cons.mpr ⟨fun y hy => ?_, hi.apart⟩
    exact ((hfresh y hy).mono_right Set.subset_union_left).symm

theorem Inv.nonnull_systemAlloc (hi : s.Inv) :
    ∀ r ∈ (s.systemAlloc system layout).2.regions, r.start ≠ 0 :=
  List.forall_mem_cons.mpr ⟨system.nonnull s.regions layout, hi.nonnull⟩

theorem Inv.issued_disjoint (hi : s.Inv) : ∀ x ∈ s.issued,
    Disjoint x.range (Block.range ⟨(s.systemAlloc system layout).1, layout.size⟩) := by
  intro x hx
  obtain ⟨r, hr, hsub⟩ := hi.inside x hx
  exact (system.disjoint s.regions layout r hr).mono_left hsub

theorem Inv.window_disjoint (hi : s.Inv) :
    Disjoint s.arena.window (Block.range ⟨(s.systemAlloc system layout).1, layout.size⟩) := by
  rcases hi.window with hlen | ⟨r, hr, hsub⟩
  · simp [Arena.window, Block.range, hlen]
  · exact (system.disjoint s.regions layout r hr).mono_left hsub

/-- The result is cut off the front of the window, behind the padding. -/
theorem Inv.bump (hi : s.Inv) (hpos : 0 < layout.size)
    (hle : alignOffset s.arena.start layout.align + layout.size ≤ s.arena.len) :
    let padding := alignOffset s.arena.start layout.align
    let result := s.arena.start + padding
    Inv ⟨⟨result + layout.size, s.arena.len - (padding + layout.size)⟩, s.regions,
      ⟨result, layout⟩ :: s.issued⟩ := by
  intro padding result
  have hresult : Block.range ⟨result, layout.size⟩ ⊆ s.arena.window := by
    apply Block.range_mono <;> simp only [result, padding] <;> omega
  have hrest : Arena.window ⟨result + layout.size, s.arena.len - (padding + layout.size)⟩ ⊆
      s.arena.window := by
    apply Block.range_mono <;> simp only [result, padding] <;> omega
  obtain ⟨r, hr, hsub⟩ := hi.window.resolve_left (by omega)
  apply hi.issue hi.nonnull (List.Subset.refl _)
  · exact .inr ⟨r, hr, hrest.trans hsub⟩
  · intro y hy
    exact (hi.fresh y hy).mono_right (Set.union_subset hresult hrest)
  · exact Arena.disjoint_window _ _ _
  · exact ⟨r, hr, hresult.trans hsub⟩
  · show layout.align ∣ s.arena.start + alignOffset s.arena.start layout.align
    rw [add_alignOffset layout.align_pos]
    exact dvd_roundUp _ _

theorem Inv.block (hi : s.Inv) (hsize : layout.size < blockSize)
    (ha : layout.align ≤ blockAlign) :
    let result := (s.systemAlloc system blockLayout).1
    Inv ⟨⟨result + layout.size, blockSize - layout.size⟩,
      (s.systemAlloc system blockLayout).2.regions, ⟨result, layout⟩ :: s.issued⟩ := by
  intro result
  have hresult : Block.range ⟨result, layout.size⟩ ⊆ Block.range ⟨result, blockSize⟩ := by
    apply Block.range_mono
    · exact le_rfl
    · exact Nat.add_le_add_left hsize.le _
  have hrest : Arena.window ⟨result + layout.size, blockSize - layout.size⟩ ⊆
      Block.range ⟨result, blockSize⟩ := by
    apply Block.range_mono
    · exact Nat.le_add_right _ _
    · show result + layout.size + (blockSize - layout.size) ≤ result + blockSize
      omega
  apply hi.issue hi.nonnull_systemAlloc (List.subset_cons_self _ _)
  · exact .inr ⟨_, List.mem_cons_self, hrest⟩
  · intro y hy
    exact (hi.issued_disjoint y hy).mono_right (Set.union_subset hresult hrest)
  · exact Arena.disjoint_window _ _ _
  · exact ⟨_, List.mem_cons_self, hresult⟩
  · exact (AllocLayout.dvd_blockAlign ha).trans (system.aligned s.regions blockLayout)

theorem Inv.oversized (hi : s.Inv) :
    let result := (s.systemAlloc system layout).1
    Inv ⟨s.arena, (s.systemAlloc system layout).2.regions, ⟨result, layout⟩ :: s.issued⟩ := by
  intro result
  apply hi.issue hi.nonnull_systemAlloc (List.subset_cons_self _ _)
  · refine hi.window.imp_right ?_
    rintro ⟨r, hr, hsub⟩
    exact ⟨r, List.mem_cons_of_mem _ hr, hsub⟩
  · intro y hy
    exact Set.disjoint_union_right.mpr ⟨hi.issued_disjoint y hy, hi.fresh y hy⟩
  · exact hi.window_disjoint.symm
  · exact ⟨_, List.mem_cons_self, subset_rfl⟩
  · exact system.aligned s.regions layout

theorem addU64_padding (ptr : ℕ) (layout : AllocLayout) :
    addU64 (alignOffset ptr layout.align) layout.size =
      some (alignOffset ptr layout.align + layout.size) := by
  have hlt : alignOffset ptr layout.align < layout.align := alignOffset_lt layout.align_pos
  have hfits := layout.fits
  exact addU64_eq_some.mpr ⟨by omega, rfl⟩

variable (system) in
theorem Inv.alloc (hi : s.Inv) (hpos : 0 < layout.size) (ha : layout.align ≤ blockAlign) :
    ∃ ptr s', s.alloc system layout = some (ptr, s') ∧
      Inv { s' with issued := ⟨ptr, layout⟩ :: s'.issued } ∧ s'.issued = s.issued := by
  simp only [Allocator.alloc, if_pos ha, addU64_padding, Option.bind_eq_bind, Option.bind_some]
  split_ifs with hle hsize
  · exact ⟨_, _, rfl, hi.bump hpos hle, rfl⟩
  · exact ⟨_, _, rfl, hi.block hsize ha, rfl⟩
  · exact ⟨_, _, rfl, hi.oversized, rfl⟩

variable (system) in
theorem Inv.run {layouts : List AllocLayout} (hi : s.Inv)
    (hl : ∀ l ∈ layouts, 0 < l.size ∧ l.align ≤ blockAlign) :
    ∃ s', s.run system layouts = some s' ∧ s'.Inv ∧
      s'.issued.map Issued.layout = layouts.reverse ++ s.issued.map Issued.layout := by
  induction layouts generalizing s with
  | nil => exact ⟨s, rfl, hi, rfl⟩
  | cons layout layouts ih =>
    obtain ⟨⟨hpos, ha⟩, hl⟩ := List.forall_mem_cons.mp hl
    obtain ⟨ptr, s₁, halloc, hi₁, hissued⟩ := hi.alloc system hpos ha
    obtain ⟨s', hrun, hi', hmap⟩ := ih hi₁ hl
    refine ⟨s', ?_, hi', ?_⟩
    · rw [Allocator.run, halloc]
      exact hrun
    · rw [hmap, hissued]
      simp

theorem Inv.ptr_ne_zero (hi : s.Inv) {x : Issued} (hx : x ∈ s.issued) (hpos : 0 < x.layout.size) :
    x.ptr ≠ 0 := by
  obtain ⟨r, hr, hsub⟩ := hi.inside x hx
  have hmem : x.ptr ∈ r.range := hsub ⟨le_rfl, Nat.lt_add_of_pos_right hpos⟩
  exact ((Nat.pos_of_ne_zero (hi.nonnull r hr)).trans_le hmem.1).ne'

/-- Every request is answered with bytes of one region that no other answer has. -/
theorem alloc_disjoint (system : System) {layouts : List AllocLayout}
    (hl : ∀ l ∈ layouts, 0 < l.size ∧ l.align ≤ blockAlign) :
    ∃ s, new.run system layouts = some s ∧ s.issued.map Issued.layout = layouts.reverse ∧
      (∀ x ∈ s.issued, x.ptr ≠ 0 ∧ x.layout.align ∣ x.ptr ∧ ∃ r ∈ s.regions, x.range ⊆ r.range) ∧
      s.issued.Pairwise fun x y => Disjoint x.range y.range := by
  obtain ⟨s, hrun, hi, hmap⟩ := inv_new.run system hl
  replace hmap : s.issued.map Issued.layout = layouts.reverse := hmap.trans (List.append_nil _)
  refine ⟨s, hrun, hmap, fun x hx => ⟨?_, hi.aligned x hx, hi.inside x hx⟩, hi.apart⟩
  have hmem : x.layout ∈ layouts := by
    rw [← List.mem_reverse, ← hmap]
    exact List.mem_map_of_mem hx
  exact hi.ptr_ne_zero hx (hl x.layout hmem).1

end Allocator

/-- A system that goes behind everything that it has given. -/
def System.fresh : System where
  alloc regions l := l.align * ((regions.map fun r => r.start + r.size).sum + 1)
  nonnull regions l := Nat.mul_ne_zero l.align_pos.ne' (Nat.succ_ne_zero _)
  aligned regions l := Nat.dvd_mul_right _ _
  disjoint regions l r hr := by
    have hsum : r.start + r.size ≤ (regions.map fun r => r.start + r.size).sum :=
      List.single_le_sum (by simp) _ (List.mem_map_of_mem hr)
    refine Set.Ico_disjoint_Ico.mpr ?_
    refine (min_le_left _ _).trans ((hsum.trans (Nat.le_succ _)).trans ?_)
    exact (Nat.le_mul_of_pos_left _ l.align_pos).trans (le_max_right _ _)

/-- A new block, a request that is too large for one, and one from the block. -/
def mixedLayouts : List AllocLayout :=
  [⟨16, 8, rfl, by decide⟩, ⟨blockSize, blockAlign, rfl, by decide⟩, ⟨24, 16, rfl, by decide⟩]

theorem alloc_disjoint_mixed : ∃ s, Allocator.new.run .fresh mixedLayouts = some s ∧
    s.issued.map Issued.layout = mixedLayouts.reverse ∧
      s.issued.Pairwise fun x y => Disjoint x.range y.range := by
  obtain ⟨s, hrun, hmap, -, hapart⟩ := Allocator.alloc_disjoint .fresh
    (by decide : ∀ l ∈ mixedLayouts, 0 < l.size ∧ l.align ≤ blockAlign)
  exact ⟨s, hrun, hmap, hapart⟩

end AtomicSim
