import AtomicSim.Native.MemCopy
import AtomicSim.RaceFreedom
import AtomicSim.ThreadLocals

namespace AtomicSim

open Reorder (Commutes)

namespace Memory

def bump (m : Memory) (next : ℕ) : Memory := ⟨{ m.inner with next }, m.wf.cells, m.wf.covered⟩

theorem byteAt_bump (m : Memory) (next x : ℕ) : (m.bump next).byteAt x = m.byteAt x := rfl

theorem next_put (m : Memory) (ptr : ℕ) (w : Option (List Byte)) :
    (m.put ptr w).inner.next = m.inner.next := by
  cases w <;> rfl

theorem put_bump (m : Memory) (next ptr : ℕ) (w : Option (List Byte)) :
    (m.bump next).put ptr w = (m.put ptr w).bump next := by
  cases w <;> rfl

theorem alloc_eq {m : Memory} {layout : Layout} {ptr next : ℕ}
    (h : m.inner.alloc layout = some (ptr, { m.inner with next })) :
    m.alloc layout = some (ptr, m.bump next) := by
  unfold alloc
  split
  · rename_i hn
    cases hn.symm.trans h
  · rename_i hs
    cases hs.symm.trans h
    rfl

theorem alloc_bump {m n : Memory} {layout : Layout} {ptr : ℕ}
    (h : m.alloc layout = some (ptr, n)) {m' : Memory} (hm : m'.inner.next = m.inner.next) :
    m'.alloc layout = some (ptr, m'.bump n.inner.next) := by
  have hinner := inner_alloc h
  apply alloc_eq
  simp only [MemoryInner.alloc, hm] at hinner ⊢
  split_ifs at hinner ⊢
  obtain ⟨stop, hstop, hinner⟩ := Option.bind_eq_some_iff.mp hinner
  obtain ⟨next, hnext, hinner⟩ := Option.bind_eq_some_iff.mp hinner
  obtain ⟨rfl, hn⟩ := Prod.mk.inj (Option.some.inj hinner)
  rw [← hn]
  simp only [hstop, hnext, Option.bind_eq_bind, Option.bind_some]

end Memory

/-- `f` looks only at the bump pointer, and changes nothing else. -/
def Bumps (f : Memory → Option (Value × Memory)) : Prop :=
  ∀ m v n, f m = some (v, n) → ∃ next, ∀ m', m'.inner.next = m.inner.next →
    f m' = some (v, m'.bump next)

theorem bumps_alloc (layout : Layout) :
    Bumps fun m => (m.alloc layout).map fun (ptr, m) => (Process.addr ptr, m) := by
  intro m v n h
  obtain ⟨⟨ptr, n'⟩, ha, hv⟩ := Option.map_eq_some_iff.mp h
  cases hv
  refine ⟨n.inner.next, fun m' hm => ?_⟩
  beta_reduce
  rw [Memory.alloc_bump ha hm]
  rfl

theorem commutes_of_bumps {ι : Type*} {act : ι → Memory → Option (Value × Memory)} {i j : ι}
    {r : Range ℕ} (hi : Confined r (act i)) (hj : Bumps (act j)) : Commutes act i j := by
  intro m v w m'
  constructor
  · rintro ⟨m₁, h₁, h₂⟩
    obtain ⟨a, -, hput⟩ := hi m v m₁ h₁
    obtain ⟨next, hbump⟩ := hj m₁ w m' h₂
    have hm₁ : m₁ = m.put r.start a := by
      have h := h₁.symm.trans (hput m fun _ _ => rfl)
      simpa using h
    have hm' : m' = m₁.bump next := by
      have h := h₂.symm.trans (hbump m₁ rfl)
      simpa using h
    refine ⟨m.bump next, hbump m ?_, ?_⟩
    · rw [hm₁, Memory.next_put]
    · rw [hput _ fun x _ => Memory.byteAt_bump m next x, Memory.put_bump, ← hm₁, ← hm']
  · rintro ⟨m₁, h₁, h₂⟩
    obtain ⟨next, hbump⟩ := hj m w m₁ h₁
    obtain ⟨a, -, hput⟩ := hi m₁ v m' h₂
    have hm₁ : m₁ = m.bump next := by
      have h := h₁.symm.trans (hbump m rfl)
      simpa using h
    have hm' : m' = m₁.put r.start a := by
      have h := h₂.symm.trans (hput m₁ fun _ _ => rfl)
      simpa using h
    refine ⟨m.put r.start a, hput m fun x _ => ?_, ?_⟩
    · rw [hm₁, Memory.byteAt_bump]
    · rw [hbump _ (Memory.next_put m r.start a), ← Memory.put_bump, ← hm₁, ← hm']

/-- What the threads decode: instructions as before, and allocations, whose sizes may depend on
earlier thunks. -/
inductive Op where
  | instr (a : Instr)
  | alloc (deps : List Thunk) (layout : List Value → Option Layout)

namespace Op

def args : Op → ThunkArgs
  | instr a => a.args
  | alloc deps layout => ⟨none, .none, deps, fun memory args => (layout args).bind fun layout =>
      (memory.alloc layout).map fun (ptr, memory) => (Process.addr ptr, memory)⟩

def isAllocation : Op → Bool
  | instr _ => false
  | alloc _ _ => true

theorem bumps {op : Op} (h : op.isAllocation) (value : ThreadId → ℕ → Option Value) :
    Bumps (callWith args value op) := by
  cases op with
  | instr a => cases h
  | alloc deps layout =>
    have heq : callWith args value (alloc deps layout) = fun m =>
        ((deps.mapM (Thunk.look value)).bind layout).bind fun layout =>
          (m.alloc layout).map fun (ptr, m) => (Process.addr ptr, m) :=
      funext fun m => (Option.bind_assoc _ _ _).symm
    rw [heq]
    cases (deps.mapM (Thunk.look value)).bind layout with
    | none =>
      intro m v n h
      cases h
    | some layout => exact bumps_alloc layout

end Op

/-- Nothing that has to be waited for: no access, and only constants as operands. -/
def ThunkInner.Constant (c : ThunkInner) : Prop :=
  c.address = none ∧ ∀ d ∈ c.deps, ∃ v, d = .constant v

instance : DecidablePred fun d : Thunk => ∃ v, d = .constant v
  | .constant v => isTrue ⟨v, rfl⟩
  | .cell _ _ => isFalse fun ⟨_, h⟩ => Thunk.noConfusion h

instance (c : ThunkInner) : Decidable c.Constant := inferInstanceAs (Decidable (_ ∧ _))

def ThunkInner.Allocates (c : ThunkInner) : Prop :=
  ∃ op : Op, op.isAllocation ∧ c = op.args.thunk c.threadid c.seq

theorem ThunkInner.Allocates.isMemory {c : ThunkInner} (h : c.Allocates) : c.isMemory = false := by
  obtain ⟨op, hop, hc⟩ := h
  rw [hc]
  cases op with
  | instr a => cases hop
  | alloc deps layout => rfl

/-- The thunks before `c` that have constant operands are resolved. -/
def AfterConstants (p : Process) (c : ThunkInner) : Prop :=
  ∀ b ∈ p.before c, b.Constant → p.value c.threadid b.seq ≠ none

section Constants

variable {t : ThreadId} {c : ThunkInner}

theorem value_of_constant {s s' : Scan} {brk : Bool} (hv : Visited s c s' brk) (hc : c.Constant) :
    s'.process.value c.threadid c.seq ≠ none := by
  have hmem := isMemory_of_address hc.1
  have hready : ¬ ∃ d ∈ c.deps, d.tryGet s.process = none := by
    rintro ⟨d, hd, hn⟩
    obtain ⟨v, rfl⟩ := hc.2 d hd
    cases hn
  cases hv with
  | pure _ hs =>
    cases hs with
    | stuck h => exact h.resolve_left hready
    | resolved _ _ _ _ =>
      rw [Process.value_resolve_self]
      exact Option.some_ne_none _
  | unknown hm _ => exact absurd hm (Bool.not_eq_true _ ▸ hmem)
  | aliased hr _ | direct hr _ _ _ | blocked hr _ _ _ | offered hr _ _ _ =>
    exact absurd (isMemory_of_range hr) (Bool.not_eq_true _ ▸ hmem)

theorem visits_afterConstants {done rest : List ThunkInner} {s : Scan}
    (h : LoopInv (fun _ _ => True) (fun _ => True) t done rest s.process s.pending)
    (hdone : ∀ b ∈ done, b.Constant → s.process.value t b.seq ≠ none) :
    ∀ v ∈ s.visits rest, AfterConstants v.1 v.2 := by
  induction rest generalizing done s with
  | nil => exact fun v hv => absurd hv List.not_mem_nil
  | cons c rest ih =>
    intro v hv
    rw [Scan.visits, List.mem_cons] at hv
    rcases hv with rfl | hv
    · rw [AfterConstants, h.before, h.threadid]
      exact hdone
    · cases hvisit : s.visit c with
      | none =>
        rw [hvisit] at hv
        exact absurd hv List.not_mem_nil
      | some r =>
        obtain ⟨s₁, brk⟩ := r
        rw [hvisit] at hv
        cases brk with
        | true => exact absurd hv List.not_mem_nil
        | false =>
          have hvis := visited_of_visit hvisit
          refine ih ((h.visit (fun _ _ _ _ _ => trivial) trivial hvis).2.2 rfl)
            (fun b hb hconst => ?_) v hv
          rcases List.mem_append.mp hb with hb | hb
          · obtain ⟨w, hw⟩ := Option.ne_none_iff_exists'.mp (hdone b hb hconst)
            rw [(visited_extends hvis).value hw]
            exact Option.some_ne_none w
          · cases List.mem_singleton.mp hb
            rw [← h.threadid]
            exact value_of_constant hvis hconst

theorem Reachable.afterConstants {c : Config} (h : Reachable (fun _ _ => True) c) :
    Reachable AfterConstants c :=
  h.of_visiting (fun _ _ _ _ _ => trivial) (fun _ _ _ => trivial) (fun _ _ => trivial)
    (fun hloop => visits_afterConstants hloop fun _ hb => absurd hb List.not_mem_nil) trivial

theorem clears_constant : Clears AfterConstants fun _ b _ => b.Constant := by
  intro p q b c _ he _ _ hb hv hconst
  obtain ⟨q', hq', hG⟩ := he.cond
  refine hG b (hq'.before ▸ hb) hconst ?_
  rw [hq'.value]
  exact hv

end Constants

/-- An allocation that has an operand to wait for is resolved before the later allocations and
accesses of its thread. -/
def Process.AllocatesInOrder (p : Process) : Prop :=
  p.InOrder fun _ b c => b.Allocates ∧ ¬ b.Constant ∧ (c.Allocates ∨ c.isMemory)

section AllocatesInOrder

variable {p : Process} {c : ThunkInner}

theorem Process.allocatesInOrder_of_constant
    (h : ∀ t, ∀ b ∈ (p.flows t).decoded, b.Allocates → b.Constant) : p.AllocatesInOrder := by
  intro k _ x _ c _ j _ b hb hP
  exact absurd (h _ b (List.mem_of_getElem? hb) hP.1) hP.2.1

/-- With the operands that it has got, the thunk does nothing to the bump pointer. -/
def Process.LeavesHeap (p : Process) (c : ThunkInner) : Prop :=
  ∃ r ∈ (c.deps.mapM (Thunk.tryGet p)).bind (c.compute (Memory.new.bump 0)), r.2.inner.next = 0

instance (p : Process) (c : ThunkInner) : Decidable (p.LeavesHeap c) :=
  inferInstanceAs (Decidable (∃ r ∈ _, _))

theorem Process.LeavesHeap.not_allocates (h : p.LeavesHeap c) : ¬ c.Allocates := by
  rintro ⟨op, hop, hc⟩
  obtain ⟨r, hr, hzero⟩ := h
  obtain ⟨args, -, hr⟩ := Option.bind_eq_some_iff.mp hr
  cases op with
  | instr a => cases hop
  | alloc deps layout =>
    rw [hc] at hr
    obtain ⟨layout, -, hr⟩ := Option.bind_eq_some_iff.mp hr
    obtain ⟨⟨ptr, n⟩, ha, rfl⟩ := Option.map_eq_some_iff.mp hr
    obtain ⟨-, hnext, -⟩ := Memory.alloc_next ha
    have hzero' : n.inner.next = 0 := hzero
    rw [heapGuard] at hnext
    omega

theorem Reachable.pairwise_allocates {c : Config} (h : Reachable (fun _ _ => True) c)
    (ha : c.process.AllocatesInOrder) (hn : c.process.trace.Nodup) :
    c.process.trace.Pairwise fun x y => x.1 = y.1 → y.2 < x.2 →
      ∀ b ∈ (c.process.flows y.1).decoded[y.2]?, ∀ d ∈ (c.process.flows x.1).decoded[x.2]?,
        b.Allocates → ¬ (d.Allocates ∨ d.isMemory) := by
  have hconst := pairwise_trace (h.afterConstants.inOrder clears_constant) hn
  refine (hconst.and (pairwise_trace ha hn)).imp ?_
  rintro x y ⟨hconst, horder⟩ heq hlt b hb d hd hal hd'
  by_cases hb' : b.Constant
  · exact hconst heq hlt b hb d hd hb'
  · exact horder heq hlt b hb d hd ⟨hal, hb', hd'⟩

end AllocatesInOrder

end AtomicSim
