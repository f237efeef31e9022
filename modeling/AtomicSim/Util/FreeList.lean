import Mathlib.Algebra.Order.Group.Multiset
import Mathlib.Algebra.BigOperators.Group.List.Basic
import AtomicSim.Layout

namespace AtomicSim

/-- A handle, with the number of the call of `alloc` that it comes from. -/
structure Frc where
  ptr : ℕ
  id : ℕ
  deriving DecidableEq, Repr

/-- A value may hold handles itself. -/
structure FrcValue (β : Type) where
  data : β
  handles : List Frc

structure FrcInner (β : Type) where
  refcount : ℕ
  value : FrcValue β

/-- The slots, which are never given back, and `free` with its last entry first. -/
structure FreeList (β : Type) where
  slots : List (FrcInner β)
  free : List ℕ

variable {β : Type}

namespace FreeList

def new : FreeList β := ⟨[], []⟩

/-- `Drop for Frc`; a handle to no slot would be dangling. -/
def drop (s : FreeList β) (h : Frc) : Option (FreeList β) := do
  let inner ← s.slots[h.ptr]?
  if inner.refcount = 0 then some { s with free := h.ptr :: s.free }
  else some { s with slots := s.slots.set h.ptr { inner with refcount := inner.refcount - 1 } }

/-- `Clone for Frc`; the count may overflow. -/
def clone (s : FreeList β) (h : Frc) : Option (FreeList β) := do
  let inner ← s.slots[h.ptr]?
  let refcount ← addU64 inner.refcount 1
  some { s with slots := s.slots.set h.ptr { inner with refcount } }

def alloc (s : FreeList β) (value : FrcValue β) : Option (ℕ × FreeList β) :=
  match s.free with
  | ptr :: free => do
    let inner ← s.slots[ptr]?
    let s ← inner.value.handles.foldlM drop { s with free }
    let inner ← s.slots[ptr]?
    some (ptr, { s with slots := s.slots.set ptr { inner with value } })
  | [] => some (s.slots.length, { s with slots := s.slots ++ [⟨0, value⟩] })

theorem alloc_of_nil {s : FreeList β} (hfree : s.free = []) (value : FrcValue β) :
    s.alloc value = some (s.slots.length, { s with slots := s.slots ++ [⟨0, value⟩] }) := by
  rw [alloc, hfree]

def deref (s : FreeList β) (h : Frc) : Option (FrcValue β) :=
  (s.slots[h.ptr]?).map FrcInner.value

def count (live : Multiset Frc) (p : ℕ) : ℕ := live.countP fun h => h.ptr = p

@[simp] theorem count_cons (h : Frc) (live : Multiset Frc) (p : ℕ) :
    count (h ::ₘ live) p = count live p + if h.ptr = p then 1 else 0 :=
  Multiset.countP_cons _ _ _

theorem count_cons_of_ne {h : Frc} {p : ℕ} (hne : h.ptr ≠ p) (live : Multiset Frc) :
    count (h ::ₘ live) p = count live p := by
  rw [count_cons, if_neg hne, Nat.add_zero]

theorem count_cons_eq_zero {h : Frc} {live : Multiset Frc} (hpos : 0 < count live h.ptr) (p : ℕ) :
    count (h ::ₘ live) p = 0 ↔ count live p = 0 := by
  by_cases hp : h.ptr = p
  · subst hp
    rw [count_cons, if_pos rfl]
    omega
  · rw [count_cons_of_ne hp]

theorem count_pos {live : Multiset Frc} {h : Frc} (hh : h ∈ live) : 0 < count live h.ptr :=
  Multiset.countP_pos.mpr ⟨h, hh, rfl⟩

/-- The list and the counts fit the live handles. -/
structure Counts (s : FreeList β) (live : Multiset Frc) : Prop where
  nodup : s.free.Nodup
  valid : ∀ h ∈ live, h.ptr < s.slots.length
  free : ∀ p, p ∈ s.free ↔ p < s.slots.length ∧ count live p = 0
  refcount : ∀ p inner, s.slots[p]? = some inner → inner.refcount = count live p - 1

variable {s s' : FreeList β} {live : Multiset Frc} {h : Frc}

def values (s : FreeList β) : List (FrcValue β) := s.slots.map FrcInner.value

theorem map_set_refcount {slots : List (FrcInner β)} {p : ℕ} {inner : FrcInner β}
    (hp : slots[p]? = some inner) (refcount : ℕ) :
    (slots.set p { inner with refcount }).map FrcInner.value = slots.map FrcInner.value := by
  obtain ⟨hlt, rfl⟩ := List.getElem?_eq_some_iff.mp hp
  have hp' : p < (slots.map FrcInner.value).length := by simpa using hlt
  have hself : (slots.map FrcInner.value).set p (slots.map FrcInner.value)[p] = _ :=
    List.set_getElem_self hp'
  rw [List.map_set]
  simpa using hself

theorem Counts.getElem? (hc : s.Counts live) (hh : h ∈ live) :
    ∃ inner, s.slots[h.ptr]? = some inner :=
  ⟨_, List.getElem?_eq_getElem (hc.valid h hh)⟩

theorem Counts.set {live' : Multiset Frc} {p : ℕ} {inner : FrcInner β} (hc : s.Counts live)
    (hzero : ∀ q, count live' q = 0 ↔ count live q = 0)
    (hsame : ∀ q, p ≠ q → count live' q = count live q)
    (hrc : inner.refcount = count live' p - 1) :
    Counts { s with slots := s.slots.set p inner } live' := by
  have hlen : (s.slots.set p inner).length = s.slots.length := List.length_set
  constructor
  · exact hc.nodup
  · intro h hh
    have hpos : 0 < count live h.ptr :=
      Nat.pos_of_ne_zero fun hcount => (count_pos hh).ne' ((hzero h.ptr).mpr hcount)
    -- another handle to the same slot is as good
    obtain ⟨h', hh', heq⟩ := Multiset.countP_pos.mp hpos
    exact hlen ▸ heq ▸ hc.valid h' hh'
  · intro q
    show q ∈ s.free ↔ q < (s.slots.set p inner).length ∧ count live' q = 0
    rw [hlen, hzero, hc.free]
  · intro q inner' hq
    rw [List.getElem?_set] at hq
    split_ifs at hq with heq
    · subst heq
      rw [← Option.some.inj hq, hrc]
    · rw [hsame q heq]
      exact hc.refcount q inner' hq

theorem Counts.drop (hc : s.Counts (h ::ₘ live)) :
    ∃ s', s.drop h = some s' ∧ s'.Counts live ∧ s'.values = s.values := by
  obtain ⟨inner, hinner⟩ := hc.getElem? (Multiset.mem_cons_self h live)
  have hlt : h.ptr < s.slots.length := hc.valid h (Multiset.mem_cons_self h live)
  have hrc : inner.refcount = count live h.ptr := by simpa using hc.refcount h.ptr inner hinner
  have hnotin : h.ptr ∉ s.free := by
    intro hmem
    simpa using ((hc.free h.ptr).mp hmem).2
  -- the count is one less than the handles, so that it is 0 for the last one
  by_cases hzero : inner.refcount = 0
  · refine ⟨{ s with free := h.ptr :: s.free }, ?_, ?_, rfl⟩
    · simp [FreeList.drop, hinner, hzero]
    · constructor
      · exact List.nodup_cons.mpr ⟨hnotin, hc.nodup⟩
      · exact fun h' hh' => hc.valid h' (Multiset.mem_cons_of_mem hh')
      · intro p
        have hp := hc.free p
        rw [count_cons] at hp
        rw [List.mem_cons, hp]
        by_cases heq : h.ptr = p
        · subst heq
          simp [hlt, ← hrc, hzero]
        · simp [heq, Ne.symm heq]
      · intro p inner' hp
        have hp' := hc.refcount p inner' hp
        rw [count_cons] at hp'
        split_ifs at hp' with heq
        · subst heq
          omega
        · exact hp'
  · refine ⟨{ s with slots := s.slots.set h.ptr { inner with refcount := inner.refcount - 1 } },
      ?_, hc.set ?_ ?_ ?_, map_set_refcount hinner (inner.refcount - 1)⟩
    · simp [FreeList.drop, hinner, hzero]
    · have hpos : 0 < count live h.ptr := by omega
      exact fun q => (count_cons_eq_zero hpos q).symm
    · exact fun q heq => (count_cons_of_ne heq live).symm
    · rw [← hrc]

theorem Counts.dropAll {handles : List Frc} (hc : s.Counts (handles + live)) :
    ∃ s', handles.foldlM FreeList.drop s = some s' ∧ s'.Counts live ∧ s'.values = s.values := by
  induction handles generalizing s with
  | nil => exact ⟨s, rfl, by simpa using hc, rfl⟩
  | cons h handles ih =>
    rw [← Multiset.cons_coe, Multiset.cons_add] at hc
    obtain ⟨s₁, hs₁, hc₁, hv₁⟩ := hc.drop
    obtain ⟨s', hs', hc', hv'⟩ := ih hc₁
    refine ⟨s', ?_, hc', hv'.trans hv₁⟩
    rw [List.foldlM_cons, hs₁]
    exact hs'

theorem Counts.clone (hc : s.Counts live) (hh : h ∈ live) (hs : s.clone h = some s') :
    s'.Counts (h ::ₘ live) ∧ s'.values = s.values := by
  obtain ⟨inner, hinner⟩ := hc.getElem? hh
  have hrc := hc.refcount h.ptr inner hinner
  have hpos := count_pos hh
  simp only [FreeList.clone, hinner, Option.bind_eq_bind, Option.bind_some,
    Option.bind_eq_some_iff, addU64_eq_some] at hs
  obtain ⟨refcount, ⟨-, rfl⟩, hs⟩ := hs
  cases hs
  refine ⟨hc.set ?_ ?_ ?_, map_set_refcount hinner (inner.refcount + 1)⟩
  · exact count_cons_eq_zero hpos
  · exact fun q heq => count_cons_of_ne heq live
  · rw [count_cons, if_pos rfl]
    show inner.refcount + 1 = _
    omega

theorem Counts.pop {ptr : ℕ} {free : List ℕ} (hc : s.Counts live) (hs : s.free = ptr :: free)
    (id : ℕ) : Counts { s with free } (⟨ptr, id⟩ ::ₘ live) := by
  have hnodup := hc.nodup
  rw [hs, List.nodup_cons] at hnodup
  -- the count of a free slot is still 0, which is right for one handle
  obtain ⟨hlt, hzero⟩ := (hc.free ptr).mp (by simp [hs])
  constructor
  · exact hnodup.2
  · intro h' hh'
    rcases Multiset.mem_cons.mp hh' with rfl | hh'
    · exact hlt
    · exact hc.valid h' hh'
  · intro p
    have hp := hc.free p
    rw [hs, List.mem_cons] at hp
    show p ∈ free ↔ p < s.slots.length ∧ _
    rw [count_cons]
    by_cases heq : ptr = p
    · subst heq
      simp [hnodup.1]
    · simpa [heq, Ne.symm heq] using hp
  · intro p inner hp
    have hrc := hc.refcount p inner hp
    rw [count_cons]
    by_cases heq : ptr = p
    · subst heq
      rw [if_pos rfl]
      omega
    · rw [if_neg heq]
      exact hrc

theorem Counts.push (hc : s.Counts live) (value : FrcValue β) (id : ℕ) :
    Counts { s with slots := s.slots ++ [⟨0, value⟩] } (⟨s.slots.length, id⟩ ::ₘ live) := by
  have hzero : count live s.slots.length = 0 := by
    refine Multiset.countP_eq_zero.mpr fun h hh heq => ?_
    exact (hc.valid h hh).ne heq
  constructor
  · exact hc.nodup
  · intro h' hh'
    rw [List.length_append, List.length_singleton]
    rcases Multiset.mem_cons.mp hh' with rfl | hh'
    · exact Nat.lt_succ_self _
    · exact (hc.valid h' hh').trans (Nat.lt_succ_self _)
  · intro p
    rw [List.length_append, List.length_singleton, count_cons]
    show p ∈ s.free ↔ p < s.slots.length + 1 ∧
      count live p + (if s.slots.length = p then 1 else 0) = 0
    rw [hc.free p]
    by_cases heq : s.slots.length = p
    · rw [if_pos heq]
      omega
    · rw [if_neg heq, Nat.add_zero]
      refine and_congr_left fun _ => ?_
      omega
  · intro p inner hp
    rw [count_cons]
    show _ = count live p + (if s.slots.length = p then 1 else 0) - 1
    by_cases heq : s.slots.length = p
    · subst heq
      rw [List.getElem?_append_right le_rfl, Nat.sub_self, List.getElem?_cons_zero,
        Option.some.injEq] at hp
      rw [if_pos rfl, hzero, ← hp]
    · rw [if_neg heq, Nat.add_zero]
      refine hc.refcount p inner ?_
      have hlt := (List.getElem?_eq_some_iff.mp hp).1
      rw [List.length_append, List.length_singleton] at hlt
      rwa [List.getElem?_append_left (by omega)] at hp

theorem Counts.write {ptr : ℕ} {inner : FrcInner β} (hc : s.Counts live)
    (hp : s.slots[ptr]? = some inner) (value : FrcValue β) :
    Counts { s with slots := s.slots.set ptr { inner with value } } live :=
  hc.set (fun _ => Iff.rfl) (fun _ _ => rfl) (hc.refcount ptr inner hp)

end FreeList

/-- The list with the handles that are held outside of it, and the values that `alloc` has been
called with. -/
structure FrcState (β : Type) where
  list : FreeList β
  held : Multiset Frc
  log : List (FrcValue β)

/-- `alloc` moves handles that are held into the new value; the old value of a reused slot is
dropped by `alloc` itself. -/
inductive FrcOp (β : Type) where
  | alloc (data : β) (handles : List Frc)
  | clone (h : Frc)
  | drop (h : Frc)

namespace FrcState

open FreeList

def new : FrcState β := ⟨.new, 0, []⟩

def inside (values : List (FrcValue β)) : Multiset Frc :=
  (values.map fun v => (v.handles : Multiset Frc)).sum

/-- All handles that have not been dropped, those in the values of free slots included. -/
def live (s : FrcState β) : Multiset Frc := s.held + inside s.list.values

def act (s : FrcState β) : FrcOp β → Option (FrcState β)
  | .alloc data handles => (s.list.alloc ⟨data, handles⟩).map fun (ptr, list) =>
    ⟨list, ⟨ptr, s.log.length⟩ ::ₘ (s.held - handles), s.log ++ [⟨data, handles⟩]⟩
  | .clone h => (s.list.clone h).map fun list => { s with list, held := h ::ₘ s.held }
  | .drop h => (s.list.drop h).map fun list => { s with list, held := s.held.erase h }

/-- A program moves and drops what it holds, and clones what is alive. -/
def Allowed (s : FrcState β) : FrcOp β → Prop
  | .alloc _ handles => handles ≤ s.held
  | .clone h => h ∈ s.live
  | .drop h => h ∈ s.held

instance (s : FrcState β) : DecidablePred s.Allowed
  | .alloc _ handles => inferInstanceAs (Decidable ((handles : Multiset Frc) ≤ s.held))
  | .clone h => inferInstanceAs (Decidable (h ∈ s.live))
  | .drop h => inferInstanceAs (Decidable (h ∈ s.held))

def run (s : FrcState β) : List (FrcOp β) → Option (FrcState β)
  | [] => some s
  | op :: ops => if s.Allowed op then (s.act op).bind fun s' => s'.run ops else none

/-- The handles are counted, and each has the value that it was allocated with. -/
structure Inv (s : FrcState β) : Prop where
  counts : s.list.Counts s.live
  value : ∀ h ∈ s.live, ∃ v, s.log[h.id]? = some v ∧ s.list.values[h.ptr]? = some v

theorem inv_new : (new : FrcState β).Inv where
  counts := ⟨List.nodup_nil, by simp [new, live, inside, values, FreeList.new],
    by simp [new, FreeList.new], by simp [new, FreeList.new]⟩
  value := by simp [new, live, inside, values, FreeList.new]

variable {s s' : FrcState β}

theorem inside_append (vs : List (FrcValue β)) (v : FrcValue β) :
    inside (vs ++ [v]) = inside vs + v.handles := by
  simp [inside]

theorem inside_cons (v : FrcValue β) (vs : List (FrcValue β)) :
    inside (v :: vs) = v.handles + inside vs := by
  simp [inside]

theorem inside_set {vs : List (FrcValue β)} {p : ℕ} {old : FrcValue β} (hp : vs[p]? = some old)
    (v : FrcValue β) : inside (vs.set p v) + old.handles = inside vs + v.handles := by
  induction vs generalizing p with
  | nil => simp at hp
  | cons w vs ih =>
    cases p with
    | zero =>
      rw [List.getElem?_cons_zero, Option.some.injEq] at hp
      subst hp
      rw [List.set_cons_zero, inside_cons, inside_cons, add_right_comm,
        add_comm (v.handles : Multiset Frc), add_right_comm]
    | succ p =>
      have hvs := ih (by simpa using hp)
      rw [List.set_cons_succ, inside_cons, inside_cons, add_assoc, hvs, add_assoc]

theorem Inv.clone {h : Frc} (hi : s.Inv) (ha : s.Allowed (.clone h))
    (hact : s.act (.clone h) = some s') : s'.Inv := by
  obtain ⟨list, hs, rfl⟩ := Option.map_eq_some_iff.mp hact
  obtain ⟨hc, hv⟩ := hi.counts.clone ha hs
  have hlive : live { s with list, held := h ::ₘ s.held } = h ::ₘ s.live := by
    simp only [live, hv, Multiset.cons_add]
  constructor
  · rw [hlive]
    exact hc
  · intro h' hh'
    rw [hlive] at hh'
    show ∃ v, s.log[h'.id]? = some v ∧ list.values[h'.ptr]? = some v
    rw [hv]
    rcases Multiset.mem_cons.mp hh' with rfl | hh'
    · exact hi.value h' ha
    · exact hi.value h' hh'

theorem live_of_held {h : Frc} (hh : h ∈ s.held) :
    s.live = h ::ₘ (s.held.erase h + inside s.list.values) := by
  rw [← Multiset.cons_add, Multiset.cons_erase hh]
  rfl

theorem Inv.drop {h : Frc} (hi : s.Inv) (ha : s.Allowed (.drop h))
    (hact : s.act (.drop h) = some s') : s'.Inv := by
  obtain ⟨list, hs, rfl⟩ := Option.map_eq_some_iff.mp hact
  have hc := hi.counts
  rw [live_of_held ha] at hc
  obtain ⟨list', hs', hc', hv⟩ := hc.drop
  obtain rfl : list' = list := Option.some.inj (hs'.symm.trans hs)
  rw [← hv] at hc'
  refine ⟨hc', fun h' hh' => ?_⟩
  show ∃ v, s.log[h'.id]? = some v ∧ list'.values[h'.ptr]? = some v
  have hmem : h' ∈ s.live := by
    rw [live_of_held ha, ← hv]
    exact Multiset.mem_cons_of_mem hh'
  rw [hv]
  exact hi.value h' hmem

theorem Inv.alloc_of {list : FreeList β} {ptr : ℕ} {v : FrcValue β} (hi : s.Inv)
    (hc : list.Counts (⟨ptr, s.log.length⟩ ::ₘ
      (s.held - (v.handles : Multiset Frc) + inside list.values)))
    (hnew : list.values[ptr]? = some v)
    (hold : ∀ h ∈ s.held - (v.handles : Multiset Frc) + inside list.values,
      h ∈ s.live ∧ list.values[h.ptr]? = s.list.values[h.ptr]?) :
    Inv ⟨list, ⟨ptr, s.log.length⟩ ::ₘ (s.held - v.handles), s.log ++ [v]⟩ := by
  have hlive : live ⟨list, ⟨ptr, s.log.length⟩ ::ₘ (s.held - v.handles), s.log ++ [v]⟩ =
      ⟨ptr, s.log.length⟩ ::ₘ (s.held - (v.handles : Multiset Frc) + inside list.values) :=
    Multiset.cons_add _ _ _
  constructor
  · rw [hlive]
    exact hc
  · intro h hh
    rw [hlive] at hh
    show ∃ w, (s.log ++ [v])[h.id]? = some w ∧ list.values[h.ptr]? = some w
    rcases Multiset.mem_cons.mp hh with rfl | hh
    · exact ⟨v, List.getElem?_concat_length, hnew⟩
    · obtain ⟨hlive, hsame⟩ := hold h hh
      obtain ⟨w, hw, hval⟩ := hi.value h hlive
      refine ⟨w, ?_, hsame.trans hval⟩
      rw [List.getElem?_append_left (List.getElem?_eq_some_iff.mp hw).1]
      exact hw

/-- No live handle is to a slot that is reused. -/
theorem Inv.reuse {ptr : ℕ} {free : List ℕ} {v : FrcValue β} (hi : s.Inv)
    (hfree : s.list.free = ptr :: free) (ha : (v.handles : Multiset Frc) ≤ s.held) :
    ∃ list, s.list.alloc v = some (ptr, list) ∧
      Inv ⟨list, ⟨ptr, s.log.length⟩ ::ₘ (s.held - v.handles), s.log ++ [v]⟩ := by
  obtain ⟨hlt, hzero⟩ := (hi.counts.free ptr).mp (by simp [hfree])
  have hinner : s.list.slots[ptr]? = some s.list.slots[ptr] := List.getElem?_eq_getElem hlt
  set old := s.list.slots[ptr].value with hold
  have hval : s.list.values[ptr]? = some old := by simp [values, hinner, hold]
  have hset := inside_set hval v
  have hlive : s.live = old.handles + (s.held - v.handles + inside (s.list.values.set ptr v)) := by
    rw [add_comm, add_assoc, hset, add_comm (inside _), ← add_assoc,
      Multiset.sub_add_cancel ha]
    rfl
  -- the old value is dropped between the two
  have hpop := hi.counts.pop hfree s.log.length
  rw [hlive, ← Multiset.add_cons] at hpop
  obtain ⟨list, hdrop, hc, hv⟩ := hpop.dropAll
  replace hv : list.values = s.list.values := hv
  have hlen : list.slots.length = s.list.slots.length := by
    simpa [values] using congrArg List.length hv
  obtain ⟨inner, hinner'⟩ : ∃ inner, list.slots[ptr]? = some inner :=
    ⟨_, List.getElem?_eq_getElem (hlen ▸ hlt)⟩
  have hvalues : values { list with slots := list.slots.set ptr { inner with value := v } } =
      s.list.values.set ptr v := by
    rw [← hv]
    exact List.map_set
  refine ⟨{ list with slots := list.slots.set ptr { inner with value := v } }, ?_, ?_⟩
  · rw [FreeList.alloc, hfree]
    simp [hinner, ← hold, hdrop, hinner']
  · refine hi.alloc_of ?_ ?_ ?_
    · rw [hvalues]
      exact hc.write hinner' v
    · rw [hvalues, List.getElem?_set_self (by simpa [values] using hlt)]
    · rw [hvalues]
      intro h hh
      have hmem : h ∈ s.live := by
        rw [hlive]
        exact Multiset.mem_add.mpr (.inr hh)
      have hne : ptr ≠ h.ptr := by
        rintro rfl
        exact (count_pos hmem).ne' hzero
      exact ⟨hmem, List.getElem?_set_ne hne⟩

theorem Inv.push {v : FrcValue β} (hi : s.Inv) (ha : (v.handles : Multiset Frc) ≤ s.held) :
    Inv ⟨{ s.list with slots := s.list.slots ++ [⟨0, v⟩] },
      ⟨s.list.slots.length, s.log.length⟩ ::ₘ (s.held - v.handles), s.log ++ [v]⟩ := by
  have hvalues : values { s.list with slots := s.list.slots ++ [⟨0, v⟩] } =
      s.list.values ++ [v] := by
    simp [values]
  have hlive : s.held - v.handles + (inside s.list.values + v.handles) = s.live := by
    rw [add_comm (inside _), ← add_assoc, Multiset.sub_add_cancel ha]
    rfl
  refine hi.alloc_of ?_ ?_ ?_
  · rw [hvalues, inside_append, hlive]
    exact hi.counts.push v s.log.length
  · rw [hvalues]
    simp [values]
  · rw [hvalues, inside_append, hlive]
    intro h hh
    refine ⟨hh, List.getElem?_append_left ?_⟩
    rw [values, List.length_map]
    exact hi.counts.valid h hh

theorem Inv.act {op : FrcOp β} (hi : s.Inv) (ha : s.Allowed op) (hact : s.act op = some s') :
    s'.Inv := by
  cases op with
  | alloc data handles =>
    obtain ⟨⟨ptr, list⟩, hs, rfl⟩ := Option.map_eq_some_iff.mp hact
    cases hfree : s.list.free with
    | nil =>
      rw [FreeList.alloc_of_nil hfree] at hs
      cases hs
      exact hi.push (v := ⟨data, handles⟩) ha
    | cons ptr' free =>
      obtain ⟨list', hs', hi'⟩ := hi.reuse (v := ⟨data, handles⟩) hfree ha
      cases hs'.symm.trans hs
      exact hi'
  | clone h => exact hi.clone ha hact
  | drop h => exact hi.drop ha hact

theorem Inv.run {ops : List (FrcOp β)} (hi : s.Inv) (hrun : s.run ops = some s') : s'.Inv := by
  induction ops generalizing s with
  | nil => exact Option.some.inj hrun ▸ hi
  | cons op ops ih =>
    rw [FrcState.run] at hrun
    split_ifs at hrun with ha
    obtain ⟨s₁, hact, hrun⟩ := Option.bind_eq_some_iff.mp hrun
    exact ih (hi.act ha hact) hrun

/-- No operation of a program is on a dangling handle, only a count may overflow. -/
theorem Inv.act_eq_none {op : FrcOp β} (hi : s.Inv) (ha : s.Allowed op) (hact : s.act op = none) :
    ∃ h, op = .clone h ∧ 2 ^ 64 ≤ count s.live h.ptr := by
  cases op with
  | alloc data handles =>
    rw [FrcState.act, Option.map_eq_none_iff] at hact
    cases hfree : s.list.free with
    | nil =>
      rw [FreeList.alloc_of_nil hfree] at hact
      cases hact
    | cons ptr free =>
      obtain ⟨list, hs, -⟩ := hi.reuse (v := ⟨data, handles⟩) hfree ha
      cases hs.symm.trans hact
  | clone h =>
    obtain ⟨inner, hinner⟩ := hi.counts.getElem? ha
    have hrc := hi.counts.refcount h.ptr inner hinner
    refine ⟨h, rfl, ?_⟩
    by_contra hlt
    have hadd : addU64 inner.refcount 1 = some (inner.refcount + 1) :=
      addU64_eq_some.mpr ⟨by omega, rfl⟩
    simp [FrcState.act, FreeList.clone, hinner, hadd] at hact
  | drop h =>
    have hc := hi.counts
    rw [live_of_held ha] at hc
    obtain ⟨list, hs, -⟩ := hc.drop
    simp [FrcState.act, hs] at hact

/-- The free list is what has no live handle, and handles read what they were allocated with. -/
theorem freeList_sound {ops : List (FrcOp β)} (hrun : new.run ops = some s) :
    (∀ p, p ∈ s.list.free ↔ p < s.list.slots.length ∧ count s.live p = 0) ∧
      s.list.free.Nodup ∧
      (∀ p k, 1 ≤ k → count s.live p = k →
        (s.list.slots[p]?).map FrcInner.refcount = some (k - 1)) ∧
      (∀ h ∈ s.live, ∃ v, s.log[h.id]? = some v ∧ s.list.deref h = some v) ∧
      ∀ op, s.Allowed op → s.act op = none → ∃ h, op = .clone h ∧ 2 ^ 64 ≤ count s.live h.ptr := by
  have hi : s.Inv := inv_new.run hrun
  refine ⟨hi.counts.free, hi.counts.nodup, ?_, ?_, fun op => hi.act_eq_none⟩
  · rintro p k hk rfl
    obtain ⟨h, hh, rfl⟩ := Multiset.countP_pos.mp hk
    obtain ⟨inner, hinner⟩ := hi.counts.getElem? hh
    rw [hinner, Option.map_some, hi.counts.refcount h.ptr inner hinner]
  · intro h hh
    obtain ⟨v, hlog, hval⟩ := hi.value h hh
    refine ⟨v, hlog, ?_⟩
    rw [deref, ← hval, values, List.getElem?_map]

/-- The second value holds the handle to the first, until its slot is used again. -/
def reuseOps : List (FrcOp Bool) :=
  [.alloc true [], .alloc false [⟨0, 0⟩], .drop ⟨1, 1⟩, .alloc true [], .clone ⟨1, 2⟩,
    .drop ⟨1, 2⟩]

def reused : FrcState Bool :=
  ⟨⟨[⟨0, ⟨true, []⟩⟩, ⟨0, ⟨true, []⟩⟩], [0]⟩, {⟨1, 2⟩},
    [⟨true, []⟩, ⟨false, [⟨0, 0⟩]⟩, ⟨true, []⟩]⟩

theorem freeList_sound_reused : new.run reuseOps = some reused ∧ 0 ∈ reused.list.free ∧
    ∃ v, reused.log[2]? = some v ∧ reused.list.deref ⟨1, 2⟩ = some v := by
  have hrun : new.run reuseOps = some reused := rfl
  obtain ⟨hfree, -, -, hderef, -⟩ := freeList_sound hrun
  exact ⟨hrun, (hfree 0).mpr (by decide), hderef ⟨1, 2⟩ (by decide)⟩

end FrcState
end AtomicSim
