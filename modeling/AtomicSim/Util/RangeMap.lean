import Mathlib.Data.List.Pairwise
import Mathlib.Order.MinMax
import Mathlib.Tactic.Order
import AtomicSim.Lib.OrderedMap

namespace AtomicSim

/-- A half-open range `start..stop`. -/
structure Range (K : Type*) where
  start : K
  stop : K
  deriving DecidableEq, Repr

/-- `BTreeMap<K, (K, V)>`: each entry is keyed by the end of its range and holds
the start and the value. -/
structure RangeMap (K V : Type*) where
  map : List (K × K × V)

variable {K V : Type*}

namespace RangeMap

def new : RangeMap K V := ⟨[]⟩

variable [LinearOrder K]

/-- One turn of the loop of `erase`; `none` leaves the loop. -/
def eraseStep (r : Range K) (map : List (K × K × V)) : Option (List (K × K × V)) :=
  match (OrderedMap.above r.start map).head? with
  | none => none
  | some (vEnd, vStart, value) =>
    if vStart ≥ r.stop then none
    else
      let map := OrderedMap.remove vEnd map
      let map := if vStart < r.start then OrderedMap.insert r.start (vStart, value) map else map
      let map := if r.stop < vEnd then OrderedMap.insert vEnd (r.stop, value) map else map
      some map

def eraseLoop (r : Range K) : ℕ → List (K × K × V) → List (K × K × V)
  | 0, map => map
  | n + 1, map =>
    match eraseStep r map with
    | none => map
    | some map' => eraseLoop r n map'

/-- The loop makes at most one turn for each entry that ends above `r.start`. -/
def erase (m : RangeMap K V) (r : Range K) : RangeMap K V :=
  ⟨eraseLoop r (OrderedMap.above r.start m.map).length m.map⟩

def insert (m : RangeMap K V) (r : Range K) (value : V) : RangeMap K V :=
  if r.start ≥ r.stop then m
  else ⟨OrderedMap.insert r.stop (r.start, value) (m.erase r).map⟩

/-- The part of an entry inside the queried bounds; a missing bound is unbounded. -/
def clip (start stop : Option K) (e : K × K × V) : Option (Range K × V) :=
  let nStart := match start with
    | some s => max s e.2.1
    | none => e.2.1
  let nEnd := match stop with
    | some t => min t e.1
    | none => e.1
  if nStart ≥ nEnd then none else some (⟨nStart, nEnd⟩, e.2.2)

/-- `range` with an included or missing start and an excluded or missing end. -/
def rangeBounds (m : RangeMap K V) (start stop : Option K) : List (Range K × V) :=
  OrderedMap.mapWhile (clip start stop) (match start with
    | some s => OrderedMap.above s m.map
    | none => m.map)

def range (m : RangeMap K V) (r : Range K) : List (Range K × V) :=
  m.rangeBounds (some r.start) (some r.stop)

def fromIter (l : List (Range K × V)) : RangeMap K V :=
  l.foldl (fun m e => m.insert e.1 e.2) new

end RangeMap

namespace Range

variable [LinearOrder K]

def Contains (r : Range K) (x : K) : Prop := r.start ≤ x ∧ x < r.stop

def Overlaps (r s : Range K) : Prop := max r.start s.start < min r.stop s.stop

instance (r : Range K) (x : K) : Decidable (r.Contains x) :=
  inferInstanceAs (Decidable (_ ∧ _))

instance (r s : Range K) : Decidable (r.Overlaps s) :=
  inferInstanceAs (Decidable (_ < _))

theorem not_contains_iff {r : Range K} {x : K} :
    ¬ r.Contains x ↔ x < r.start ∨ r.stop ≤ x := by
  rw [Contains, not_and_or, not_le, not_lt]

theorem overlaps_comm {r s : Range K} : r.Overlaps s ↔ s.Overlaps r := by
  rw [Overlaps, Overlaps, max_comm, min_comm]

theorem overlaps_iff {r s : Range K} :
    r.Overlaps s ↔ r.start < r.stop ∧ s.start < s.stop ∧ r.start < s.stop ∧ s.start < r.stop := by
  rw [Overlaps, max_lt_iff, lt_min_iff, lt_min_iff]
  constructor
  · rintro ⟨⟨h₁, h₂⟩, h₃, h₄⟩
    exact ⟨h₁, h₄, h₂, h₃⟩
  · rintro ⟨h₁, h₂, h₃, h₄⟩
    exact ⟨⟨h₁, h₃⟩, h₄, h₂⟩

theorem overlaps_iff_exists {r s : Range K} :
    r.Overlaps s ↔ ∃ x, r.Contains x ∧ s.Contains x := by
  constructor
  · intro h
    refine ⟨max r.start s.start, ⟨le_max_left _ _, ?_⟩, le_max_right _ _, ?_⟩
    · exact lt_of_lt_of_le h (min_le_left _ _)
    · exact lt_of_lt_of_le h (min_le_right _ _)
  · rintro ⟨x, hr, hs⟩
    exact (max_le hr.1 hs.1).trans_lt (lt_min hr.2 hs.2)

end Range

namespace RangeMap

variable [LinearOrder K]

def entryRange (e : K × K × V) : Range K := ⟨e.2.1, e.1⟩

/-- Entries are non-empty and each ends before the next one starts. -/
structure WF (m : RangeMap K V) : Prop where
  nonempty : ∀ e ∈ m.map, e.2.1 < e.1
  ordered : m.map.Pairwise fun a b => a.1 ≤ b.2.1

/-- What remains of an entry when `r` is taken out. -/
def cut (r : Range K) (e : K × K × V) : List (K × K × V) :=
  (if e.2.1 < min e.1 r.start then [(min e.1 r.start, e.2)] else []) ++
    if max e.2.1 r.stop < e.1 then [(e.1, max e.2.1 r.stop, e.2.2)] else []

theorem wf_new : (new : RangeMap K V).WF := ⟨by simp [new], by simp [new]⟩

theorem WF.sorted {m : RangeMap K V} (h : m.WF) : OrderedMap.Sorted m.map := by
  refine List.Pairwise.imp_of_mem ?_ h.ordered
  exact fun {a b} _ hb hab => hab.trans_lt (h.nonempty b hb)

theorem mem_cut {r : Range K} {e x : K × K × V} :
    x ∈ cut r e ↔ x.2.2 = e.2.2 ∧ x.2.1 < x.1 ∧
      (x.1 = min e.1 r.start ∧ x.2.1 = e.2.1 ∨ x.1 = e.1 ∧ x.2.1 = max e.2.1 r.stop) := by
  obtain ⟨xe, xs, xv⟩ := x
  obtain ⟨ee, es, ev⟩ := e
  unfold cut
  constructor
  · intro h
    rw [List.mem_append] at h
    rcases h with h | h <;> split_ifs at h <;> simp_all
  · rintro ⟨hv, hlt, ⟨h₁, h₂⟩ | ⟨h₁, h₂⟩⟩ <;> simp only at hv hlt h₁ h₂ <;> subst hv h₁ h₂
    · simp [hlt]
    · simp [hlt]

theorem cut_inside {r : Range K} {e x : K × K × V} (hx : x ∈ cut r e) :
    e.2.1 ≤ x.2.1 ∧ x.2.1 < x.1 ∧ x.1 ≤ e.1 := by
  obtain ⟨-, hlt, ⟨h₁, h₂⟩ | ⟨h₁, h₂⟩⟩ := mem_cut.mp hx
  · exact ⟨h₂.ge, hlt, h₁ ▸ min_le_left _ _⟩
  · exact ⟨h₂ ▸ le_max_left _ _, hlt, h₁.le⟩

theorem cut_of_stop_le {r : Range K} {e : K × K × V} (hr : r.start ≤ r.stop)
    (he : e.2.1 < e.1) (h : r.stop ≤ e.2.1) : cut r e = [e] := by
  have h₁ : ¬ e.2.1 < min e.1 r.start := by
    simp only [lt_min_iff, not_and_or, not_lt]
    exact Or.inr (hr.trans h)
  simp [cut, h₁, max_eq_left h, he]

theorem cut_of_le_start {r : Range K} {e : K × K × V} (hr : r.start ≤ r.stop)
    (he : e.2.1 < e.1) (h : e.1 ≤ r.start) : cut r e = [e] := by
  have h₂ : ¬ max e.2.1 r.stop < e.1 := by
    simp only [max_lt_iff, not_and_or, not_lt]
    exact Or.inr (h.trans hr)
  simp [cut, min_eq_left h, he, h₂]

theorem wf_append_cons {l₁ l₂ : List (K × K × V)} {e : K × K × V}
    (h : (⟨l₁ ++ e :: l₂⟩ : RangeMap K V).WF) :
    (∀ a ∈ l₁, a.1 ≤ e.2.1) ∧ e.2.1 < e.1 ∧ ∀ b ∈ l₂, e.1 ≤ b.2.1 ∧ b.2.1 < b.1 := by
  have ho := h.ordered
  rw [List.pairwise_append, List.pairwise_cons] at ho
  refine ⟨fun a ha => ho.2.2 a ha e List.mem_cons_self, h.nonempty e (by simp), ?_⟩
  exact fun b hb => ⟨ho.2.1.1 b hb, h.nonempty b (by simp [hb])⟩

/-- A turn of the loop cuts the first entry that ends above `r.start`. -/
theorem eraseStep_append {r : Range K} {l₁ l₂ : List (K × K × V)} {e : K × K × V}
    (h : (⟨l₁ ++ e :: l₂⟩ : RangeMap K V).WF) (h₁ : ∀ a ∈ l₁, a.1 ≤ r.start)
    (he : r.start < e.1) :
    eraseStep r (l₁ ++ e :: l₂) =
      if r.stop ≤ e.2.1 then none else some (l₁ ++ cut r e ++ l₂) := by
  obtain ⟨hb, hne, ha⟩ := wf_append_cons h
  obtain ⟨vEnd, vStart, value⟩ := e
  simp only at hb hne ha he ⊢
  have habove : OrderedMap.above r.start (l₁ ++ (vEnd, vStart, value) :: l₂) =
      (vEnd, vStart, value) :: l₂ := by
    refine OrderedMap.above_append h₁ (List.forall_mem_cons.mpr ⟨he, fun b hb' => ?_⟩)
    exact he.trans_le ((ha b hb').1.trans (ha b hb').2.le)
  have hremove : OrderedMap.remove vEnd (l₁ ++ (vEnd, vStart, value) :: l₂) = l₁ ++ l₂ :=
    OrderedMap.remove_append (fun a ha' => (hb a ha').trans_lt hne)
      (fun b hb' => (ha b hb').1.trans_lt (ha b hb').2)
  -- the left remainder goes back under the key `r.start`, below `vEnd` and above `l₁`
  let left := if vStart < r.start then [(r.start, vStart, value)] else []
  have hleft : (if vStart < r.start then OrderedMap.insert r.start (vStart, value) (l₁ ++ l₂)
      else l₁ ++ l₂) = l₁ ++ left ++ l₂ := by
    dsimp only [left]
    split_ifs with h₂
    · rw [OrderedMap.insert_append (fun a ha' => (hb a ha').trans_lt h₂)
        (fun b hb' => he.trans_le ((ha b hb').1.trans (ha b hb').2.le)), List.append_cons]
    · rw [List.append_nil]
  have hkeys : ∀ a ∈ l₁ ++ left, a.1 < vEnd := by
    intro a ha'
    rcases List.mem_append.mp ha' with ha' | ha'
    · exact (hb a ha').trans_lt hne
    · dsimp only [left] at ha'
      split_ifs at ha' with h₂
      · rw [List.mem_singleton.mp ha']
        exact he
      · exact absurd ha' List.not_mem_nil
  have hright : OrderedMap.insert vEnd (r.stop, value) (l₁ ++ left ++ l₂) =
      l₁ ++ left ++ (vEnd, r.stop, value) :: l₂ :=
    OrderedMap.insert_append hkeys fun b hb' => (ha b hb').1.trans_lt (ha b hb').2
  rw [eraseStep, habove]
  simp only [List.head?_cons, ge_iff_le, hremove, hleft, hright]
  split_ifs with hs h₃
  · rfl
  · simp [cut, left, min_eq_right he.le, max_eq_right (not_le.mp hs).le, h₃]
  · simp [cut, left, min_eq_right he.le, max_eq_right (not_le.mp hs).le, h₃]

theorem eraseLoop_of_none {r : Range K} {l : List (K × K × V)} (h : eraseStep r l = none) (n : ℕ) :
    eraseLoop r n l = l := by
  cases n with
  | zero => rfl
  | succ n => simp only [eraseLoop, h]

theorem wf_append_cut {r : Range K} {l₁ l₂ : List (K × K × V)} {e : K × K × V}
    (h : (⟨l₁ ++ e :: l₂⟩ : RangeMap K V).WF) (hr : r.start ≤ r.stop) :
    (⟨l₁ ++ cut r e ++ l₂⟩ : RangeMap K V).WF := by
  obtain ⟨hb, -, ha⟩ := wf_append_cons h
  have hself : (cut r e).Pairwise fun a b => a.1 ≤ b.2.1 := by
    unfold cut
    split_ifs
    · simp only [List.singleton_append, List.pairwise_cons, List.mem_singleton, forall_eq]
      refine ⟨(min_le_right _ _).trans (hr.trans (le_max_right _ _)), ?_⟩
      simp
    all_goals simp
  have ho := h.ordered
  rw [List.pairwise_append, List.pairwise_cons] at ho
  constructor
  · intro x hx
    simp only [List.mem_append] at hx
    rcases hx with (hx | hx) | hx
    · exact h.nonempty x (by simp [hx])
    · exact (cut_inside hx).2.1
    · exact h.nonempty x (by simp [hx])
  · rw [List.append_assoc, List.pairwise_append, List.pairwise_append]
    refine ⟨ho.1, ⟨hself, ho.2.1.2, ?_⟩, ?_⟩
    · exact fun x hx b hb' => (cut_inside hx).2.2.trans (ha b hb').1
    · intro a ha' x hx
      rcases List.mem_append.mp hx with hx | hx
      · exact (hb a ha').trans (cut_inside hx).1
      · exact ho.2.2 a ha' x (List.mem_cons_of_mem _ hx)

theorem flatMap_cut_of_stop_le {r : Range K} {l : List (K × K × V)} (hr : r.start ≤ r.stop)
    (h : ∀ e ∈ l, r.stop ≤ e.2.1 ∧ e.2.1 < e.1) : l.flatMap (cut r) = l := by
  induction l with
  | nil => rfl
  | cons e l ih =>
    have he := h e List.mem_cons_self
    rw [List.flatMap_cons, cut_of_stop_le hr he.2 he.1,
      ih fun a ha => h a (List.mem_cons_of_mem _ ha), List.singleton_append]

/-- The loop cuts every entry; `l₁` holds the entries it has finished with. -/
theorem eraseLoop_append {r : Range K} (hr : r.start ≤ r.stop) {l₂ : List (K × K × V)} :
    ∀ {l₁ : List (K × K × V)} {n : ℕ}, (⟨l₁ ++ l₂⟩ : RangeMap K V).WF →
      (∀ e ∈ l₁, e.1 ≤ r.start) → (∀ e ∈ l₂, r.start < e.1) → l₂.length ≤ n →
      eraseLoop r n (l₁ ++ l₂) = l₁ ++ l₂.flatMap (cut r) := by
  induction l₂ with
  | nil =>
    intro l₁ n _ h₁ _ _
    have habove : OrderedMap.above r.start (l₁ ++ []) = [] :=
      OrderedMap.above_append h₁ (by simp)
    refine eraseLoop_of_none ?_ n
    rw [eraseStep, habove]
    rfl
  | cons e l₂ ih =>
    intro l₁ n hwf h₁ h₂ hn
    -- there is a turn left for the first entry of `l₂`
    obtain ⟨n, rfl⟩ : ∃ k, n = k + 1 := ⟨n - 1, by simp at hn; omega⟩
    have he := h₂ e List.mem_cons_self
    obtain ⟨-, hne, ha⟩ := wf_append_cons hwf
    have hstep := eraseStep_append hwf h₁ he
    by_cases hs : r.stop ≤ e.2.1
    · -- the first entry above `r.start` already lies beyond the range: the loop ends
      rw [if_pos hs] at hstep
      rw [eraseLoop_of_none hstep, flatMap_cut_of_stop_le hr]
      exact List.forall_mem_cons.mpr ⟨⟨hs, hne⟩, fun b hb =>
        ⟨hs.trans (hne.le.trans (ha b hb).1), (ha b hb).2⟩⟩
    · rw [if_neg hs] at hstep
      simp only [eraseLoop, hstep, List.flatMap_cons]
      have hwf' := wf_append_cut hwf hr
      by_cases hright : r.stop < e.1
      · -- a right remainder starts at `r.stop`, so the next turn leaves the loop
        obtain ⟨left, hleft⟩ : ∃ left, cut r e = left ++ [(e.1, r.stop, e.2.2)] :=
          ⟨_, by rw [cut, max_eq_right (not_le.mp hs).le, if_pos hright]⟩
        rw [hleft, ← List.append_assoc l₁, List.append_assoc (l₁ ++ left), List.singleton_append]
          at hwf' ⊢
        have hkeys : ∀ a ∈ l₁ ++ left, a.1 ≤ r.start := by
          intro a ha'
          rcases List.mem_append.mp ha' with ha' | ha'
          · exact h₁ a ha'
          · have hx : a ∈ cut r e := by rw [hleft]; exact List.mem_append_left _ ha'
            have hlt := (wf_append_cons hwf').1 a (List.mem_append_right _ ha')
            obtain ⟨-, -, ⟨h, -⟩ | ⟨h, -⟩⟩ := mem_cut.mp hx
            · exact h ▸ min_le_right _ _
            · exact absurd (h ▸ hlt) (not_le.mpr hright)
        have hnone := eraseStep_append hwf' hkeys he
        rw [if_pos le_rfl] at hnone
        rw [eraseLoop_of_none hnone, flatMap_cut_of_stop_le hr]
        · simp
        · exact fun b hb => ⟨hright.le.trans (ha b hb).1, (ha b hb).2⟩
      · -- only a left remainder stays, and the loop has finished with it
        have hkeys : ∀ a ∈ l₁ ++ cut r e, a.1 ≤ r.start := by
          intro a ha'
          rcases List.mem_append.mp ha' with ha' | ha'
          · exact h₁ a ha'
          · obtain ⟨-, hlt, ⟨h, -⟩ | ⟨h, h'⟩⟩ := mem_cut.mp ha'
            · exact h ▸ min_le_right _ _
            · rw [h, h', max_eq_right (not_le.mp hs).le] at hlt
              exact absurd hlt hright
        rw [ih hwf' hkeys (fun b hb => h₂ b (List.mem_cons_of_mem _ hb)) (by simpa using hn),
          List.append_assoc]

theorem erase_map {m : RangeMap K V} {r : Range K} (h : m.WF) (hr : r.start ≤ r.stop) :
    (m.erase r).map = m.map.flatMap (cut r) := by
  obtain ⟨l₁, l₂, hl, h₁, h₂⟩ := h.sorted.split r.start
  obtain ⟨map⟩ := m
  simp only at hl
  subst hl
  have hfront : l₁.flatMap (cut r) = l₁ := by
    have hcut : ∀ e ∈ l₁, cut r e = [e] := fun e he =>
      cut_of_le_start hr (h.nonempty e (by simp [he])) (h₁ e he)
    rw [List.flatMap_congr hcut, List.flatMap_singleton']
  simp only [erase, OrderedMap.above_append h₁ h₂]
  rw [eraseLoop_append hr h h₁ h₂ le_rfl, List.flatMap_append, hfront]

theorem wf_erase {m : RangeMap K V} {r : Range K} (h : m.WF) (hr : r.start ≤ r.stop) :
    (m.erase r).WF := by
  have hmap := erase_map h hr
  constructor
  · intro x hx
    rw [hmap, List.mem_flatMap] at hx
    obtain ⟨e, -, hx⟩ := hx
    exact (cut_inside hx).2.1
  · rw [hmap, List.pairwise_flatMap]
    refine ⟨fun e he => ?_, h.ordered.imp fun hab x hx y hy =>
      (cut_inside hx).2.2.trans (hab.trans (cut_inside hy).1)⟩
    have hsingle : (⟨[] ++ e :: []⟩ : RangeMap K V).WF :=
      ⟨by simpa using h.nonempty e he, by simp⟩
    simpa using (wf_append_cut hsingle hr).ordered

theorem insert_split {m : RangeMap K V} {r : Range K} (v : V) (h : m.WF) (hr : r.start < r.stop) :
    ∃ l₁ l₂, (m.erase r).map = l₁ ++ l₂ ∧ (m.insert r v).map = l₁ ++ (r.stop, r.start, v) :: l₂ ∧
      (∀ e ∈ l₁, e.1 ≤ r.start) ∧ ∀ e ∈ l₂, r.stop ≤ e.2.1 ∧ e.2.1 < e.1 := by
  have hwf := wf_erase h hr.le
  obtain ⟨l₁, l₂, hl, h₁, h₂⟩ := hwf.sorted.split r.start
  have h₃ : ∀ e ∈ l₂, r.stop ≤ e.2.1 ∧ e.2.1 < e.1 := by
    intro x hx
    have hmem : x ∈ (m.erase r).map := by rw [hl]; exact List.mem_append_right _ hx
    refine ⟨?_, hwf.nonempty x hmem⟩
    rw [erase_map h hr.le, List.mem_flatMap] at hmem
    obtain ⟨e, -, hx'⟩ := hmem
    obtain ⟨-, -, ⟨he, -⟩ | ⟨-, he⟩⟩ := mem_cut.mp hx'
    · exact absurd (h₂ x hx) (not_lt.mpr (he ▸ min_le_right _ _))
    · exact he ▸ le_max_right _ _
  refine ⟨l₁, l₂, hl, ?_, h₁, h₃⟩
  simp only [insert, ge_iff_le, if_neg (not_le.mpr hr), hl]
  exact OrderedMap.insert_append (fun e he => (h₁ e he).trans_lt hr)
    (fun e he => (h₃ e he).1.trans_lt (h₃ e he).2)

theorem insert_of_empty {m : RangeMap K V} {r : Range K} {v : V} (h : r.stop ≤ r.start) :
    m.insert r v = m := if_pos h

theorem mem_insert {m : RangeMap K V} {r : Range K} {v : V} (h : m.WF) (hr : r.start < r.stop)
    {x : K × K × V} :
    x ∈ (m.insert r v).map ↔ x = (r.stop, r.start, v) ∨ ∃ e ∈ m.map, x ∈ cut r e := by
  obtain ⟨l₁, l₂, hl, hi, -, -⟩ := insert_split v h hr
  rw [hi, List.mem_append, List.mem_cons, or_left_comm, ← List.mem_append, ← hl,
    erase_map h hr.le, List.mem_flatMap]

theorem wf_insert {m : RangeMap K V} (h : m.WF) (r : Range K) (v : V) : (m.insert r v).WF := by
  rcases le_or_gt r.stop r.start with hr | hr
  · rw [insert_of_empty hr]
    exact h
  obtain ⟨l₁, l₂, hl, hi, h₁, h₂⟩ := insert_split v h hr
  have hwf := wf_erase h hr.le
  have ho := hwf.ordered
  rw [hl, List.pairwise_append] at ho
  constructor
  · intro x hx
    rw [hi, List.mem_append, List.mem_cons, or_left_comm, ← List.mem_append, ← hl] at hx
    rcases hx with rfl | hx
    · exact hr
    · exact hwf.nonempty x hx
  · rw [hi, List.pairwise_append, List.pairwise_cons]
    refine ⟨ho.1, ⟨fun e he => (h₂ e he).1, ho.2.1⟩, fun a ha b hb => ?_⟩
    rcases List.mem_cons.mp hb with rfl | hb
    · exact h₁ a ha
    · exact ho.2.2 a ha b hb

/-- The value of the entry that contains `x`. -/
def lookup (m : RangeMap K V) (x : K) : Option V :=
  (m.map.find? fun e => (entryRange e).Contains x).map fun e => e.2.2

theorem WF.eq_of_contains {m : RangeMap K V} (h : m.WF) {e f : K × K × V} {x : K}
    (he : e ∈ m.map) (hf : f ∈ m.map) (hex : (entryRange e).Contains x)
    (hfx : (entryRange f).Contains x) : e = f := by
  by_contra hne
  have hsymm : m.map.Pairwise fun a b => a.1 ≤ b.2.1 ∨ b.1 ≤ a.2.1 := h.ordered.imp Or.inl
  have : Std.Symm fun a b : K × K × V => a.1 ≤ b.2.1 ∨ b.1 ≤ a.2.1 := ⟨fun _ _ hab => hab.symm⟩
  rcases hsymm.forall he hf hne with hab | hab
  · exact absurd (hex.2.trans_le (hab.trans hfx.1)) (lt_irrefl x)
  · exact absurd (hfx.2.trans_le (hab.trans hex.1)) (lt_irrefl x)

theorem lookup_eq_some {m : RangeMap K V} (h : m.WF) {x : K} {v : V} :
    m.lookup x = some v ↔ ∃ e ∈ m.map, (entryRange e).Contains x ∧ e.2.2 = v := by
  constructor
  · intro hx
    obtain ⟨e, he, rfl⟩ := Option.map_eq_some_iff.mp hx
    exact ⟨e, List.mem_of_find?_eq_some he, by simpa using List.find?_some he, rfl⟩
  · rintro ⟨e, he, hc, rfl⟩
    cases hf : m.map.find? fun e => (entryRange e).Contains x with
    | none =>
      rw [List.find?_eq_none] at hf
      exact absurd hc (by simpa using hf e he)
    | some f =>
      have hfe := h.eq_of_contains (List.mem_of_find?_eq_some hf) he
        (by simpa using List.find?_some hf) hc
      rw [lookup, hf, hfe]
      rfl

theorem contains_of_mem_cut {r : Range K} {e : K × K × V} {x : K} :
    (∃ y ∈ cut r e, (entryRange y).Contains x) ↔
      (entryRange e).Contains x ∧ (x < r.start ∨ r.stop ≤ x) := by
  simp only [entryRange, Range.Contains]
  constructor
  · rintro ⟨y, hy, h₁, h₂⟩
    obtain ⟨-, -, ⟨ha, hb⟩ | ⟨ha, hb⟩⟩ := mem_cut.mp hy
    · rw [ha, lt_min_iff] at h₂
      exact ⟨⟨hb ▸ h₁, h₂.1⟩, Or.inl h₂.2⟩
    · rw [hb, max_le_iff] at h₁
      exact ⟨⟨h₁.1, ha ▸ h₂⟩, Or.inr h₁.2⟩
  · rintro ⟨⟨h₁, h₂⟩, h₃ | h₃⟩
    · have hx : x < min e.1 r.start := lt_min h₂ h₃
      exact ⟨(min e.1 r.start, e.2), mem_cut.mpr ⟨rfl, h₁.trans_lt hx, Or.inl ⟨rfl, rfl⟩⟩, h₁, hx⟩
    · have hx : max e.2.1 r.stop ≤ x := max_le h₁ h₃
      exact ⟨(e.1, max e.2.1 r.stop, e.2.2),
        mem_cut.mpr ⟨rfl, hx.trans_lt h₂, Or.inr ⟨rfl, rfl⟩⟩, hx, h₂⟩

/-- The last insertion that covers a key decides its value. -/
theorem lookup_insert {m : RangeMap K V} (h : m.WF) (r : Range K) (v : V) (x : K) :
    (m.insert r v).lookup x = if r.Contains x then some v else m.lookup x := by
  rcases le_or_gt r.stop r.start with hr | hr
  · rw [insert_of_empty hr, if_neg fun hc => absurd (hc.1.trans_lt hc.2) (not_lt.mpr hr)]
  have hwf := wf_insert h r v
  apply Option.ext
  intro w
  rw [lookup_eq_some hwf]
  split_ifs with hx
  · constructor
    · rintro ⟨e, he, hc, rfl⟩
      have hself : (r.stop, r.start, v) ∈ (m.insert r v).map := (mem_insert h hr).mpr (Or.inl rfl)
      rw [hwf.eq_of_contains he hself hc hx]
    · intro hw
      exact ⟨_, (mem_insert h hr).mpr (Or.inl rfl), hx, Option.some.inj hw⟩
  · have hout := Range.not_contains_iff.mp hx
    rw [lookup_eq_some h]
    constructor
    · rintro ⟨e, he, hc, rfl⟩
      rcases (mem_insert h hr).mp he with rfl | ⟨f, hf, hef⟩
      · exact absurd hc hx
      · exact ⟨f, hf, (contains_of_mem_cut.mp ⟨e, hef, hc⟩).1, (mem_cut.mp hef).1.symm⟩
    · rintro ⟨f, hf, hc, rfl⟩
      obtain ⟨e, hef, hec⟩ := contains_of_mem_cut.mpr ⟨hc, hout⟩
      exact ⟨e, (mem_insert h hr).mpr (Or.inr ⟨f, hf, hef⟩), hec, (mem_cut.mp hef).1⟩

theorem lookup_erase {m : RangeMap K V} (h : m.WF) {r : Range K} (hr : r.start ≤ r.stop) (x : K) :
    (m.erase r).lookup x = if r.Contains x then none else m.lookup x := by
  have hmem : ∀ y : K × K × V, y ∈ (m.erase r).map ↔ ∃ e ∈ m.map, y ∈ cut r e := by
    intro y
    rw [erase_map h hr, List.mem_flatMap]
  apply Option.ext
  intro w
  rw [lookup_eq_some (wf_erase h hr)]
  split_ifs with hx
  · constructor
    · rintro ⟨y, hy, hc, -⟩
      obtain ⟨e, -, hye⟩ := (hmem y).mp hy
      rcases (contains_of_mem_cut.mp ⟨y, hye, hc⟩).2 with hlt | hle
      · exact absurd hx.1 (not_le.mpr hlt)
      · exact absurd hx.2 (not_lt.mpr hle)
    · intro hw
      cases hw
  · have hout := Range.not_contains_iff.mp hx
    rw [lookup_eq_some h]
    constructor
    · rintro ⟨y, hy, hc, rfl⟩
      obtain ⟨e, he, hye⟩ := (hmem y).mp hy
      exact ⟨e, he, (contains_of_mem_cut.mp ⟨y, hye, hc⟩).1, (mem_cut.mp hye).1.symm⟩
    · rintro ⟨e, he, hc, rfl⟩
      obtain ⟨y, hye, hyc⟩ := contains_of_mem_cut.mpr ⟨hc, hout⟩
      exact ⟨y, (hmem y).mpr ⟨e, he, hye⟩, hyc, (mem_cut.mp hye).1⟩

theorem eraseStep_erase {m : RangeMap K V} (h : m.WF) {r : Range K} (hr : r.start ≤ r.stop) :
    eraseStep r (m.erase r).map = none := by
  unfold eraseStep
  cases hx : (OrderedMap.above r.start (m.erase r).map).head? with
  | none => rfl
  | some x =>
    obtain ⟨hmem, hlt⟩ := List.mem_filter.mp (List.mem_of_mem_head? hx)
    rw [decide_eq_true_eq] at hlt
    rw [erase_map h hr, List.mem_flatMap] at hmem
    obtain ⟨e, -, hxe⟩ := hmem
    obtain ⟨-, -, ⟨hl, -⟩ | ⟨-, hs⟩⟩ := mem_cut.mp hxe
    · rw [hl] at hlt
      exact absurd hlt (not_lt.mpr (min_le_right _ _))
    · exact if_pos (hs ▸ le_max_right _ _)

section Bounds

variable {m : RangeMap K V} {start stop : Option K} {e f : K × K × V} {p : Range K × V} {k : K}

/-- The keys that a query asks for; a missing bound is unbounded. -/
def Within (start stop : Option K) (k : K) : Prop :=
  (∀ s ∈ start, s ≤ k) ∧ ∀ t ∈ stop, k < t

/-- `n_start` and `n_end`, the ends of the part of an entry that a query sees. -/
def clipped (start stop : Option K) (e : K × K × V) : Range K :=
  ⟨start.elim e.2.1 fun s => max s e.2.1, stop.elim e.1 fun t => min t e.1⟩

theorem clip_eq (start stop : Option K) (e : K × K × V) :
    clip start stop e = if (clipped start stop e).stop ≤ (clipped start stop e).start then none
      else some (clipped start stop e, e.2.2) := by
  cases start <;> cases stop <;> rfl

theorem clip_eq_some : clip start stop e = some p ↔
    p = (clipped start stop e, e.2.2) ∧ p.1.start < p.1.stop := by
  rw [clip_eq]
  split_ifs with h
  · constructor
    · intro hp
      cases hp
    · rintro ⟨rfl, hlt⟩
      exact absurd h (not_le.mpr hlt)
  · simp only [Option.some.injEq]
    constructor
    · rintro rfl
      exact ⟨rfl, not_le.mp h⟩
    · intro hp
      exact hp.1.symm

theorem contains_clipped : (clipped start stop e).Contains k ↔
    (entryRange e).Contains k ∧ Within start stop k := by
  cases start <;> cases stop <;>
    simp only [clipped, entryRange, Range.Contains, Within, Option.elim, Option.mem_def,
      Option.some.injEq, reduceCtorEq, false_implies, forall_eq', max_le_iff, lt_min_iff]
  all_goals tauto

theorem clip_eq_some_iff_exists : (∃ p, clip start stop e = some p) ↔
    ∃ k, (entryRange e).Contains k ∧ Within start stop k := by
  simp only [clip_eq_some, ← contains_clipped]
  constructor
  · rintro ⟨p, rfl, hp⟩
    exact ⟨_, le_rfl, hp⟩
  · rintro ⟨k, hk⟩
    exact ⟨_, rfl, hk.1.trans_lt hk.2⟩

theorem clip_eq_none_of_le (hs : ∀ s ∈ start, s < e.1) (he : e.2.1 < e.1) (hef : e.1 ≤ f.2.1)
    (h : clip start stop e = none) : clip start stop f = none := by
  by_contra hf
  obtain ⟨k, hk, hwithin⟩ := clip_eq_some_iff_exists.mp (Option.ne_none_iff_exists'.mp hf)
  have hlast : Within start stop ((clipped start none e).start) := by
    constructor
    · intro s hs'
      rw [Option.mem_def.mp hs']
      exact le_max_left _ _
    · intro t ht
      apply lt_of_le_of_lt _ (hwithin.2 t ht)
      cases start with
      | none => exact (he.le.trans hef).trans hk.1
      | some s => exact max_le (hwithin.1 s rfl) ((he.le.trans hef).trans hk.1)
  have hin : (entryRange e).Contains ((clipped start none e).start) := by
    cases start with
    | none => exact ⟨le_rfl, he⟩
    | some s => exact ⟨le_max_right _ _, max_lt (hs s rfl) he⟩
  obtain ⟨p, hp⟩ := clip_eq_some_iff_exists.mpr ⟨_, hin, hlast⟩
  rw [h] at hp
  cases hp

/-- On a well-formed map a query visits exactly the entries that it sees, whichever of its
bounds are missing. -/
theorem rangeBounds_eq (h : m.WF) (start stop : Option K) :
    m.rangeBounds start stop = m.map.filterMap (clip start stop) := by
  have hmono : ∀ l : List (K × K × V), l.Sublist m.map → (∀ e ∈ l, ∀ s ∈ start, s < e.1) →
      OrderedMap.mapWhile (clip start stop) l = l.filterMap (clip start stop) := by
    intro l hl hstart
    apply OrderedMap.mapWhile_eq_filterMap
    apply (h.ordered.sublist hl).imp_of_mem
    intro a b ha _ hab
    exact clip_eq_none_of_le (hstart a ha) (h.nonempty a (hl.subset ha)) hab
  cases start with
  | none => exact hmono m.map (List.Sublist.refl _) (by simp)
  | some s =>
    have habove : ∀ e ∈ OrderedMap.above s m.map, ∀ s' ∈ some s, s' < e.1 := by
      intro e he s' hs'
      rw [← Option.some.inj hs']
      simpa using (List.mem_filter.mp he).2
    rw [rangeBounds]
    apply (hmono _ List.filter_sublist habove).trans
    show List.filterMap _ (List.filter _ m.map) = _
    rw [List.filterMap_filter]
    apply List.filterMap_congr
    intro e _
    by_cases hlt : s < e.1
    · simp [hlt]
    · simp only [hlt, decide_false, Bool.false_eq_true, if_false]
      symm
      rw [clip_eq, if_pos]
      apply le_trans _ (le_max_left s e.2.1)
      cases stop with
      | none => exact not_lt.mp hlt
      | some t => exact (min_le_right _ _).trans (not_lt.mp hlt)

end Bounds

theorem clip_eq_none {r : Range K} {e : K × K × V} :
    clip (some r.start) (some r.stop) e = none ↔ ¬ (entryRange e).Overlaps r := by
  simp only [clip, ge_iff_le, ite_eq_left_iff, reduceCtorEq, imp_false, not_not, Range.Overlaps,
    entryRange, not_lt, max_comm, min_comm]

theorem clip_of_overlaps {r : Range K} {e : K × K × V} (h : (entryRange e).Overlaps r) :
    clip (some r.start) (some r.stop) e =
      some (⟨max r.start e.2.1, min r.stop e.1⟩, e.2.2) := by
  rw [Range.overlaps_comm, Range.Overlaps] at h
  simp only [clip, ge_iff_le]
  exact if_neg (not_le.mpr h)

theorem range_eq {m : RangeMap K V} (h : m.WF) (r : Range K) :
    m.range r = m.map.filterMap (clip (some r.start) (some r.stop)) :=
  rangeBounds_eq h _ _

theorem mem_range {m : RangeMap K V} (h : m.WF) {r s : Range K} {v : V} :
    (s, v) ∈ m.range r ↔ ∃ e ∈ m.map, (entryRange e).Overlaps r ∧ v = e.2.2 ∧
      s = ⟨max r.start e.2.1, min r.stop e.1⟩ := by
  rw [range_eq h, List.mem_filterMap]
  refine exists_congr fun e => and_congr_right fun _ => ?_
  by_cases ho : (entryRange e).Overlaps r
  · rw [clip_of_overlaps ho, Option.some.injEq, Prod.mk.injEq]
    constructor
    · rintro ⟨rfl, rfl⟩
      exact ⟨ho, rfl, rfl⟩
    · rintro ⟨-, rfl, rfl⟩
      exact ⟨rfl, rfl⟩
  · rw [clip_eq_none.mpr ho]
    simp [ho]

theorem lookup_eq_some_iff_range {m : RangeMap K V} (h : m.WF) {r : Range K} {x : K} {v : V}
    (hx : r.Contains x) : m.lookup x = some v ↔ ∃ s, (s, v) ∈ m.range r ∧ s.Contains x := by
  rw [lookup_eq_some h]
  constructor
  · rintro ⟨e, he, hc, rfl⟩
    have ho := Range.overlaps_iff_exists.mpr ⟨x, hc, hx⟩
    exact ⟨_, (mem_range h).mpr ⟨e, he, ho, rfl, rfl⟩, max_le hx.1 hc.1, lt_min hx.2 hc.2⟩
  · rintro ⟨s, hs, hc⟩
    obtain ⟨e, he, -, rfl, rfl⟩ := (mem_range h).mp hs
    exact ⟨e, he, ⟨(le_max_right _ _).trans hc.1, hc.2.trans_le (min_le_right _ _)⟩, rfl⟩

theorem range_ordered {m : RangeMap K V} (h : m.WF) (r : Range K) :
    (m.range r).Pairwise fun a b => a.1.stop ≤ b.1.start := by
  rw [range_eq h, List.pairwise_filterMap]
  refine h.ordered.imp fun {a b} hab s hs t ht => ?_
  have hoa : (entryRange a).Overlaps r := by
    by_contra hn
    rw [clip_eq_none.mpr hn] at hs
    cases hs
  have hob : (entryRange b).Overlaps r := by
    by_contra hn
    rw [clip_eq_none.mpr hn] at ht
    cases ht
  rw [clip_of_overlaps hoa, Option.some.injEq] at hs
  rw [clip_of_overlaps hob, Option.some.injEq] at ht
  subst hs ht
  exact (min_le_right _ _).trans (hab.trans (le_max_right _ _))

theorem range_ne_nil {m : RangeMap K V} (h : m.WF) {r : Range K} :
    m.range r ≠ [] ↔ ∃ x, r.Contains x ∧ (m.lookup x).isSome := by
  constructor
  · intro hne
    obtain ⟨⟨s, v⟩, hs⟩ := List.exists_mem_of_ne_nil _ hne
    obtain ⟨e, he, ho, -, -⟩ := (mem_range h).mp hs
    obtain ⟨x, hx, hr⟩ := Range.overlaps_iff_exists.mp ho
    exact ⟨x, hr, Option.isSome_iff_exists.mpr ⟨_, (lookup_eq_some h).mpr ⟨e, he, hx, rfl⟩⟩⟩
  · rintro ⟨x, hr, hx⟩
    obtain ⟨v, hv⟩ := Option.isSome_iff_exists.mp hx
    obtain ⟨e, he, hc, -⟩ := (lookup_eq_some h).mp hv
    have ho := Range.overlaps_iff_exists.mpr ⟨x, hc, hr⟩
    exact List.ne_nil_of_mem ((mem_range h).mpr ⟨e, he, ho, rfl, rfl⟩)

theorem not_overlaps_iff {r s : Range K} (hr : r.start < r.stop) (hs : s.start < s.stop) :
    ¬ r.Overlaps s ↔ r.stop ≤ s.start ∨ s.stop ≤ r.start := by
  rw [Range.overlaps_iff]
  constructor
  · intro h
    by_contra! hc
    exact h ⟨hr, hs, hc.2, hc.1⟩
  · rintro (h | h) hc
    · exact absurd hc.2.2.2 (not_lt.mpr h)
    · exact absurd hc.2.2.1 (not_lt.mpr h)

theorem filterMap_clip_cut {r s : Range K} {e : K × K × V} (he : e.2.1 < e.1)
    (hr : r.start < r.stop) (hs : s.start < s.stop) (h : ¬ r.Overlaps s) :
    (cut r e).filterMap (clip (some s.start) (some s.stop)) =
      (clip (some s.start) (some s.stop) e).toList := by
  obtain ⟨b, a, v⟩ := e
  rcases (not_overlaps_iff hr hs).mp h with h | h
  · grind [cut, clip]
  · grind [cut, clip]

theorem range_insert {m : RangeMap K V} (h : m.WF) {r s : Range K} (v : V)
    (hrs : ¬ r.Overlaps s) : (m.insert r v).range s = m.range s := by
  rcases le_or_gt r.stop r.start with hr | hr
  · rw [insert_of_empty hr]
  rcases le_or_gt s.stop s.start with hs | hs
  · have hnil : ∀ {m : RangeMap K V}, m.WF → m.range s = [] := by
      intro m hm
      by_contra hne
      obtain ⟨x, hx, -⟩ := (range_ne_nil hm).mp hne
      exact absurd (hx.1.trans_lt hx.2) (not_lt.mpr hs)
    rw [hnil h, hnil (wf_insert h r v)]
  obtain ⟨l₁, l₂, hl, hi, -, -⟩ := insert_split v h hr
  have hself : clip (some s.start) (some s.stop) (r.stop, r.start, v) = none :=
    clip_eq_none.mpr hrs
  calc (m.insert r v).range s
      = (m.erase r).map.filterMap (clip (some s.start) (some s.stop)) := by
        rw [range_eq (wf_insert h r v), hi, hl, List.filterMap_append, List.filterMap_cons, hself,
          List.filterMap_append]
    _ = m.map.flatMap fun e => (clip (some s.start) (some s.stop) e).toList := by
        rw [erase_map h hr.le, List.filterMap_flatMap]
        exact List.flatMap_congr fun e he => filterMap_clip_cut (h.nonempty e he) hr hs hrs
    _ = m.range s := by
        rw [range_eq h, List.filterMap_eq_flatMap_toList]

/-- The pieces of an entry when two ranges are taken out, the lower one named first. -/
def cutBoth (r s : Range K) (e x : K × K × V) : Prop :=
  x.2.2 = e.2.2 ∧ x.2.1 < x.1 ∧
    (x.1 = min e.1 r.start ∧ x.2.1 = e.2.1 ∨
      x.1 = min e.1 s.start ∧ x.2.1 = max e.2.1 r.stop ∨ x.1 = e.1 ∧ x.2.1 = max e.2.1 s.stop)

theorem cut_low_high {r s : Range K} {e x : K × K × V} (hr : r.start < r.stop)
    (hs : s.start < s.stop) (h : r.stop ≤ s.start) :
    (∃ y ∈ cut r e, x ∈ cut s y) ↔ cutBoth r s e x := by
  constructor
  · rintro ⟨y, hy, hx⟩
    obtain ⟨hv, hlt, hy⟩ := mem_cut.mp hy
    obtain ⟨hv', hlt', hx⟩ := mem_cut.mp hx
    refine ⟨hv'.trans hv, hlt', ?_⟩
    rcases hy with ⟨h₁, h₂⟩ | ⟨h₁, h₂⟩ <;> rcases hx with ⟨h₃, h₄⟩ | ⟨h₃, h₄⟩ <;>
      rw [h₁] at h₃ <;> rw [h₂] at h₄
    · exact Or.inl ⟨by rw [h₃]; grind, h₄⟩
    · exact absurd hlt' (by rw [h₃, h₄]; grind)
    · exact Or.inr (Or.inl ⟨h₃, h₄⟩)
    · exact Or.inr (Or.inr ⟨h₃, by rw [h₄]; grind⟩)
  · rintro ⟨hv, hlt, ⟨h₁, h₂⟩ | ⟨h₁, h₂⟩ | ⟨h₁, h₂⟩⟩
    · refine ⟨x, mem_cut.mpr ⟨hv, hlt, Or.inl ⟨h₁, h₂⟩⟩, mem_cut.mpr ⟨rfl, hlt, Or.inl ⟨?_, rfl⟩⟩⟩
      grind
    · refine ⟨(e.1, max e.2.1 r.stop, e.2.2), mem_cut.mpr ⟨rfl, ?_, Or.inr ⟨rfl, rfl⟩⟩,
        mem_cut.mpr ⟨hv, hlt, Or.inl ⟨h₁, h₂⟩⟩⟩
      grind
    · refine ⟨(e.1, max e.2.1 r.stop, e.2.2), mem_cut.mpr ⟨rfl, ?_, Or.inr ⟨rfl, rfl⟩⟩,
        mem_cut.mpr ⟨hv, hlt, Or.inr ⟨h₁, ?_⟩⟩⟩ <;> grind

theorem cut_high_low {r s : Range K} {e x : K × K × V} (hr : r.start < r.stop)
    (hs : s.start < s.stop) (h : r.stop ≤ s.start) :
    (∃ y ∈ cut s e, x ∈ cut r y) ↔ cutBoth r s e x := by
  constructor
  · rintro ⟨y, hy, hx⟩
    obtain ⟨hv, hlt, hy⟩ := mem_cut.mp hy
    obtain ⟨hv', hlt', hx⟩ := mem_cut.mp hx
    refine ⟨hv'.trans hv, hlt', ?_⟩
    rcases hy with ⟨h₁, h₂⟩ | ⟨h₁, h₂⟩ <;> rcases hx with ⟨h₃, h₄⟩ | ⟨h₃, h₄⟩ <;>
      rw [h₁] at h₃ <;> rw [h₂] at h₄
    · exact Or.inl ⟨by rw [h₃]; grind, h₄⟩
    · exact Or.inr (Or.inl ⟨h₃, h₄⟩)
    · exact absurd hlt' (by rw [h₃, h₄]; grind)
    · exact Or.inr (Or.inr ⟨h₃, by rw [h₄]; grind⟩)
  · rintro ⟨hv, hlt, ⟨h₁, h₂⟩ | ⟨h₁, h₂⟩ | ⟨h₁, h₂⟩⟩
    · refine ⟨(min e.1 s.start, e.2.1, e.2.2), mem_cut.mpr ⟨rfl, ?_, Or.inl ⟨rfl, rfl⟩⟩,
        mem_cut.mpr ⟨hv, hlt, Or.inl ⟨?_, h₂⟩⟩⟩ <;> grind
    · refine ⟨(min e.1 s.start, e.2.1, e.2.2), mem_cut.mpr ⟨rfl, ?_, Or.inl ⟨rfl, rfl⟩⟩,
        mem_cut.mpr ⟨hv, hlt, Or.inr ⟨h₁, h₂⟩⟩⟩
      grind
    · refine ⟨x, mem_cut.mpr ⟨hv, hlt, Or.inr ⟨h₁, h₂⟩⟩, mem_cut.mpr ⟨rfl, hlt, Or.inr ⟨rfl, ?_⟩⟩⟩
      grind

theorem cut_of_not_overlaps {r : Range K} {e : K × K × V} (hr : r.start < r.stop)
    (he : e.2.1 < e.1) (h : ¬ (entryRange e).Overlaps r) : cut r e = [e] := by
  rcases (not_overlaps_iff (r := entryRange e) he hr).mp h with h | h
  · exact cut_of_le_start hr.le he h
  · exact cut_of_stop_le hr.le he h

theorem insert_comm {m : RangeMap K V} (h : m.WF) {r s : Range K} (v w : V)
    (hrs : ¬ r.Overlaps s) : (m.insert r v).insert s w = (m.insert s w).insert r v := by
  rcases le_or_gt r.stop r.start with hr | hr
  · rw [insert_of_empty hr, insert_of_empty hr]
  rcases le_or_gt s.stop s.start with hs | hs
  · rw [insert_of_empty hs, insert_of_empty hs]
  have hwr := wf_insert h r v
  have hws := wf_insert h s w
  have hcut : ∀ e x : K × K × V, (∃ y ∈ cut r e, x ∈ cut s y) ↔ ∃ y ∈ cut s e, x ∈ cut r y := by
    intro e x
    rcases (not_overlaps_iff hr hs).mp hrs with hle | hle
    · rw [cut_low_high hr hs hle, cut_high_low hr hs hle]
    · rw [cut_low_high hs hr hle, cut_high_low hs hr hle]
  have hrself : cut s (r.stop, r.start, v) = [(r.stop, r.start, v)] :=
    cut_of_not_overlaps hs hr hrs
  have hsself : cut r (s.stop, s.start, w) = [(s.stop, s.start, w)] :=
    cut_of_not_overlaps hr hs (Range.overlaps_comm.not.mp hrs)
  have hmap : ((m.insert r v).insert s w).map = ((m.insert s w).insert r v).map := by
    refine OrderedMap.Sorted.eq_of_mem_iff (wf_insert hwr s w).sorted (wf_insert hws r v).sorted ?_
    intro x
    rw [mem_insert hwr hs, mem_insert hws hr]
    simp only [mem_insert h hr, mem_insert h hs, or_and_right, exists_or, exists_eq_left, hrself,
      hsself, List.mem_singleton]
    rw [or_left_comm]
    refine or_congr_right (or_congr_right ?_)
    constructor
    · rintro ⟨y, ⟨e, he, hy⟩, hx⟩
      obtain ⟨z, hz, hx⟩ := (hcut e x).mp ⟨y, hy, hx⟩
      exact ⟨z, ⟨e, he, hz⟩, hx⟩
    · rintro ⟨y, ⟨e, he, hy⟩, hx⟩
      obtain ⟨z, hz, hx⟩ := (hcut e x).mpr ⟨y, hy, hx⟩
      exact ⟨z, ⟨e, he, hz⟩, hx⟩
  exact congrArg RangeMap.mk hmap

inductive Op (K V : Type*) where
  | insert (r : Range K) (value : V)
  | erase (r : Range K)

def apply (m : RangeMap K V) : Op K V → RangeMap K V
  | .insert r value => m.insert r value
  | .erase r => m.erase r

def Op.Ordered : Op K V → Prop
  | .insert _ _ => True
  | .erase r => r.start ≤ r.stop

/-- What an operation does to a partial function, key by key. -/
def Op.assign (f : K → Option V) : Op K V → K → Option V
  | .insert r value => fun k => if r.Contains k then some value else f k
  | .erase r => fun k => if r.Contains k then none else f k

theorem wf_apply {m : RangeMap K V} (h : m.WF) {op : Op K V} (hop : op.Ordered) :
    (m.apply op).WF := by
  cases op with
  | insert r value => exact wf_insert h r value
  | erase r => exact wf_erase h hop

theorem lookup_apply {m : RangeMap K V} (h : m.WF) {op : Op K V} (hop : op.Ordered) :
    (m.apply op).lookup = op.assign m.lookup := by
  funext k
  cases op with
  | insert r value => exact lookup_insert h r value k
  | erase r => exact lookup_erase h hop k

theorem foldl_apply {m : RangeMap K V} (h : m.WF) {ops : List (Op K V)}
    (hops : ∀ op ∈ ops, op.Ordered) :
    (ops.foldl apply m).WF ∧ (ops.foldl apply m).lookup = ops.foldl Op.assign m.lookup := by
  induction ops generalizing m with
  | nil => exact ⟨h, rfl⟩
  | cons op ops ih =>
    rw [List.forall_mem_cons] at hops
    have hstep := ih (wf_apply h hops.1) hops.2
    rw [lookup_apply h hops.1] at hstep
    exact hstep

theorem WF.disjoint {m : RangeMap K V} (h : m.WF) :
    m.map.Pairwise fun a b => ¬ (entryRange a).Overlaps (entryRange b) := by
  refine h.ordered.imp fun {a b} hab ho => ?_
  rw [Range.overlaps_iff] at ho
  exact absurd ho.2.2.2 (not_lt.mpr hab)

/-- Any insertions and erasures from the empty map leave entries that are non-empty and
pairwise disjoint, and a key maps to the value of the entry that contains it exactly when
the last operation on the key gave it that value. -/
theorem refines_pointMap (ops : List (Op K V)) (hops : ∀ op ∈ ops, op.Ordered) :
    (∀ e ∈ (ops.foldl apply new).map, e.2.1 < e.1) ∧
    (ops.foldl apply new).map.Pairwise (fun a b => ¬ (entryRange a).Overlaps (entryRange b)) ∧
    (∀ k v, (∃ e ∈ (ops.foldl apply new).map, (entryRange e).Contains k ∧ e.2.2 = v) ↔
      ops.foldl Op.assign (fun _ => none) k = some v) ∧
    ∀ r : Range K, r.start ≤ r.stop →
      eraseStep r ((ops.foldl apply new).erase r).map = none := by
  obtain ⟨hwf, hlookup⟩ := foldl_apply wf_new hops
  refine ⟨hwf.nonempty, hwf.disjoint, fun k v => ?_, fun r hr => eraseStep_erase hwf hr⟩
  rw [← lookup_eq_some hwf, hlookup]
  rfl

theorem refines_pointMap_split : (∀ op ∈ [Op.insert ⟨10, 20⟩ 'a', .erase ⟨15, 15⟩,
      .insert ⟨12, 15⟩ 'b', .erase ⟨11, 13⟩], op.Ordered) ∧
    ∀ k v, (∃ e ∈ ([Op.insert ⟨10, 20⟩ 'a', .erase ⟨15, 15⟩, .insert ⟨12, 15⟩ 'b',
        .erase ⟨11, 13⟩].foldl apply (new : RangeMap ℕ Char)).map,
          (entryRange e).Contains k ∧ e.2.2 = v) ↔
      [Op.insert ⟨10, 20⟩ 'a', .erase ⟨15, 15⟩, .insert ⟨12, 15⟩ 'b', .erase ⟨11, 13⟩].foldl
        Op.assign (fun _ => none) k = some v := by
  have hops : ∀ op ∈ [Op.insert (⟨10, 20⟩ : Range ℕ) 'a', .erase ⟨15, 15⟩, .insert ⟨12, 15⟩ 'b',
      .erase ⟨11, 13⟩], op.Ordered := by
    simp [Op.Ordered]
  exact ⟨hops, (refines_pointMap _ hops).2.2.1⟩

end RangeMap
end AtomicSim
