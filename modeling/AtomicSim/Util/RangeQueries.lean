import AtomicSim.Util.RangeMap

namespace AtomicSim.RangeMap

variable {K V : Type*} [LinearOrder K] {m : RangeMap K V} {start stop : Option K}
  {e f x y : K × K × V} {p : Range K × V}

theorem mem_rangeBounds (h : m.WF) : p ∈ m.rangeBounds start stop ↔
    ∃ e ∈ m.map, p = (clipped start stop e, e.2.2) ∧ p.1.start < p.1.stop := by
  rw [rangeBounds_eq h, List.mem_filterMap]
  simp only [clip_eq_some]

theorem rangeBounds_ordered (h : m.WF) (start stop : Option K) :
    (m.rangeBounds start stop).Pairwise fun a b => ∃ e ∈ m.map, ∃ f ∈ m.map, e.1 ≤ f.2.1 ∧
      a = (clipped start stop e, e.2.2) ∧ b = (clipped start stop f, f.2.2) := by
  rw [rangeBounds_eq h, List.pairwise_filterMap]
  apply h.ordered.imp_of_mem
  intro e f he hf hef a ha b hb
  exact ⟨e, he, f, hf, hef, (clip_eq_some.mp ha).1, (clip_eq_some.mp hb).1⟩

theorem clipped_stop_le (start stop : Option K) (e : K × K × V) :
    (clipped start stop e).stop ≤ e.1 := by
  cases stop with
  | none => exact le_rfl
  | some t => exact min_le_right _ _

theorem le_clipped_start (start stop : Option K) (e : K × K × V) :
    e.2.1 ≤ (clipped start stop e).start := by
  cases start with
  | none => exact le_rfl
  | some s => exact le_max_right _ _

/-- Disjoint entries, sorted by their ends, are sorted by their starts as well. -/
theorem wf_of_disjoint (hs : OrderedMap.Sorted m.map) (hne : ∀ e ∈ m.map, e.2.1 < e.1)
    (hd : m.map.Pairwise fun a b => ¬ (entryRange a).Overlaps (entryRange b)) : m.WF := by
  refine ⟨hne, (hs.and hd).imp_of_mem ?_⟩
  rintro a b ha hb ⟨hlt, hab⟩
  rcases (not_overlaps_iff (r := entryRange a) (s := entryRange b) (hne a ha) (hne b hb)).mp hab
    with hle | hle
  · exact hle
  · exact absurd (hle.trans (hne a ha).le) (not_le.mpr hlt)

/-- Range queries are exact: on a map whose entries are non-empty and pairwise disjoint, the
pieces of a query are non-empty, they come in strictly increasing order without overlap, and
the keys of a piece are keys of the query that the entry with its value covers; no key of the
query that is covered is left out. -/
theorem range_exact (hs : OrderedMap.Sorted m.map) (hne : ∀ e ∈ m.map, e.2.1 < e.1)
    (hd : m.map.Pairwise fun a b => ¬ (entryRange a).Overlaps (entryRange b))
    (start stop : Option K) :
    (∀ p ∈ m.rangeBounds start stop, p.1.start < p.1.stop) ∧
    ((m.rangeBounds start stop).Pairwise fun p q =>
      p.1.start < q.1.start ∧ ¬ p.1.Overlaps q.1) ∧
    (∀ p ∈ m.rangeBounds start stop, ∀ k, p.1.Contains k → Within start stop k) ∧
    ∀ k v, (∃ p ∈ m.rangeBounds start stop, p.1.Contains k ∧ p.2 = v) ↔
      Within start stop k ∧ ∃ e ∈ m.map, (entryRange e).Contains k ∧ e.2.2 = v := by
  have h := wf_of_disjoint hs hne hd
  have hpos : ∀ p ∈ m.rangeBounds start stop, p.1.start < p.1.stop := by
    intro p hp
    obtain ⟨e, -, -, hlt⟩ := (mem_rangeBounds h).mp hp
    exact hlt
  refine ⟨hpos, ?_, ?_, ?_⟩
  · apply (rangeBounds_ordered h start stop).imp_of_mem
    rintro p q hp hq ⟨e, -, f, -, hef, rfl, rfl⟩
    have hle := (clipped_stop_le start stop e).trans (hef.trans (le_clipped_start start stop f))
    refine ⟨(hpos _ hp).trans_le hle, ?_⟩
    exact (not_overlaps_iff (hpos _ hp) (hpos _ hq)).mpr (Or.inl hle)
  · intro p hp k hk
    obtain ⟨e, -, rfl, -⟩ := (mem_rangeBounds h).mp hp
    exact (contains_clipped.mp hk).2
  · intro k v
    constructor
    · rintro ⟨p, hp, hk, rfl⟩
      obtain ⟨e, he, rfl, -⟩ := (mem_rangeBounds h).mp hp
      obtain ⟨hek, hwithin⟩ := contains_clipped.mp hk
      exact ⟨hwithin, e, he, hek, rfl⟩
    · rintro ⟨hwithin, e, he, hek, rfl⟩
      have hk : (clipped start stop e).Contains k := contains_clipped.mpr ⟨hek, hwithin⟩
      exact ⟨_, (mem_rangeBounds h).mpr ⟨e, he, rfl, hk.1.trans_lt hk.2⟩, hk, rfl⟩

/-- A query without an upper bound that starts inside an entry. -/
theorem range_exact_unbounded :
    OrderedMap.Sorted (⟨[(3, 1, 'a'), (7, 4, 'b')]⟩ : RangeMap ℕ Char).map ∧
    (∀ e ∈ (⟨[(3, 1, 'a'), (7, 4, 'b')]⟩ : RangeMap ℕ Char).map, e.2.1 < e.1) ∧
    (⟨[(3, 1, 'a'), (7, 4, 'b')]⟩ : RangeMap ℕ Char).map.Pairwise
      (fun a b => ¬ (entryRange a).Overlaps (entryRange b)) ∧
    ∀ k v, (∃ p ∈ (⟨[(3, 1, 'a'), (7, 4, 'b')]⟩ : RangeMap ℕ Char).rangeBounds (some 2) none,
        p.1.Contains k ∧ p.2 = v) ↔
      Within (some 2) none k ∧ ∃ e ∈ (⟨[(3, 1, 'a'), (7, 4, 'b')]⟩ : RangeMap ℕ Char).map,
        (entryRange e).Contains k ∧ e.2.2 = v := by
  have hs : OrderedMap.Sorted (⟨[(3, 1, 'a'), (7, 4, 'b')]⟩ : RangeMap ℕ Char).map := by
    simp [OrderedMap.Sorted]
  have hne : ∀ e ∈ (⟨[(3, 1, 'a'), (7, 4, 'b')]⟩ : RangeMap ℕ Char).map, e.2.1 < e.1 := by simp
  have hd : (⟨[(3, 1, 'a'), (7, 4, 'b')]⟩ : RangeMap ℕ Char).map.Pairwise
      (fun a b => ¬ (entryRange a).Overlaps (entryRange b)) := by
    simp [entryRange, Range.Overlaps]
  exact ⟨hs, hne, hd, (range_exact hs hne hd (some 2) none).2.2.2⟩

/-- Entries that touch hold different values, and every value was inserted. -/
structure Separated (m : RangeMap K V) (values : List V) : Prop where
  wf : m.WF
  apart : ∀ e ∈ m.map, ∀ f ∈ m.map, e.1 = f.2.1 → e.2.2 ≠ f.2.2
  inserted : ∀ e ∈ m.map, e.2.2 ∈ values

theorem separated_new : (new : RangeMap K V).Separated [] := by
  constructor
  · exact wf_new
  · simp [new]
  · simp [new]

theorem not_touch_of_mem_cut {r : Range K} (hr : r.start < r.stop) (hx : x ∈ cut r e)
    (hy : y ∈ cut r e) : x.1 ≠ y.2.1 := by
  intro heq
  have hin := cut_inside hy
  have hlt := (cut_inside hx).2.1
  obtain ⟨-, -, ⟨hx₁, hx₂⟩ | ⟨hx₁, -⟩⟩ := mem_cut.mp hx
  · obtain ⟨-, -, ⟨-, hy₂⟩ | ⟨-, hy₂⟩⟩ := mem_cut.mp hy
    · rw [heq, hx₂, hy₂] at hlt
      exact lt_irrefl _ hlt
    · have hle : r.stop ≤ r.start := by
        apply (le_max_right e.2.1 r.stop).trans
        rw [← hy₂, ← heq, hx₁]
        exact min_le_right _ _
      exact absurd hle (not_le.mpr hr)
  · rw [← heq, hx₁] at hin
    exact absurd (hin.2.1.trans_le hin.2.2) (lt_irrefl _)

theorem touch_of_mem_cut (h : m.WF) {r : Range K} (hr : r.start < r.stop) (he : e ∈ m.map)
    (hf : f ∈ m.map) (hx : x ∈ cut r e) (hy : y ∈ cut r f) (hxy : x.1 = y.2.1) :
    e.1 = f.2.1 := by
  have hne : e ≠ f := by
    rintro rfl
    exact not_touch_of_mem_cut hr hx hy hxy
  obtain ⟨hxs, hxlt, hxe⟩ := cut_inside hx
  obtain ⟨hys, hylt, hye⟩ := cut_inside hy
  have hsymm : m.map.Pairwise fun a b => a.1 ≤ b.2.1 ∨ b.1 ≤ a.2.1 := h.ordered.imp Or.inl
  have : Std.Symm fun a b : K × K × V => a.1 ≤ b.2.1 ∨ b.1 ≤ a.2.1 := ⟨fun _ _ hab => hab.symm⟩
  rcases hsymm.forall he hf hne with hef | hfe
  · apply le_antisymm hef
    apply hys.trans
    rw [← hxy]
    exact hxe
  · have hlt : x.1 < x.1 := by
      calc x.1 = y.2.1 := hxy
        _ < y.1 := hylt
        _ ≤ f.1 := hye
        _ ≤ e.2.1 := hfe
        _ ≤ x.2.1 := hxs
        _ < x.1 := hxlt
    exact absurd hlt (lt_irrefl _)

theorem Separated.insert {values : List V} (h : m.Separated values) (r : Range K) {v : V}
    (hv : v ∉ values) : (m.insert r v).Separated (values ++ [v]) := by
  rcases le_or_gt r.stop r.start with hr | hr
  · rw [insert_of_empty hr]
    exact ⟨h.wf, h.apart, fun e he => List.mem_append_left _ (h.inserted e he)⟩
  have hold : ∀ {e x : K × K × V}, e ∈ m.map → x ∈ cut r e → x.2.2 ∈ values := by
    intro e x he hx
    rw [(mem_cut.mp hx).1]
    exact h.inserted e he
  constructor
  · exact wf_insert h.wf r v
  · intro x hx y hy hxy
    rcases (mem_insert h.wf hr).mp hx with rfl | ⟨e, he, hxe⟩
    · rcases (mem_insert h.wf hr).mp hy with rfl | ⟨f, hf, hyf⟩
      · exact absurd hxy hr.ne'
      · intro hvalue
        have hy := hold hf hyf
        rw [← hvalue] at hy
        exact hv hy
    · rcases (mem_insert h.wf hr).mp hy with rfl | ⟨f, hf, hyf⟩
      · intro hvalue
        have hx := hold he hxe
        rw [hvalue] at hx
        exact hv hx
      · rw [(mem_cut.mp hxe).1, (mem_cut.mp hyf).1]
        exact h.apart e he f hf (touch_of_mem_cut h.wf hr he hf hxe hyf hxy)
  · intro x hx
    rw [List.mem_append, List.mem_singleton]
    rcases (mem_insert h.wf hr).mp hx with rfl | ⟨e, he, hxe⟩
    · exact Or.inr rfl
    · exact Or.inl (hold he hxe)

theorem Separated.foldl {values : List V} (h : m.Separated values) (l : List (Range K × V))
    (hd : (values ++ l.map Prod.snd).Nodup) :
    (l.foldl (fun m e => m.insert e.1 e.2) m).Separated (values ++ l.map Prod.snd) := by
  induction l generalizing m values with
  | nil => simpa using h
  | cons a l ih =>
    rw [List.map_cons, List.append_cons] at hd ⊢
    apply ih _ hd
    apply h.insert
    have hnodup := (List.nodup_append.mp hd).1
    intro hmem
    exact (List.nodup_append.mp hnodup).2.2 _ hmem _ (List.mem_singleton_self _) rfl

/-- Fragments of one insertion never touch: whatever is inserted, under pairwise distinct
values, no two consecutive pieces of a query meet and have the same value. -/
theorem fragments_apart (inserts : List (Range K × V)) (hd : (inserts.map Prod.snd).Nodup)
    (start stop : Option K) :
    ((fromIter inserts).rangeBounds start stop).IsChain
      fun p q => ¬ (p.1.stop = q.1.start ∧ p.2 = q.2) := by
  have h : (fromIter inserts).Separated (inserts.map Prod.snd) := separated_new.foldl inserts hd
  apply List.Pairwise.isChain
  apply (rangeBounds_ordered h.wf start stop).imp
  rintro p q ⟨e, he, f, hf, hef, rfl, rfl⟩ ⟨htouch, hvalue⟩
  have htouch' : e.1 = f.2.1 := by
    apply le_antisymm hef
    apply (le_clipped_start start stop f).trans
    rw [← htouch]
    exact clipped_stop_le start stop e
  exact h.apart e he f hf htouch' hvalue

/-- An insertion that is split, and split again where the gap ends. -/
theorem fragments_apart_split :
    ([((⟨0, 9⟩ : Range ℕ), 'a'), (⟨3, 5⟩, 'b'), (⟨5, 6⟩, 'c')].map Prod.snd).Nodup ∧
    ((fromIter [((⟨0, 9⟩ : Range ℕ), 'a'), (⟨3, 5⟩, 'b'), (⟨5, 6⟩, 'c')]).rangeBounds none
      (some 8)).IsChain fun p q => ¬ (p.1.stop = q.1.start ∧ p.2 = q.2) :=
  ⟨by decide, fragments_apart _ (by decide) none (some 8)⟩

end AtomicSim.RangeMap
