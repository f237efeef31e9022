import AtomicSim.Lib.Loop
import AtomicSim.Util.RangeMap

namespace AtomicSim.RangeMap

open OrderedMap

variable {K V : Type*} [LinearOrder K] {r : Range K}

/-- The entries that a turn of the loop would still take: they end above `r.start` and do not
yet start at `r.stop`. -/
def pending (r : Range K) (map : List (K × K × V)) : List (K × K × V) :=
  (above r.start map).filter fun e => e.2.1 < r.stop

theorem length_pending_insert {k : K} {x : K × V} (h : ¬ (r.start < k ∧ x.1 < r.stop))
    (map : List (K × K × V)) :
    (pending r (OrderedMap.insert k x map)).length ≤ (pending r map).length := by
  simp only [pending, above, List.filter_filter]
  have hx : (decide (x.1 < r.stop) && decide (r.start < k)) = false := by
    simp only [Bool.and_eq_false_iff, decide_eq_false_iff_not]
    tauto
  induction map with
  | nil => simp [OrderedMap.insert, hx]
  | cons e l ih =>
    rw [OrderedMap.insert]
    split_ifs with hlt heq
    · simp [hx]
    · simp only [List.filter_cons, hx, Bool.false_eq_true, if_false]
      split_ifs <;> simp
    · simp only [List.filter_cons]
      split_ifs <;> simpa using ih

theorem length_pending_remove {e : K × K × V} {map : List (K × K × V)} (he : e ∈ pending r map) :
    (pending r (remove e.1 map)).length < (pending r map).length := by
  have hfilter : pending r (remove e.1 map) = (pending r map).filter fun a => a.1 ≠ e.1 := by
    simp only [pending, above, remove, List.filter_filter]
    refine List.filter_congr fun a _ => ?_
    cases decide (a.2.1 < r.stop) <;> cases decide (r.start < a.1) <;> simp
  rw [hfilter, List.length_filter_lt_length_iff_exists]
  exact ⟨e, he, by simp⟩

/-- A turn removes a pending entry, and neither of the pieces that it puts back is pending: one
ends at `r.start`, the other starts at `r.stop`. -/
theorem length_pending_eraseStep {map map' : List (K × K × V)} (h : eraseStep r map = some map') :
    (pending r map').length < (pending r map).length := by
  rw [eraseStep] at h
  cases hhead : (above r.start map).head? with
  | none => simp [hhead] at h
  | some e =>
    obtain ⟨vEnd, vStart, value⟩ := e
    simp only [hhead] at h
    by_cases hstop : vStart ≥ r.stop
    · simp [hstop] at h
    rw [if_neg hstop] at h
    have hmem : (vEnd, vStart, value) ∈ pending r map := by
      rw [pending, List.mem_filter]
      exact ⟨List.mem_of_mem_head? hhead, by simpa using hstop⟩
    let left := if vStart < r.start then
      OrderedMap.insert r.start (vStart, value) (remove vEnd map) else remove vEnd map
    -- the left piece ends at `r.start`
    have hleft : (pending r left).length ≤ (pending r (remove vEnd map)).length := by
      dsimp only [left]
      split_ifs
      · exact length_pending_insert (by simp) _
      · exact le_rfl
    have hmap : map' = if r.stop < vEnd then OrderedMap.insert vEnd (r.stop, value) left
        else left := (Option.some.inj h).symm
    -- the right piece starts at `r.stop`
    have hright : (pending r map').length ≤ (pending r left).length := by
      rw [hmap]
      clear_value left
      split_ifs
      · exact length_pending_insert (by simp) left
      · exact le_rfl
    calc (pending r map').length ≤ (pending r left).length := hright
      _ ≤ (pending r (remove vEnd map)).length := hleft
      _ < (pending r map).length := length_pending_remove hmem

theorem eraseLoop_of_endsWithin {n : ℕ} {map map' : List (K × K × V)}
    (h : Loop.EndsWithin (eraseStep r) n map map') : eraseLoop r n map = map' := by
  obtain ⟨k, hk, hturns, hnone⟩ := h
  induction k generalizing n map with
  | zero =>
    obtain rfl := Option.some.inj hturns
    exact eraseLoop_of_none hnone n
  | succ k ih =>
    obtain ⟨map₁, hstep, hturns⟩ := Option.bind_eq_some_iff.mp hturns
    obtain ⟨n, rfl⟩ : ∃ m, n = m + 1 := ⟨n - 1, by omega⟩
    rw [eraseLoop, hstep]
    exact ih (Nat.le_of_succ_le_succ hk) hturns

/-- On any map and any range, the loop of `erase` is left after at most one turn for each entry
that ends above `r.start`. -/
theorem erase_endsWithin (m : RangeMap K V) (r : Range K) :
    Loop.EndsWithin (eraseStep r) (above r.start m.map).length m.map (m.erase r).map := by
  obtain ⟨map', h⟩ := Loop.exists_endsWithin (fun map => (pending r map).length)
    (fun _ _ => length_pending_eraseStep) m.map
  have hle : (pending r m.map).length ≤ (above r.start m.map).length := List.length_filter_le _ _
  have hends := h.mono hle
  rwa [← eraseLoop_of_endsWithin hends] at hends

end AtomicSim.RangeMap
