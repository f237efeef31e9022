import Mathlib.Data.Nat.Notation

namespace AtomicSim.Loop

-- The body of a loop is a function that returns `none` where it leaves the loop.

variable {σ : Type*} {step : σ → Option σ}

/-- The state after `n` complete turns. -/
def turns (step : σ → Option σ) : ℕ → σ → Option σ
  | 0, s => some s
  | n + 1, s => (step s).bind (turns step n)

/-- The loop is left within `n` turns, in the state `s'`. -/
def EndsWithin (step : σ → Option σ) (n : ℕ) (s s' : σ) : Prop :=
  ∃ k ≤ n, turns step k s = some s' ∧ step s' = none

theorem turns_succ {s s' : σ} (h : step s = some s') (n : ℕ) :
    turns step (n + 1) s = turns step n s' := by
  simp only [turns, h, Option.bind_some]

theorem EndsWithin.of_none {s : σ} (h : step s = none) (n : ℕ) : EndsWithin step n s s :=
  ⟨0, Nat.zero_le n, rfl, h⟩

theorem EndsWithin.succ {s s' t : σ} {n : ℕ} (h : step s = some s')
    (ht : EndsWithin step n s' t) : EndsWithin step (n + 1) s t := by
  obtain ⟨k, hk, hturns, hnone⟩ := ht
  exact ⟨k + 1, Nat.succ_le_succ hk, (turns_succ h k).trans hturns, hnone⟩

theorem EndsWithin.mono {s t : σ} {n m : ℕ} (h : EndsWithin step n s t) (hnm : n ≤ m) :
    EndsWithin step m s t := by
  obtain ⟨k, hk, ht⟩ := h
  exact ⟨k, Nat.le_trans hk hnm, ht⟩

/-- A loop whose turns make a measure smaller ends within so many turns. -/
theorem exists_endsWithin (μ : σ → ℕ) (h : ∀ s s', step s = some s' → μ s' < μ s) (s : σ) :
    ∃ t, EndsWithin step (μ s) s t := by
  induction hn : μ s using Nat.strongRecOn generalizing s with
  | ind n ih =>
    cases hs : step s with
    | none => exact ⟨s, .of_none hs n⟩
    | some s' =>
      have hlt : μ s' < n := hn ▸ h s s' hs
      obtain ⟨t, ht⟩ := ih (μ s') hlt s' rfl
      exact ⟨t, (ht.succ hs).mono hlt⟩

/-- What holds before the first turn and is kept by each turn, for the part of the list that is
done, holds of the whole list where the loop does not panic. -/
theorem foldlM_invariant {α : Type*} {f : σ → α → Option σ} {P : List α → σ → Prop} {l : List α}
    (h : ∀ done a s s', done ++ [a] <+: l → P done s → f s a = some s' → P (done ++ [a]) s')
    {s s' : σ} (hs : P [] s) (hrun : l.foldlM f s = some s') : P l s' := by
  suffices hrest : ∀ done rest s, done ++ rest = l → P done s → rest.foldlM f s = some s' →
      P l s' from hrest [] l s rfl hs hrun
  intro done rest
  induction rest generalizing done with
  | nil =>
    rintro s rfl hdone hs'
    cases hs'
    rwa [List.append_nil]
  | cons a rest ih =>
    intro s hl hdone hs'
    rw [List.foldlM_cons] at hs'
    obtain ⟨s₁, h₁, hs'⟩ := Option.bind_eq_some_iff.mp hs'
    have hsplit : done ++ [a] ++ rest = l := by rw [List.append_assoc, List.singleton_append, hl]
    exact ih (done ++ [a]) s₁ hsplit (h done a s s₁ ⟨rest, hsplit⟩ hdone h₁) hs'

end AtomicSim.Loop
