import Mathlib.Data.Nat.Notation

namespace AtomicSim

-- A recursive program that may diverge is a family of programs, one for each amount of fuel.
-- What it comes to with enough fuel is a Hoare triple that also says that it ends.

/-- What a run comes to. -/
inductive Outcome (ε S α : Type) where
  | done (a : α) (s : S)
  | fail (e : ε)
  | running
  deriving DecidableEq, Repr

def Outcome.bind {ε S α β : Type} (o : Outcome ε S α) (f : α → S → Outcome ε S β) :
    Outcome ε S β :=
  match o with
  | .done a s => f a s
  | .fail e => .fail e
  | .running => .running

def Prog (ε S α : Type) : Type := S → Outcome ε S α

namespace Prog

variable {ε S α β γ : Type}

instance : Monad (Prog ε S) where
  pure a := fun s => .done a s
  bind m f := fun s => (m s).bind f

def fail (e : ε) : Prog ε S α := fun _ => .fail e

def ofOption (e : ε) (o : Option α) : Prog ε S α := fun s =>
  match o with
  | some a => .done a s
  | none => .fail e

def modify (f : S → S) : Prog ε S Unit := fun s => .done () (f s)

def gets (f : S → α) : Prog ε S α := fun s => .done (f s) s

theorem bind_apply (m : Prog ε S α) (f : α → Prog ε S β) (s : S) :
    (m >>= f) s = (m s).bind fun a => f a := rfl

/-- From `N` units of fuel on, the run always ends in the same way: with a result and a state
that meet `P`, or with an error that meets `Q`. -/
def Runs (N : ℕ) (m : ℕ → Prog ε S α) (s : S) (P : α → S → Prop) (Q : ε → Prop) : Prop :=
  (∃ a s', (∀ n ≥ N, m n s = .done a s') ∧ P a s') ∨ ∃ e, (∀ n ≥ N, m n s = .fail e) ∧ Q e

namespace Runs

variable {N M : ℕ} {m : ℕ → Prog ε S α} {s : S} {P P' : α → S → Prop} {Q Q' : ε → Prop}

theorem mono_fuel (h : Runs N m s P Q) (hNM : N ≤ M) : Runs M m s P Q := by
  rcases h with ⟨a, s', hm, hP⟩ | ⟨e, hm, hQ⟩
  · exact .inl ⟨a, s', fun n hn => hm n (Nat.le_trans hNM hn), hP⟩
  · exact .inr ⟨e, fun n hn => hm n (Nat.le_trans hNM hn), hQ⟩

theorem weaken (h : Runs N m s P Q) (hP : ∀ a s', P a s' → P' a s') (hQ : ∀ e, Q e → Q' e) :
    Runs N m s P' Q' := by
  rcases h with ⟨a, s', hm, ha⟩ | ⟨e, hm, he⟩
  · exact .inl ⟨a, s', hm, hP a s' ha⟩
  · exact .inr ⟨e, hm, hQ e he⟩

theorem pure {a : α} (h : P a s) : Runs N (fun _ => Pure.pure a) s P Q :=
  .inl ⟨a, s, fun _ _ => rfl, h⟩

theorem fail {e : ε} (h : Q e) : Runs N (fun _ => Prog.fail e) s P Q :=
  .inr ⟨e, fun _ _ => rfl, h⟩

theorem ofOption {e : ε} {o : Option α} (hs : ∀ a, o = some a → P a s) (hn : o = none → Q e) :
    Runs N (fun _ => Prog.ofOption e o) s P Q := by
  cases o with
  | none => exact .inr ⟨e, fun _ _ => rfl, hn rfl⟩
  | some a => exact .inl ⟨a, s, fun _ _ => rfl, hs a rfl⟩

theorem bind {f : ℕ → α → Prog ε S β} {R : β → S → Prop} (h : Runs N m s P Q)
    (hf : ∀ a s', P a s' → Runs N (fun n => f n a) s' R Q) :
    Runs N (fun n => m n >>= f n) s R Q := by
  rcases h with ⟨a, s', hm, hP⟩ | ⟨e, hm, hQ⟩
  · rcases hf a s' hP with ⟨b, s'', hb, hR⟩ | ⟨e, he, hQ⟩
    · refine .inl ⟨b, s'', fun n hn => ?_, hR⟩
      simp only [bind_apply, hm n hn]
      exact hb n hn
    · refine .inr ⟨e, fun n hn => ?_, hQ⟩
      simp only [bind_apply, hm n hn]
      exact he n hn
  · refine .inr ⟨e, fun n hn => ?_, hQ⟩
    simp only [bind_apply, hm n hn]
    rfl

theorem congr {m' : ℕ → Prog ε S α} (h : Runs N m s P Q) (he : ∀ n ≥ N, m' n s = m n s) :
    Runs N m' s P Q := by
  rcases h with ⟨a, s', hm, hP⟩ | ⟨e, hm, hQ⟩
  · exact .inl ⟨a, s', fun n hn => (he n hn).trans (hm n hn), hP⟩
  · exact .inr ⟨e, fun n hn => (he n hn).trans (hm n hn), hQ⟩

/-- What one more unit of fuel pays for. -/
theorem succ (h : Runs N (fun n => m (n + 1)) s P Q) : Runs (N + 1) m s P Q := by
  have hpred : ∀ n ≥ N + 1, ∃ k ≥ N, n = k + 1 := fun n hn => ⟨n - 1, by omega, by omega⟩
  rcases h with ⟨a, s', hm, hP⟩ | ⟨e, hm, hQ⟩
  · refine .inl ⟨a, s', fun n hn => ?_, hP⟩
    obtain ⟨k, hk, rfl⟩ := hpred n hn
    exact hm k hk
  · refine .inr ⟨e, fun n hn => ?_, hQ⟩
    obtain ⟨k, hk, rfl⟩ := hpred n hn
    exact hm k hk

theorem modify {f : S → S} {R : Unit → S → Prop} (h : R () (f s)) :
    Runs N (fun _ => Prog.modify f) s R Q := .inl ⟨(), f s, fun _ _ => rfl, h⟩

/-- One amount of fuel that is enough for each of finitely many programs. -/
theorem exists_bound {κ : Type*} {R : κ → ℕ → Prop} (l : List κ)
    (hmono : ∀ k N M, R k N → N ≤ M → R k M) (h : ∀ k ∈ l, ∃ N, R k N) :
    ∃ N, ∀ k ∈ l, R k N := by
  induction l with
  | nil => exact ⟨0, nofun⟩
  | cons k l ih =>
    rw [List.forall_mem_cons] at h
    obtain ⟨N, hN⟩ := h.1
    obtain ⟨M, hM⟩ := ih h.2
    refine ⟨max N M, ?_⟩
    rw [List.forall_mem_cons]
    refine ⟨hmono k N _ hN (Nat.le_max_left _ _), fun j hj => ?_⟩
    exact hmono j M _ (hM j hj) (Nat.le_max_right _ _)

end Runs
end Prog
end AtomicSim
