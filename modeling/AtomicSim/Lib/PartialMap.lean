import Mathlib.Data.Finset.Card
import Mathlib.Data.Finset.Filter

namespace AtomicSim.PartialMap

-- A recursive definition with finitely many names is the operator that unfolds it
-- once. Unfolding it once for each name already reaches the fixed point.

variable {α β : Type*} {f g h : α → Option β}

/-- Whatever `f` answers, `g` answers as well. -/
def Extends (f g : α → Option β) : Prop := ∀ a b, f a = some b → g a = some b

theorem Extends.refl (f : α → Option β) : Extends f f := fun _ _ h => h

theorem Extends.trans (hfg : Extends f g) (hgh : Extends g h) : Extends f h :=
  fun a b hf => hgh a b (hfg a b hf)

theorem Extends.antisymm (hfg : Extends f g) (hgf : Extends g f) : f = g := by
  funext a
  apply Option.ext
  exact fun b => ⟨hfg a b, hgf a b⟩

/-- Different names have different answers. -/
def Injective (f : α → Option β) : Prop := ∀ a a' b, f a = some b → f a' = some b → a = a'

def Mono (F : (α → Option β) → α → Option β) : Prop :=
  ∀ f g, Extends f g → Extends (F f) (F g)

/-- Unfold `n` times, and give up. -/
def iter (F : (α → Option β) → α → Option β) : ℕ → α → Option β
  | 0 => fun _ => none
  | n + 1 => F (iter F n)

variable {F : (α → Option β) → α → Option β}

theorem iter_extends_succ (hF : Mono F) (n : ℕ) : Extends (iter F n) (iter F (n + 1)) := by
  induction n with
  | zero => exact fun a b h => by cases h
  | succ n ih => exact hF _ _ ih

theorem iter_succ_eq (hF : Mono F) {n : ℕ}
    (h : ∀ a, (iter F (n + 1) a).isSome → (iter F n a).isSome) :
    iter F (n + 1) = iter F n := by
  apply Extends.antisymm _ (iter_extends_succ hF n)
  intro a b hb
  obtain ⟨b', hb'⟩ := Option.isSome_iff_exists.mp (h a (by rw [hb]; rfl))
  have hsucc := iter_extends_succ hF n a b' hb'
  rw [hb'] at *
  exact hsucc.symm.trans hb

theorem iter_eq_of_succ_eq {n : ℕ} (h : iter F (n + 1) = iter F n) {m : ℕ} (hm : n ≤ m) :
    iter F m = iter F n := by
  induction hm with
  | refl => rfl
  | step _ ih =>
    show F (iter F _) = iter F n
    rw [ih]
    exact h

variable [DecidableEq α] {S : Finset α}

def answered (F : (α → Option β) → α → Option β) (S : Finset α) (n : ℕ) : Finset α :=
  S.filter fun a => (iter F n a).isSome

theorem card_answered_lt (hF : Mono F) (hS : ∀ f a, a ∉ S → F f a = none) {n : ℕ}
    (h : iter F (n + 1) ≠ iter F n) : (answered F S n).card < (answered F S (n + 1)).card := by
  apply Finset.card_lt_card
  have hsub : answered F S n ⊆ answered F S (n + 1) := by
    intro a ha
    obtain ⟨haS, hsome⟩ := Finset.mem_filter.mp ha
    obtain ⟨b, hb⟩ := Option.isSome_iff_exists.mp hsome
    rw [answered, Finset.mem_filter, iter_extends_succ hF n a b hb]
    exact ⟨haS, rfl⟩
  refine ⟨hsub, fun hback => h (iter_succ_eq hF fun a ha => ?_)⟩
  have haS : a ∈ S := by
    by_contra hn
    rw [show iter F (n + 1) a = none from hS _ a hn] at ha
    cases ha
  exact (Finset.mem_filter.mp (hback (Finset.mem_filter.mpr ⟨haS, ha⟩))).2

/-- One turn for each name is enough. -/
theorem iter_stable (hF : Mono F) (hS : ∀ f a, a ∉ S → F f a = none) {n : ℕ} (hn : S.card ≤ n) :
    iter F (n + 1) = iter F n := by
  by_contra hne
  have hgrow : ∀ k ≤ n, iter F (k + 1) ≠ iter F k := by
    intro k hk heq
    apply hne
    rw [iter_eq_of_succ_eq heq hk, iter_eq_of_succ_eq heq (hk.trans (Nat.le_succ n))]
  have hcard : ∀ k ≤ n + 1, k ≤ (answered F S k).card := by
    intro k
    induction k with
    | zero => exact fun _ => Nat.zero_le _
    | succ k ih =>
      intro hk
      have hlt := card_answered_lt hF hS (hgrow k (by omega))
      have := ih (by omega)
      omega
  have htop := hcard (n + 1) le_rfl
  have hle : (answered F S (n + 1)).card ≤ S.card := Finset.card_filter_le _ _
  omega

end AtomicSim.PartialMap
