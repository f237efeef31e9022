import Mathlib.Order.Basic
import Mathlib.Order.Defs.LinearOrder
import Mathlib.Data.List.Sort

namespace AtomicSim.OrderedMap

-- A map from an ordered key type is the list of its entries in increasing key
-- order, so that equal maps are equal lists and iteration is the list itself.

variable {K α β : Type*}

/-- Map while the function answers; the first refusal ends the iteration. -/
def mapWhile (f : α → Option β) : List α → List β
  | [] => []
  | a :: l =>
    match f a with
    | none => []
    | some b => b :: mapWhile f l

theorem mapWhile_eq_filterMap {f : α → Option β} {l : List α}
    (h : l.Pairwise fun a b => f a = none → f b = none) :
    mapWhile f l = l.filterMap f := by
  induction l with
  | nil => rfl
  | cons a l ih =>
    rw [List.pairwise_cons] at h
    cases ha : f a with
    | some b => simp only [mapWhile, ha, List.filterMap_cons, ih h.2]
    | none =>
      have hl : l.filterMap f = [] := by
        rw [List.filterMap_eq_nil_iff]
        exact fun b hb => h.1 b hb ha
      simp only [mapWhile, ha, List.filterMap_cons, hl]

variable [LinearOrder K]

/-- Keys increase strictly. -/
def Sorted (l : List (K × α)) : Prop := l.Pairwise fun a b => a.1 < b.1

/-- Add an entry at its place, replacing the entry with the same key. -/
def insert (k : K) (x : α) : List (K × α) → List (K × α)
  | [] => [(k, x)]
  | e :: l =>
    if k < e.1 then (k, x) :: e :: l
    else if k = e.1 then (k, x) :: l
    else e :: insert k x l

def remove (k : K) (l : List (K × α)) : List (K × α) := l.filter fun e => e.1 ≠ k

/-- The entries with a key strictly above `k`. -/
def above (k : K) (l : List (K × α)) : List (K × α) := l.filter fun e => k < e.1

theorem above_append {k : K} {l₁ l₂ : List (K × α)}
    (h₁ : ∀ e ∈ l₁, e.1 ≤ k) (h₂ : ∀ e ∈ l₂, k < e.1) : above k (l₁ ++ l₂) = l₂ := by
  have hl : l₁.filter (fun e => k < e.1) = [] := by
    rw [List.filter_eq_nil_iff]
    intro e he
    simpa using h₁ e he
  have hr : l₂.filter (fun e => k < e.1) = l₂ := by
    rw [List.filter_eq_self]
    intro e he
    simpa using h₂ e he
  rw [above, List.filter_append, hl, hr, List.nil_append]

theorem remove_append {k : K} {x : α} {l₁ l₂ : List (K × α)}
    (h₁ : ∀ e ∈ l₁, e.1 < k) (h₂ : ∀ e ∈ l₂, k < e.1) :
    remove k (l₁ ++ (k, x) :: l₂) = l₁ ++ l₂ := by
  have hl : l₁.filter (fun e => e.1 ≠ k) = l₁ := by
    rw [List.filter_eq_self]
    intro e he
    simpa using (h₁ e he).ne
  have hr : l₂.filter (fun e => e.1 ≠ k) = l₂ := by
    rw [List.filter_eq_self]
    intro e he
    simpa using (h₂ e he).ne'
  rw [remove, List.filter_append, List.filter_cons, hl, hr]
  simp

theorem insert_append {k : K} {x : α} {l₁ l₂ : List (K × α)}
    (h₁ : ∀ e ∈ l₁, e.1 < k) (h₂ : ∀ e ∈ l₂, k < e.1) :
    insert k x (l₁ ++ l₂) = l₁ ++ (k, x) :: l₂ := by
  induction l₁ with
  | nil =>
    cases l₂ with
    | nil => rfl
    | cons e l => simp only [List.nil_append, insert, if_pos (h₂ e List.mem_cons_self)]
  | cons e l ih =>
    have he := h₁ e List.mem_cons_self
    simp only [List.cons_append, insert, if_neg (not_lt.mpr he.le), if_neg he.ne',
      ih fun a ha => h₁ a (List.mem_cons_of_mem _ ha)]

theorem Sorted.split (k : K) {l : List (K × α)} (h : Sorted l) :
    ∃ l₁ l₂, l = l₁ ++ l₂ ∧ (∀ e ∈ l₁, e.1 ≤ k) ∧ ∀ e ∈ l₂, k < e.1 := by
  induction l with
  | nil => exact ⟨[], [], rfl, by simp, by simp⟩
  | cons e l ih =>
    rw [Sorted, List.pairwise_cons] at h
    rcases le_or_gt e.1 k with hk | hk
    · obtain ⟨l₁, l₂, rfl, h₁, h₂⟩ := ih h.2
      exact ⟨e :: l₁, l₂, rfl, List.forall_mem_cons.mpr ⟨hk, h₁⟩, h₂⟩
    · refine ⟨[], e :: l, rfl, by simp, ?_⟩
      exact List.forall_mem_cons.mpr ⟨hk, fun a ha => hk.trans (h.1 a ha)⟩

theorem Sorted.eq_of_mem_iff {l₁ l₂ : List (K × α)} (h₁ : Sorted l₁) (h₂ : Sorted l₂)
    (h : ∀ e, e ∈ l₁ ↔ e ∈ l₂) : l₁ = l₂ := by
  have hn₁ : l₁.Nodup := h₁.imp fun hab he => hab.ne (congrArg Prod.fst he)
  have hn₂ : l₂.Nodup := h₂.imp fun hab he => hab.ne (congrArg Prod.fst he)
  refine ((List.perm_ext_iff_of_nodup hn₁ hn₂).mpr h).eq_of_pairwise ?_ h₁ h₂
  exact fun a b _ _ hab hba => absurd hab hba.asymm

end AtomicSim.OrderedMap
