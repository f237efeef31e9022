import Mathlib.Data.List.Induction
import Mathlib.Data.List.Sort

namespace AtomicSim

namespace Reorder

-- Actions are partial functions on a state, each with an output. An order in which actions
-- that conflict keep their places has the outputs and the final state of the sorted order.

section Replays

variable {ι β σ : Type*} {act : ι → σ → Option (β × σ)} {value : ι → Option β} {s s' s'' : σ}
variable {i j : ι} {l l' : List ι}

/-- Executing the actions of `l` in turn takes `s` to `s'`, and each has its expected output. -/
inductive Replays (act : ι → σ → Option (β × σ)) (value : ι → Option β) :
    σ → List ι → σ → Prop
  | nil (s : σ) : Replays act value s [] s
  | cons {s s' s'' : σ} {i : ι} {l : List ι} {v : β} : act i s = some (v, s') →
      value i = some v → Replays act value s' l s'' → Replays act value s (i :: l) s''

theorem replays_nil : Replays act value s [] s' ↔ s = s' := by
  constructor
  · rintro ⟨⟩
    rfl
  · rintro rfl
    exact .nil s

theorem replays_cons : Replays act value s (i :: l) s'' ↔
    ∃ v s', act i s = some (v, s') ∧ value i = some v ∧ Replays act value s' l s'' := by
  constructor
  · intro h
    cases h with
    | cons ha hv h => exact ⟨_, _, ha, hv, h⟩
  · rintro ⟨v, s', ha, hv, h⟩
    exact .cons ha hv h

theorem replays_append : Replays act value s (l ++ l') s'' ↔
    ∃ s', Replays act value s l s' ∧ Replays act value s' l' s'' := by
  induction l generalizing s with
  | nil => simp [replays_nil]
  | cons i l ih =>
    simp only [List.cons_append, replays_cons, ih]
    constructor
    · rintro ⟨v, s₁, ha, hv, s', h, h'⟩
      exact ⟨s', ⟨v, s₁, ha, hv, h⟩, h'⟩
    · rintro ⟨s', ⟨v, s₁, ha, hv, h⟩, h'⟩
      exact ⟨v, s₁, ha, hv, s', h, h'⟩

theorem replays_congr {act' : ι → σ → Option (β × σ)} {value' : ι → Option β}
    (h : ∀ i ∈ l, act i = act' i ∧ value i = value' i) :
    Replays act value s l s' ↔ Replays act' value' s l s' := by
  induction l generalizing s with
  | nil => rw [replays_nil, replays_nil]
  | cons i l ih =>
    obtain ⟨⟨ha, hv⟩, hl⟩ := List.forall_mem_cons.mp h
    simp only [replays_cons, ha, hv, ih hl]

theorem Replays.unique (h : Replays act value s l s') (h' : Replays act value s l s'') :
    s' = s'' := by
  induction h with
  | nil => exact replays_nil.mp h'
  | cons ha _ _ ih =>
    obtain ⟨w, t, ha', _, h'⟩ := replays_cons.mp h'
    cases ha.symm.trans ha'
    exact ih h'

/-- Two actions give the same in either order. -/
def Commutes (act : ι → σ → Option (β × σ)) (i j : ι) : Prop :=
  ∀ s v w s', (∃ s₁, act i s = some (v, s₁) ∧ act j s₁ = some (w, s')) ↔
    ∃ s₁, act j s = some (w, s₁) ∧ act i s₁ = some (v, s')

theorem Commutes.replays (h : Commutes act i j) :
    Replays act value s (i :: j :: l) s' ↔ Replays act value s (j :: i :: l) s' := by
  simp only [replays_cons]
  constructor
  · rintro ⟨v, s₁, hi, hv, w, s₂, hj, hw, hl⟩
    obtain ⟨s₃, hj', hi'⟩ := (h s v w s₂).mp ⟨s₁, hi, hj⟩
    exact ⟨w, s₃, hj', hw, v, s₂, hi', hv, hl⟩
  · rintro ⟨w, s₁, hj, hw, v, s₂, hi, hv, hl⟩
    obtain ⟨s₃, hi', hj'⟩ := (h s v w s₂).mpr ⟨s₁, hj, hi⟩
    exact ⟨v, s₃, hi', hv, w, s₂, hj', hw, hl⟩

theorem Commutes.symm (h : Commutes act i j) : Commutes act j i :=
  fun s v w s' => (h s w v s').symm

theorem commutes_of_const {f : Option β} (h : ∀ s, act i s = f.map fun v => (v, s)) :
    Commutes act i j := by
  have hact : ∀ {s v s'}, act i s = some (v, s') ↔ f = some v ∧ s = s' := by
    intro s v s'
    rw [h]
    cases f <;> simp
  intro s v w s'
  simp only [hact]
  constructor
  · rintro ⟨s₁, ⟨hf, rfl⟩, hj⟩
    exact ⟨s', hj, hf, rfl⟩
  · rintro ⟨s₁, hj, hf, rfl⟩
    exact ⟨s, ⟨hf, rfl⟩, hj⟩

theorem commutes_of_read (hi : ∀ s v s', act i s = some (v, s') → s' = s)
    (hj : ∀ s v s', act j s = some (v, s') → s' = s) : Commutes act i j := by
  intro s v w s'
  constructor
  · rintro ⟨s₁, h₁, h₂⟩
    obtain rfl := hi _ _ _ h₁
    obtain rfl := hj _ _ _ h₂
    exact ⟨s', h₂, h₁⟩
  · rintro ⟨s₁, h₁, h₂⟩
    obtain rfl := hj _ _ _ h₁
    obtain rfl := hi _ _ _ h₂
    exact ⟨s', h₂, h₁⟩

theorem replays_middle (h : ∀ j ∈ l, Commutes act j i) :
    Replays act value s (l ++ i :: l') s' ↔ Replays act value s (i :: (l ++ l')) s' := by
  induction l generalizing s with
  | nil => rfl
  | cons j l ih =>
    obtain ⟨hj, hl⟩ := List.forall_mem_cons.mp h
    rw [List.cons_append, List.cons_append, ← hj.replays, replays_cons, replays_cons]
    simp only [ih hl]

/-- An order of the actions that swaps only pairs that commute. The keys place the actions in
the new order. -/
theorem replays_perm_key {κ : Type*} [Preorder κ] {key : ι → κ} (hp : l.Perm l')
    (hl' : l'.Pairwise fun i j => key i < key j)
    (h : l.Pairwise fun i j => key j < key i → Commutes act i j) :
    Replays act value s l' s' ↔ Replays act value s l s' := by
  induction l' generalizing l s with
  | nil => rw [hp.eq_nil]
  | cons i l' ih =>
    obtain ⟨hi, hl'⟩ := List.pairwise_cons.mp hl'
    obtain ⟨l₁, l₂, rfl⟩ := List.append_of_mem (hp.mem_iff.mpr List.mem_cons_self)
    have hp' : (l₁ ++ l₂).Perm l' := (List.perm_middle.symm.trans hp).cons_inv
    obtain ⟨hl₁, hl₂, hd⟩ := List.pairwise_append.mp h
    -- what stood before `i` comes after it now
    have hfirst : ∀ j ∈ l₁, Commutes act j i := fun j hj =>
      hd j hj i List.mem_cons_self (hi j (hp'.mem_iff.mp (List.mem_append_left _ hj)))
    have hrest : (l₁ ++ l₂).Pairwise fun i j => key j < key i → Commutes act i j :=
      List.pairwise_append.mpr ⟨hl₁, (List.pairwise_cons.mp hl₂).2,
        fun j hj k hk => hd j hj k (List.mem_cons_of_mem _ hk)⟩
    rw [replays_middle hfirst, replays_cons, replays_cons]
    simp only [ih hp' hl' hrest]

/-- A sorted order replays, and so do the actions of `l`. If completing `l ++ [i]` to the whole
order swaps only actions that commute, then `i` finds its expected output after `l`. -/
theorem value_of_replays {κ : Type*} [Preorder κ] {key : ι → κ} {order : List ι} {v : β}
    (horder : order.Pairwise fun i j => key i < key j) (hrep : Replays act value s order s')
    (hn : (l ++ [i]).Nodup) (hsub : ∀ j ∈ l ++ [i], j ∈ order)
    (hin : (l ++ [i]).Pairwise fun i j => key j < key i → Commutes act i j)
    (hout : ∀ j ∈ l ++ [i], ∀ k ∈ order, k ∉ l ++ [i] → key k < key j → Commutes act j k)
    (hl : Replays act value s l s'') {s₁ : σ} (hi : act i s'' = some (v, s₁)) :
    value i = some v := by
  classical
  have hnodup : order.Nodup :=
    List.nodup_iff_pairwise_ne.mpr (horder.imp fun h => ne_of_apply_ne key h.ne)
  let rest := order.filter fun j => j ∉ l ++ [i]
  have hrest : ∀ {j}, j ∈ rest ↔ j ∈ order ∧ j ∉ l ++ [i] := by
    intro j
    rw [List.mem_filter, decide_eq_true_eq]
  have hperm : (l ++ [i] ++ rest).Perm order := by
    refine (List.perm_ext_iff_of_nodup (List.nodup_append.mpr ⟨hn, hnodup.filter _, ?_⟩)
      hnodup).mpr fun j => ?_
    · exact fun j hj k hk hjk => (hrest.mp hk).2 (hjk ▸ hj)
    · rw [List.mem_append, hrest]
      exact ⟨fun h => h.elim (hsub j) And.left, fun h => (Classical.em _).imp_right fun hj => ⟨h, hj⟩⟩
  have hpair : (l ++ [i] ++ rest).Pairwise fun i j => key j < key i → Commutes act i j := by
    refine List.pairwise_append.mpr ⟨hin, ?_, fun j hj k hk => ?_⟩
    · exact (horder.filter _).imp fun hij hji => absurd hij (lt_asymm hji)
    · exact hout j hj k (hrest.mp hk).1 (hrest.mp hk).2
  have hall := (replays_perm_key hperm horder hpair).mp hrep
  rw [List.append_assoc, replays_append] at hall
  obtain ⟨s₂, hl', hall⟩ := hall
  cases hl.unique hl'
  obtain ⟨w, s₃, hw, hwi, -⟩ := replays_cons.mp hall
  cases Option.some.inj (hi.symm.trans hw)
  exact hwi

variable [LinearOrder ι]

theorem replays_orderedInsert (h : ∀ j ∈ l, j < i → Commutes act i j) :
    Replays act value s (l.orderedInsert (· ≤ ·) i) s' ↔ Replays act value s (i :: l) s' := by
  induction l generalizing s with
  | nil => rfl
  | cons j l ih =>
    rw [List.orderedInsert_cons]
    split_ifs with hij
    · rfl
    · have hj : Commutes act i j := h j List.mem_cons_self (not_le.mp hij)
      have hl : ∀ k ∈ l, k < i → Commutes act i k := fun k hk => h k (List.mem_cons_of_mem _ hk)
      rw [hj.replays, replays_cons, replays_cons]
      simp only [ih hl]

theorem replays_insertionSort (h : l.Pairwise fun i j => j < i → Commutes act i j) :
    Replays act value s (l.insertionSort (· ≤ ·)) s' ↔ Replays act value s l s' := by
  induction l generalizing s with
  | nil => rfl
  | cons i l ih =>
    obtain ⟨hi, hl⟩ := List.pairwise_cons.mp h
    have hi' : ∀ j ∈ l.insertionSort (· ≤ ·), j < i → Commutes act i j :=
      fun j hj => hi j ((List.mem_insertionSort _).mp hj)
    rw [List.insertionSort_cons, replays_orderedInsert hi', replays_cons, replays_cons]
    simp only [ih hl]

theorem replays_perm (hp : l.Perm l') (hl' : l'.Pairwise (· ≤ ·))
    (h : l.Pairwise fun i j => j < i → Commutes act i j) :
    Replays act value s l' s' ↔ Replays act value s l s' := by
  have hsort : l.insertionSort (· ≤ ·) = l' :=
    ((List.perm_insertionSort _ l).trans hp).eq_of_pairwise'
      (List.pairwise_insertionSort _ l) hl'
  rw [← hsort]
  exact replays_insertionSort h

end Replays

section InPlace

variable {ι : Type*} [LinearOrder ι] {R : ι → ι → Prop} {l : List ι} {i : ι}

/-- Every `i` in `l` comes after the smaller ones it conflicts with. -/
def InPlace (R : ι → ι → Prop) (l : List ι) : Prop :=
  ∀ l₁ i l₂, l = l₁ ++ i :: l₂ → ∀ j < i, R j i → j ∈ l₁

theorem append_singleton_eq {α : Type*} {l l₁ l₂ : List α} {a b : α}
    (h : l ++ [a] = l₁ ++ b :: l₂) :
    (∃ l₃, l = l₁ ++ b :: l₃) ∨ (l = l₁ ∧ a = b) := by
  rcases List.eq_nil_or_concat l₂ with rfl | ⟨l₃, x, rfl⟩
  · obtain ⟨rfl, hab⟩ := List.append_inj' h rfl
    exact .inr ⟨rfl, List.singleton_inj.mp hab⟩
  · rw [List.concat_eq_append, ← List.cons_append, ← List.append_assoc] at h
    exact .inl ⟨l₃, (List.append_inj' h rfl).1⟩

theorem inPlace_nil : InPlace R [] := by
  intro l₁ i l₂ h
  simp at h

theorem InPlace.append_singleton (h : InPlace R l) (hi : ∀ j < i, R j i → j ∈ l) :
    InPlace R (l ++ [i]) := by
  intro l₁ k l₂ hl
  rcases append_singleton_eq hl with ⟨l₃, rfl⟩ | ⟨rfl, rfl⟩
  · exact h l₁ k l₃ rfl
  · exact hi

theorem InPlace.of_append {l' : List ι} (h : InPlace R (l ++ l')) : InPlace R l := by
  rintro l₁ i l₂ rfl
  exact h l₁ i (l₂ ++ l') (by simp)

theorem InPlace.not_conflict (h : InPlace R l) {j : ι} (hi : i ∈ l) (hj : j ∉ l) (hlt : j < i) :
    ¬ R j i := by
  intro hR
  obtain ⟨l₁, l₂, rfl⟩ := List.append_of_mem hi
  exact hj (List.mem_append_left _ (h l₁ i l₂ rfl j hlt hR))

theorem InPlace.pairwise (h : InPlace R l) (hn : l.Nodup) :
    l.Pairwise fun i j => j < i → ¬ R j i := by
  induction l using List.reverseRecOn with
  | nil => exact .nil
  | append_singleton l j ih =>
    obtain ⟨hl, -, hd⟩ := List.nodup_append.mp hn
    refine List.pairwise_append.mpr ⟨ih h.of_append hl, List.pairwise_singleton _ _, ?_⟩
    intro i hi k hk
    exact h.of_append.not_conflict hi fun hk' => hd k hk' k hk rfl

/-- Followed by the rest in sorted order, a list in place has only pairs out of order that
do not conflict. -/
theorem InPlace.pairwise_append (h : InPlace R l) {l' : List ι} (hl' : l'.Pairwise (· < ·))
    (hn : (l ++ l').Nodup) : (l ++ l').Pairwise fun i j => j < i → ¬ R j i := by
  obtain ⟨hl, -, hd⟩ := List.nodup_append.mp hn
  refine List.pairwise_append.mpr ⟨h.pairwise hl, ?_, ?_⟩
  · exact hl'.imp fun hij hji => absurd hij hji.asymm
  · intro i hi j hj
    exact h.not_conflict hi fun hj' => hd j hj' j hj rfl

end InPlace

section Downward

variable {ι : Type*} {R : ι → ι → Prop} {l : List ι} {i j : ι}

/-- Whatever must precede an action of `l` comes before it in `l`. -/
def Downward (R : ι → ι → Prop) (l : List ι) : Prop :=
  ∀ l₁ i l₂, l = l₁ ++ i :: l₂ → ∀ j, R j i → j ∈ l₁

theorem downward_nil : Downward R [] := fun l₁ i l₂ h => by simp at h

theorem Downward.append_singleton (h : Downward R l) (hi : ∀ j, R j i → j ∈ l) :
    Downward R (l ++ [i]) := by
  intro l₁ k l₂ hl
  rcases append_singleton_eq hl with ⟨l₃, rfl⟩ | ⟨rfl, rfl⟩
  · exact h l₁ k l₃ rfl
  · exact hi

theorem Downward.mem (h : Downward R l) (hi : i ∈ l) (hR : R j i) : j ∈ l := by
  obtain ⟨l₁, l₂, rfl⟩ := List.append_of_mem hi
  exact List.mem_append_left _ (h l₁ i l₂ rfl j hR)

theorem Downward.pairwise (h : Downward R l) (hn : l.Nodup) :
    l.Pairwise fun i j => ¬ R j i := by
  refine List.pairwise_iff_getElem.mpr fun m n hm hn' hmn hR => ?_
  have hsplit : l = l.take m ++ l[m] :: l.drop (m + 1) := by
    rw [List.getElem_cons_drop, List.take_append_drop]
  obtain ⟨k, hk, heq⟩ := List.mem_take_iff_getElem.mp (h _ _ _ hsplit _ hR)
  have hkn := hn.getElem_inj_iff.mp heq
  omega

end Downward

end Reorder
end AtomicSim
