import Mathlib.Data.List.Forall2
import Mathlib.Data.List.Basic
import Mathlib.Data.Option.Basic

namespace AtomicSim

section MapM

variable {α β γ : Type*}

theorem mapM_eq_some_iff_forall₂ {f : α → Option β} {l : List α} {r : List β} :
    l.mapM f = some r ↔ List.Forall₂ (fun a b => f a = some b) l r := by
  induction l generalizing r with
  | nil => cases r <;> simp
  | cons a l ih =>
    rw [List.mapM_cons, List.forall₂_cons_left_iff]
    simp only [Option.bind_eq_bind, Option.bind_eq_some_iff, Option.pure_def, Option.some.injEq, ih]
    grind

theorem mapM_eq_some_iff {f : α → Option β} {l : List α} {r : List β} :
    l.mapM f = some r ↔ l.map f = r.map some := by
  rw [mapM_eq_some_iff_forall₂, ← List.forall₂_eq_eq_eq, List.forall₂_map_left_iff,
    List.forall₂_map_right_iff]

theorem mapM_congr {f g : α → Option β} {l : List α} (h : ∀ a ∈ l, f a = g a) :
    l.mapM f = l.mapM g := by
  refine Option.ext fun r => ?_
  rw [mapM_eq_some_iff, mapM_eq_some_iff, List.map_congr_left h]

theorem mapM_eq_none_iff {f : α → Option β} {l : List α} :
    l.mapM f = none ↔ ∃ a ∈ l, f a = none := by
  induction l with
  | nil => simp
  | cons a l ih =>
    rw [List.mapM_cons]
    cases hf : f a with
    | none => simp [hf]
    | some b => cases hl : l.mapM f <;> simp_all

theorem isSome_mapM (f : α → Option β) (l : List α) :
    (l.mapM f).isSome ↔ ∀ a ∈ l, (f a).isSome := by
  rw [Option.isSome_iff_ne_none, ne_eq, mapM_eq_none_iff]
  push Not
  simp only [Option.isSome_iff_ne_none, ne_eq]

theorem mapM_singleton {f : α → Option β} {a : α} {l : List β}
    (h : [a].mapM f = some l) : ∃ x, f a = some x ∧ l = [x] := by
  rw [mapM_eq_some_iff] at h
  rcases l with _ | ⟨x, _ | ⟨y, l⟩⟩ <;> simp at h
  exact ⟨x, h, rfl⟩

theorem mapM_pair {f : α → Option β} {a b : α} {l : List β}
    (h : [a, b].mapM f = some l) : ∃ x y, f a = some x ∧ f b = some y ∧ l = [x, y] := by
  rw [mapM_eq_some_iff] at h
  rcases l with _ | ⟨x, _ | ⟨y, _ | ⟨z, l⟩⟩⟩ <;> simp at h
  exact ⟨x, y, h.1, h.2, rfl⟩

theorem mapM_triple {f : α → Option β} {a b c : α} {l : List β}
    (h : [a, b, c].mapM f = some l) :
    ∃ x y z, f a = some x ∧ f b = some y ∧ f c = some z ∧ l = [x, y, z] := by
  rw [mapM_eq_some_iff] at h
  rcases l with _ | ⟨x, _ | ⟨y, _ | ⟨z, _ | ⟨u, l⟩⟩⟩⟩ <;> simp at h
  exact ⟨x, y, z, h.1, h.2.1, h.2.2, rfl⟩

end MapM

section Lift

variable {σ α β γ : Type}

@[simp] theorem liftM_some (a : α) : (liftM (some a) : StateT σ Option α) = pure a :=
  liftM_pure a

theorem liftM_option_bind (o : Option α) (f : α → Option β) :
    (liftM (o.bind f) : StateT σ Option β) = (do
      let a ← o
      f a) :=
  liftM_bind o f

theorem failure_bind (f : α → StateT σ Option β) : (failure >>= f) = failure := rfl

theorem bind_failure (m : StateT σ Option α) :
    (m >>= fun _ => failure) = (failure : StateT σ Option β) := by
  funext s
  show (m s).bind (fun _ => none) = none
  rw [Option.bind_fun_none]

theorem mapM_eq_of_forall₂ {m : Type → Type} [Monad m] [LawfulMonad m] {g : α → m γ}
    {g' : β → m γ} {l : List α} {l' : List β} (h : List.Forall₂ (fun a b => g a = g' b) l l') :
    l.mapM g = l'.mapM g' := by
  induction h with
  | nil => rfl
  | cons hab hrest ih => rw [List.mapM_cons, List.mapM_cons, hab, ih]

theorem mapM_failure {f : α → Option β} {g : α → StateT σ Option γ} {l : List α}
    (h : ∀ a ∈ l, f a = none → g a = failure) (hl : l.mapM f = none) : l.mapM g = failure := by
  induction l with
  | nil => cases hl
  | cons a l ih =>
    rw [List.mapM_cons]
    cases ha : f a with
    | none => rw [h a List.mem_cons_self ha, failure_bind]
    | some b =>
      have hrest : l.mapM f = none := by
        rw [List.mapM_cons, ha] at hl
        cases hbs : l.mapM f with
        | none => rfl
        | some bs => simp [hbs] at hl
      rw [ih (fun a ha => h a (List.mem_cons_of_mem _ ha)) hrest]
      exact bind_failure (g a)

end Lift

section Related

variable {α α' β β' : Type*} {P : α → α' → Prop} {R : β → β' → Prop}

theorem exists_of_forall₂ {l : List β} {l' : List β'} (h : List.Forall₂ R l l') {b : β}
    (hb : b ∈ l) : ∃ b' ∈ l', R b b' := by
  obtain ⟨i, hi, rfl⟩ := List.mem_iff_getElem.mp hb
  have hi' : i < l'.length := h.length_eq ▸ hi
  exact ⟨l'[i], List.getElem_mem hi', h.get hi hi'⟩

theorem forall_mem_iff_of_forall₂ {p : β → Prop} {q : β' → Prop} {l : List β} {l' : List β'}
    (h : List.Forall₂ (fun b b' => q b' ↔ p b) l l') : (∀ b' ∈ l', q b') ↔ ∀ b ∈ l, p b := by
  induction h with
  | nil => simp
  | cons hb hrest ih => rw [List.forall_mem_cons, List.forall_mem_cons, hb, ih]

theorem forall₂_zip {as : List α} {as' : List α'} {bs : List β} {bs' : List β'}
    (h : List.Forall₂ P as as') (h' : List.Forall₂ R bs bs') :
    List.Forall₂ (fun e e' => P e.1 e'.1 ∧ R e.2 e'.2) (as.zip bs) (as'.zip bs') := by
  induction h generalizing bs bs' with
  | nil => exact .nil
  | cons ha hrest ih =>
    cases h' with
    | nil => exact .nil
    | cons hb hrest' => exact .cons ⟨ha, hb⟩ (ih hrest')

theorem rel_mono {R' : β → β' → Prop} {o : Option β} {o' : Option β'} (hr : Option.Rel R o o')
    (h : ∀ b b', R b b' → R' b b') : Option.Rel R' o o' := by
  cases hr with
  | none => exact .none
  | some hb => exact .some (h _ _ hb)

theorem rel_getD {o : Option β} {o' : Option β'} {b : β} {b' : β'} (hr : Option.Rel R o o')
    (h : R b b') : R (o.getD b) (o'.getD b') := by
  cases hr with
  | none => exact h
  | some hb => exact hb

theorem rel_getElem? {l : List β} {l' : List β'} (h : List.Forall₂ R l l') (i : ℕ) :
    Option.Rel R l[i]? l'[i]? := by
  induction h generalizing i with
  | nil => exact .none
  | cons hb hrest ih =>
    cases i with
    | zero => exact .some hb
    | succ i => exact ih i

variable [BEq α] [LawfulBEq α] [BEq α'] [LawfulBEq α']

theorem lookup_mem {l : List (α × β)} {a : α} {b : β} (h : l.lookup a = some b) : (a, b) ∈ l := by
  obtain ⟨l₁, l₂, rfl, -⟩ := List.lookup_eq_some_iff.mp h
  exact List.mem_append_right _ List.mem_cons_self

theorem lookup_isSome {l : List (α × β)} {e : α × β} (h : e ∈ l) : (l.lookup e.1).isSome := by
  rw [Option.isSome_iff_ne_none]
  intro hnone
  exact absurd rfl (bne_iff_ne.mp (List.lookup_eq_none_iff.mp hnone e h))

theorem rel_lookup {l : List (α × β)} {l' : List (α' × β')} {a : α} {a' : α'}
    (h : List.Forall₂ (fun e e' => P e.1 e'.1 ∧ R e.2 e'.2) l l'.reverse)
    (hkey : ∀ k k', P k k' → (k = a ↔ k' = a'))
    (hsame : ∀ e ∈ l, ∀ e' ∈ l, e.1 = e'.1 → e.2 = e'.2) :
    Option.Rel (fun b' b => R b b') (l'.lookup a') (l.lookup a) := by
  cases hl' : l'.lookup a' with
  | none =>
    cases hl : l.lookup a with
    | none => exact .none
    | some b =>
      exfalso
      obtain ⟨e', he', hk, -⟩ := exists_of_forall₂ h (lookup_mem hl)
      have hsome := lookup_isSome (List.mem_reverse.mp he')
      rw [(hkey _ _ hk).mp rfl, hl'] at hsome
      cases hsome
  | some b' =>
    obtain ⟨e, he, hk, hr⟩ := exists_of_forall₂ h.flip (List.mem_reverse.mpr (lookup_mem hl'))
    have hea : e.1 = a := (hkey _ _ hk).mpr rfl
    cases hl : l.lookup a with
    | none =>
      have hsome := lookup_isSome he
      rw [hea, hl] at hsome
      cases hsome
    | some b =>
      have hb : e.2 = b := hsame e he (a, b) (lookup_mem hl) hea
      exact .some (hb ▸ hr)

end Related

end AtomicSim
