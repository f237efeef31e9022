import AtomicSim.Lib.Reorder
import Mathlib.Data.Finset.Lattice.Fold
import Mathlib.Data.Prod.Lex
import Mathlib.Logic.Function.Basic
import Mathlib.Order.Lattice.Nat

namespace AtomicSim

namespace Interleave

open Reorder (Commutes Replays)

section Places

variable {ι : Type*} {l : List ι}

theorem exists_key (hn : l.Nodup) : ∃ key : ι → ℕ, l.Pairwise fun x y => key x < key y := by
  classical
  refine ⟨fun x => l.idxOf x, List.pairwise_iff_getElem.mpr fun i j hi hj hij => ?_⟩
  beta_reduce
  rwa [hn.idxOf_getElem i hi, hn.idxOf_getElem j hj]

theorem eq_or_of_pairwise {P : ι → ι → Prop} (h : l.Pairwise P) {x y : ι} (hx : x ∈ l)
    (hy : y ∈ l) : x = y ∨ P x y ∨ P y x := by
  by_cases hxy : x = y
  · exact .inl hxy
  · have hsymm : l.Pairwise fun x y => P x y ∨ P y x := h.imp Or.inl
    have : Std.Symm fun x y => P x y ∨ P y x := ⟨fun _ _ => Or.symm⟩
    exact .inr (hsymm.forall hx hy hxy)

end Places

section Frontier

variable {τ : Type*} {G : τ × ℕ → Prop} [DecidablePred G] {key : τ × ℕ → ℕ} {t : τ} {i j : ℕ}

/-- The last of the marked operations of its thread up to `x`, by its place in the order. -/
def frontier {τ : Type*} (G : τ × ℕ → Prop) [DecidablePred G] (key : τ × ℕ → ℕ) (x : τ × ℕ) : ℕ :=
  (Finset.range (x.2 + 1)).sup fun j => if G (x.1, j) then key (x.1, j) + 1 else 0

theorem frontier_mono (hij : i ≤ j) : frontier G key (t, i) ≤ frontier G key (t, j) :=
  Finset.sup_mono (Finset.range_subset_range.mpr (Nat.succ_le_succ hij))

theorem frontier_of_marked (hi : G (t, i)) (hkey : ∀ j < i, G (t, j) → key (t, j) < key (t, i)) :
    frontier G key (t, i) = key (t, i) + 1 := by
  refine le_antisymm (Finset.sup_le fun j hj => ?_) ?_
  · split_ifs with hG
    · rcases (Nat.lt_succ_iff.mp (Finset.mem_range.mp hj)).eq_or_lt with rfl | hlt
      · exact le_rfl
      · exact Nat.succ_le_succ (hkey j hlt hG).le
    · exact Nat.zero_le _
  · have hle := Finset.le_sup (f := fun j => if G (t, j) then key (t, j) + 1 else 0)
      (Finset.mem_range.mpr (Nat.lt_succ_self i))
    rwa [if_pos hi] at hle

/-- An operation runs right after the last marked one before it in its thread. -/
def place (rank : τ → ℕ) (G : τ × ℕ → Prop) [DecidablePred G] (key : τ × ℕ → ℕ) (x : τ × ℕ) :
    ℕ ×ₗ ℕ ×ₗ ℕ :=
  toLex (frontier G key x, toLex (rank x.1, x.2))

variable {rank : τ → ℕ} {x y : τ × ℕ}

theorem place_lt : place rank G key x < place rank G key y ↔
    frontier G key x < frontier G key y ∨ frontier G key x = frontier G key y ∧
      (rank x.1 < rank y.1 ∨ rank x.1 = rank y.1 ∧ x.2 < y.2) := by
  rw [place, place, Prod.Lex.toLex_lt_toLex, Prod.Lex.toLex_lt_toLex]

theorem place_injective (hrank : rank.Injective) : (place rank G key).Injective := by
  intro x y h
  have h' : (rank x.1, x.2) = (rank y.1, y.2) := congrArg (fun p => ofLex (ofLex p).2) h
  exact Prod.ext (hrank (Prod.mk.inj h').1) (Prod.mk.inj h').2

theorem lt_of_place_lt (hxy : x.1 = y.1) (h : place rank G key x < place rank G key y) :
    x.2 < y.2 := by
  obtain ⟨t, i⟩ := x
  obtain ⟨u, j⟩ := y
  obtain rfl : t = u := hxy
  by_contra hle
  have hmono : frontier G key (t, j) ≤ frontier G key (t, i) := frontier_mono (Nat.not_lt.mp hle)
  rcases place_lt.mp h with hlt | ⟨-, hlt | hlt⟩
  · exact absurd hmono (Nat.not_le.mpr hlt)
  · exact lt_irrefl _ hlt
  · exact hle hlt.2

variable (G key) in
theorem exists_sorted (hrank : rank.Injective) {l : List (τ × ℕ)} (hn : l.Nodup) :
    ∃ l' : List (τ × ℕ), l.Perm l' ∧
      l'.Pairwise fun x y => place rank G key x < place rank G key y := by
  have : IsTrans (τ × ℕ) fun x y => place rank G key x ≤ place rank G key y :=
    ⟨fun _ _ _ => le_trans⟩
  have : Std.Total fun x y : τ × ℕ => place rank G key x ≤ place rank G key y :=
    ⟨fun _ _ => le_total _ _⟩
  have hperm := List.perm_insertionSort (fun x y => place rank G key x ≤ place rank G key y) l
  refine ⟨_, hperm.symm, ((List.pairwise_insertionSort _ l).and (hperm.nodup_iff.mpr hn)).imp ?_⟩
  rintro x y ⟨hle, hne⟩
  exact lt_of_le_of_ne hle fun h => hne (place_injective hrank h)

end Frontier

-- Each thread has a list of operations on a shared state. A schedule says which thread runs
-- its next operation, and an operation sees the outputs of those before it in its thread.

variable {τ α β σ : Type*} [DecidableEq τ]

/-- The outputs that each thread has found so far, and the shared state. -/
structure State (τ β σ : Type*) where
  values : τ → List β
  shared : σ

def State.push (s : State τ β σ) (t : τ) (r : β × σ) : State τ β σ :=
  ⟨Function.update s.values t (s.values t ++ [r.1]), r.2⟩

/-- Thread `t` runs its next operation. -/
def step (call : τ → List β → α → σ → Option (β × σ)) (code : τ → List α) (s : State τ β σ)
    (t : τ) : Option (State τ β σ) :=
  (code t)[(s.values t).length]?.bind fun a => (call t (s.values t) a s.shared).map (s.push t)

def run (call : τ → List β → α → σ → Option (β × σ)) (code : τ → List α) (s : State τ β σ)
    (schedule : List τ) : Option (State τ β σ) :=
  schedule.foldlM (step call code) s

theorem run_map {γ : Type*} (call : τ → List β → α → σ → Option (β × σ)) (f : γ → α)
    (code : τ → List γ) (s : State τ β σ) (schedule : List τ) :
    run call (fun t => (code t).map f) s schedule =
      run (fun t values a => call t values (f a)) code s schedule := by
  have hstep : step call (fun t => (code t).map f) =
      step (fun t values a => call t values (f a)) code := by
    funext s t
    rw [step, step, List.getElem?_map, Option.bind_map]
    rfl
  rw [run, run, hstep]

/-- The states are a part of larger ones, and the operations leave the rest of these alone. -/
theorem run_embed {ρ : Type*} {call : τ → List β → α → σ → Option (β × σ)}
    {call' : τ → List β → α → ρ → Option (β × ρ)} {f : σ → ρ}
    (h : ∀ t values a s, call' t values a (f s) =
      (call t values a s).map fun r => (r.1, f r.2))
    {code : τ → List α} {s s' : State τ β σ} {schedule : List τ}
    (hrun : run call code s schedule = some s') :
    run call' code ⟨s.values, f s.shared⟩ schedule = some ⟨s'.values, f s'.shared⟩ := by
  induction schedule generalizing s with
  | nil =>
    cases hrun
    rfl
  | cons t ts ih =>
    rw [run, List.foldlM_cons] at hrun ⊢
    obtain ⟨s₁, hstep, hrun⟩ := Option.bind_eq_some_iff.mp hrun
    obtain ⟨a, ha, hcall⟩ := Option.bind_eq_some_iff.mp hstep
    obtain ⟨e, he, rfl⟩ := Option.map_eq_some_iff.mp hcall
    refine Option.bind_eq_some_iff.mpr ⟨_, ?_, ih hrun⟩
    refine Option.bind_eq_some_iff.mpr ⟨a, ha, ?_⟩
    rw [h, he]
    rfl

/-- The operations that a schedule runs, when thread `t` has come to its `n t`-th one. -/
def positions : (τ → ℕ) → List τ → List (τ × ℕ)
  | _, [] => []
  | n, t :: ts => (t, n t) :: positions (Function.update n t (n t + 1)) ts

/-- The operations as actions on the shared state, with all outputs given. -/
def action (call : τ → List β → α → σ → Option (β × σ)) (code : τ → List α)
    (values : τ → List β) (x : τ × ℕ) (s : σ) : Option (β × σ) :=
  (code x.1)[x.2]?.bind fun a => call x.1 ((values x.1).take x.2) a s

section Positions

variable {n len : τ → ℕ} {schedule : List τ} {t : τ} {i : ℕ}

theorem mem_positions :
    (t, i) ∈ positions n schedule ↔ n t ≤ i ∧ i < n t + schedule.count t := by
  induction schedule generalizing n with
  | nil => simp [positions]
  | cons u ts ih =>
    rw [positions, List.mem_cons, ih, Prod.mk.injEq]
    by_cases htu : t = u
    · subst htu
      rw [Function.update_self, List.count_cons_self]
      simp only [true_and]
      omega
    · rw [Function.update_of_ne htu, List.count_cons_of_ne (Ne.symm htu)]
      simp [htu]

theorem pairwise_positions (n : τ → ℕ) (schedule : List τ) :
    (positions n schedule).Pairwise fun x y => x.1 = y.1 → x.2 < y.2 := by
  induction schedule generalizing n with
  | nil => exact .nil
  | cons u ts ih =>
    refine List.pairwise_cons.mpr ⟨fun y hy hyu => ?_, ih _⟩
    have hle := (mem_positions.mp hy).1
    rwa [← hyu, Function.update_self] at hle

omit [DecidableEq τ] in
theorem nodup_of_pairwise {l : List (τ × ℕ)} (h : l.Pairwise fun x y => x.1 = y.1 → x.2 < y.2) :
    l.Nodup := by
  refine List.nodup_iff_pairwise_ne.mpr (h.imp ?_)
  rintro x y hxy rfl
  exact lt_irrefl _ (hxy rfl)

theorem positions_map_fst {l : List (τ × ℕ)} (hl : ∀ t i, (t, i) ∈ l ↔ n t ≤ i ∧ i < len t)
    (hp : l.Pairwise fun x y => x.1 = y.1 → x.2 < y.2) :
    positions n (l.map Prod.fst) = l := by
  induction l generalizing n with
  | nil => rfl
  | cons x l ih =>
    obtain ⟨t, i⟩ := x
    obtain ⟨hx, hp'⟩ := List.pairwise_cons.mp hp
    obtain ⟨hle, hlt⟩ := (hl t i).mp List.mem_cons_self
    have hi : i = n t := by
      rcases List.mem_cons.mp ((hl t (n t)).mpr ⟨le_rfl, hle.trans_lt hlt⟩) with h | h
      · exact (Prod.mk.inj h).2.symm
      · exact absurd (hx _ h rfl) (Nat.not_lt.mpr hle)
    subst hi
    rw [List.map_cons, positions, ih (fun u j => ?_) hp']
    by_cases hu : u = t
    · subst hu
      rw [Function.update_self]
      constructor
      · intro h
        exact ⟨hx _ h rfl, ((hl u j).mp (List.mem_cons_of_mem _ h)).2⟩
      · rintro ⟨hj, hjlt⟩
        have hmem := (hl u j).mpr ⟨(Nat.le_succ _).trans hj, hjlt⟩
        refine (List.mem_cons.mp hmem).resolve_left fun h => ?_
        rw [(Prod.mk.inj h).2] at hj
        exact Nat.not_succ_le_self _ hj
    · rw [Function.update_of_ne hu, ← hl u j, List.mem_cons]
      exact (or_iff_right fun h => hu (Prod.mk.inj h).1).symm

end Positions

section Run

variable {call : τ → List β → α → σ → Option (β × σ)} {code : τ → List α} {values : τ → List β}
variable {m m' : σ} {schedule : List τ} {s s' : State τ β σ} {t u : τ} {r : β × σ}

theorem values_push_self : (s.push t r).values t = s.values t ++ [r.1] :=
  Function.update_self _ _ _

theorem values_push_of_ne (h : u ≠ t) : (s.push t r).values u = s.values u :=
  Function.update_of_ne h _ _

theorem length_push : (fun u => ((s.push t r).values u).length) =
    Function.update (fun u => (s.values u).length) t ((s.values t).length + 1) := by
  funext u
  by_cases hu : u = t
  · rw [hu, values_push_self, Function.update_self, List.length_append, List.length_singleton]
  · rw [values_push_of_ne hu, Function.update_of_ne hu]

theorem length_push_add (u : τ) : ((s.push t r).values u).length + schedule.count u =
    (s.values u).length + (t :: schedule).count u := by
  rw [congrFun length_push u]
  by_cases hu : u = t
  · subst hu
    rw [Function.update_self, List.count_cons_self]
    omega
  · rw [Function.update_of_ne hu, List.count_cons_of_ne (Ne.symm hu)]

theorem prefix_push {l : List β} (h : s.values t <+: l) (hr : l[(s.values t).length]? = some r.1) :
    (s.push t r).values t <+: l := by
  obtain ⟨rest, rfl⟩ := h
  rw [List.getElem?_append_right le_rfl, Nat.sub_self, ← List.head?_eq_getElem?,
    List.head?_eq_some_iff] at hr
  obtain ⟨rest', rfl⟩ := hr
  rw [values_push_self]
  exact ⟨rest', List.append_assoc _ _ _⟩

/-- A schedule whose operations replay with the given outputs is a run that finds them. -/
theorem run_of_replays (hs : ∀ t, s.values t <+: values t)
    (h : Replays (action call code values) (fun x => (values x.1)[x.2]?) s.shared
      (positions (fun t => (s.values t).length) schedule) m') :
    ∃ s', run call code s schedule = some s' ∧ s'.shared = m' ∧
      ∀ t, s'.values t <+: values t ∧
        (s'.values t).length = (s.values t).length + schedule.count t := by
  induction schedule generalizing s with
  | nil =>
    cases Reorder.replays_nil.mp h
    exact ⟨s, rfl, rfl, fun t => ⟨hs t, rfl⟩⟩
  | cons u ts ih =>
    obtain ⟨v, shared, ha, hv, h⟩ := Reorder.replays_cons.mp h
    rw [action, (List.prefix_iff_eq_take.mp (hs u)).symm] at ha
    obtain ⟨a, hcode, ha⟩ := Option.bind_eq_some_iff.mp ha
    have hstep : step call code s u = some (s.push u (v, shared)) := by
      rw [step, hcode, Option.bind_some, ha, Option.map_some]
    have hs₁ : ∀ t, (s.push u (v, shared)).values t <+: values t := by
      intro t
      by_cases ht : t = u
      · subst ht
        exact prefix_push (hs t) hv
      · rw [values_push_of_ne ht]
        exact hs t
    rw [← length_push (r := (v, shared))] at h
    obtain ⟨s', hrun, hshared, hs'⟩ := ih hs₁ h
    refine ⟨s', ?_, hshared, fun t => ⟨(hs' t).1, (hs' t).2.trans (length_push_add t)⟩⟩
    rw [run, List.foldlM_cons, hstep]
    exact hrun

theorem replays_of_run (h : run call code s schedule = some s') :
    (∀ t, s.values t <+: s'.values t ∧
      (s'.values t).length = (s.values t).length + schedule.count t) ∧
    Replays (action call code s'.values) (fun x => (s'.values x.1)[x.2]?) s.shared
      (positions (fun t => (s.values t).length) schedule) s'.shared := by
  induction schedule generalizing s with
  | nil =>
    cases h
    exact ⟨fun t => ⟨List.prefix_rfl, rfl⟩, .nil _⟩
  | cons u ts ih =>
    rw [run, List.foldlM_cons] at h
    obtain ⟨s₁, hstep, h⟩ := Option.bind_eq_some_iff.mp h
    obtain ⟨a, ha, hcall⟩ := Option.bind_eq_some_iff.mp hstep
    obtain ⟨r, hr, rfl⟩ := Option.map_eq_some_iff.mp hcall
    obtain ⟨hpre, hrep⟩ := ih h
    have hself := (hpre u).1
    rw [values_push_self] at hself
    have hu : s.values u <+: s'.values u := (List.prefix_append _ _).trans hself
    refine ⟨fun t => ⟨?_, (hpre t).2.trans (length_push_add t)⟩,
      Reorder.replays_cons.mpr ⟨r.1, r.2, ?_, ?_, ?_⟩⟩
    · by_cases ht : t = u
      · exact ht ▸ hu
      · exact values_push_of_ne (r := r) ht ▸ (hpre t).1
    · rw [action, ha, Option.bind_some, ← List.prefix_iff_eq_take.mp hu]
      exact hr
    · obtain ⟨l, hl⟩ := hself
      rw [← hl, List.append_assoc, List.getElem?_append_right le_rfl, Nat.sub_self]
      rfl
    · rw [← length_push (r := r)]
      exact hrep

end Run

section Schedule

variable {act : τ × ℕ → σ → Option (β × σ)} {value : τ × ℕ → Option β} {m m' : σ}
variable {l : List (τ × ℕ)} {len : τ → ℕ} {schedule : List τ}

theorem perm_positions (hl : ∀ t i, (t, i) ∈ l ↔ i < len t) (hn : l.Nodup)
    (hs : ∀ t, schedule.count t = len t) : l.Perm (positions (fun _ => 0) schedule) := by
  refine (List.perm_ext_iff_of_nodup hn (nodup_of_pairwise (pairwise_positions _ _))).mpr ?_
  intro x
  rw [← Prod.mk.eta (p := x), hl, mem_positions, hs]
  omega

/-- If the operations of different threads commute, and those of one thread that are out of
program order do, then every complete schedule replays like the given order. -/
theorem replays_schedule (hl : ∀ t i, (t, i) ∈ l ↔ i < len t) (hn : l.Nodup)
    (hs : ∀ t, schedule.count t = len t)
    (h : l.Pairwise fun x y => x.1 ≠ y.1 ∨ y.2 < x.2 → Commutes act x y) :
    Replays act value m (positions (fun _ => 0) schedule) m' ↔ Replays act value m l m' := by
  have hperm := perm_positions hl hn hs
  have hpos := pairwise_positions (fun _ => 0) schedule
  obtain ⟨key, hkey⟩ := exists_key (nodup_of_pairwise hpos)
  refine Reorder.replays_perm_key hperm hkey (h.imp_of_mem fun {x y} hx hy hxy hlt => hxy ?_)
  by_contra hne
  obtain ⟨heq, hle⟩ := not_or.mp hne
  -- of two operations of a thread the schedule runs the earlier one first
  rcases eq_or_of_pairwise (hpos.and hkey) (hperm.mem_iff.mp hx) (hperm.mem_iff.mp hy) with
    rfl | ⟨-, hxy⟩ | ⟨hyx, -⟩
  · exact lt_irrefl _ hlt
  · exact lt_asymm hlt hxy
  · exact hle (hyx (not_not.mp heq).symm)

/-- Between `x` and `y` stand a marked operation of the thread of `x`, not before `x`, and later in
the order one of the thread of `y`, not after `y`. -/
def Separated {τ : Type*} (G : τ × ℕ → Prop) (l : List (τ × ℕ)) (x y : τ × ℕ) : Prop :=
  ∃ r a : τ × ℕ, (r.1 = x.1 ∧ x.2 ≤ r.2 ∧ G r) ∧ (a.1 = y.1 ∧ a.2 ≤ y.2 ∧ G a) ∧
    List.Sublist [r, a] l

/-- An order that keeps the marked operations of each thread in program order replays like some
schedule, if two operations commute when one of them is not marked, they are not in program order
and no marked operations separate them. -/
theorem exists_schedule (rank : τ → ℕ) (hrank : rank.Injective) {G : τ × ℕ → Prop}
    (hl : ∀ t i, (t, i) ∈ l ↔ i < len t) (hn : l.Nodup)
    (hG : l.Pairwise fun x y => x.1 = y.1 → G x → G y → x.2 < y.2)
    (hc : l.Pairwise fun x y => ¬ (G x ∧ G y) → ¬ (x.1 = y.1 ∧ x.2 < y.2) →
      ¬ Separated G l x y → Commutes act x y) :
    ∃ schedule, (∀ t, schedule.count t = len t) ∧
      (Replays act value m (positions (fun _ => 0) schedule) m' ↔ Replays act value m l m') := by
  classical
  obtain ⟨key, hkey⟩ := exists_key hn
  obtain ⟨l', hperm, hsorted⟩ := exists_sorted G key hrank hn
  have hpos : positions (fun _ => 0) (l'.map Prod.fst) = l' := by
    have hmem : ∀ t i, (t, i) ∈ l' ↔ 0 ≤ i ∧ i < len t := by
      intro t i
      rw [← hperm.mem_iff, hl]
      exact (and_iff_right (Nat.zero_le i)).symm
    exact positions_map_fst hmem (hsorted.imp fun h hxy => lt_of_place_lt hxy h)
  refine ⟨l'.map Prod.fst, fun t => ?_, ?_⟩
  · refine eq_of_forall_lt_iff fun i => ?_
    rw [← hl, hperm.mem_iff, ← hpos, mem_positions, hpos, Nat.zero_add]
    exact (and_iff_right (Nat.zero_le i)).symm
  · -- marked operations keep their order, as the frontier of one is its own key
    have hfrontier : ∀ x ∈ l, G x → frontier G key x = key x + 1 := by
      rintro ⟨t, i⟩ hx hGx
      refine frontier_of_marked hGx fun j hji hGj => ?_
      have hj := (hl t j).mpr (hji.trans ((hl t i).mp hx))
      rcases eq_or_of_pairwise (hG.and hkey) hj hx with h | ⟨-, h⟩ | ⟨h, -⟩
      · exact absurd (Prod.mk.inj h).2 hji.ne
      · exact h
      · exact absurd (h rfl hGx hGj) hji.asymm
    rw [hpos]
    refine Reorder.replays_perm_key hperm hsorted
      ((hc.and hkey).imp_of_mem fun {x y} hx hy hxy hlt =>
        hxy.1 (fun hGxy => ?_) (fun hord => ?_) fun hsep => ?_)
    · have hyx := place_lt.mp hlt
      rw [hfrontier x hx hGxy.1, hfrontier y hy hGxy.2] at hyx
      have hkey := hxy.2
      omega
    · exact lt_asymm hord.2 (lt_of_place_lt hord.1.symm hlt)
    · obtain ⟨⟨t, i⟩, ⟨u, j⟩, ⟨rfl, hi, hGr⟩, ⟨rfl, hj, hGa⟩, hsub⟩ := hsep
      have hra := List.pairwise_iff_forall_sublist.mp hkey hsub
      have hr := hfrontier _ (hsub.subset List.mem_cons_self) hGr
      have ha := hfrontier _ (hsub.subset (List.mem_cons_of_mem _ List.mem_cons_self)) hGa
      have hx : frontier G key x ≤ frontier G key (x.1, i) := frontier_mono hi
      have hy : frontier G key (y.1, j) ≤ frontier G key y := frontier_mono hj
      have hyx := place_lt.mp hlt
      omega

end Schedule

end Interleave
end AtomicSim
