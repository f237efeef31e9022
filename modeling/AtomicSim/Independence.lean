import AtomicSim.Runs
import AtomicSim.Flow

namespace AtomicSim

/-- What `step_pure` appends to the entries of the other threads; `none` if it panics. -/
def Process.offers (p : Process) (threadid : ThreadId) (resolvable : List ThunkInner) :
    Option (List ThunkInner) :=
  (p.stepPure threadid resolvable).map fun x => x.2.1.drop resolvable.length

namespace Scan

/-- The loop takes `c` to an atomic arm of its `match`: the range of `c` is known and free. -/
def Free (s : Scan) (c : ThunkInner) : Prop :=
  c.atomicity ≠ .none ∧ ∃ r ∈ c.range s.process, (s.pending.range r).isEmpty

instance (s : Scan) : DecidablePred s.Free :=
  fun c => inferInstanceAs (Decidable (_ ∧ ∃ r ∈ c.range s.process, _))

/-- The first thunk that the loop takes to an atomic arm. -/
def firstFree : List ThunkInner → Scan → Option ThunkInner
  | [], _ => none
  | c :: cs, s =>
    if s.Free c then some c
    else
      match s.visit c with
      | some (s', false) => firstFree cs s'
      | _ => none

/-- The same variables, after other threads have offered `r`. -/
def after (s : Scan) (r : List ThunkInner) : Scan := { s with resolvable := r }

/-- What the loop has appended since `s`, after `r`. -/
def rebase (s : Scan) (r : List ThunkInner) (s' : Scan) : Scan :=
  s'.after (r ++ s'.resolvable.drop s.resolvable.length)

theorem rebase_of_eq {s s' : Scan} {r l : List ThunkInner}
    (h : s'.resolvable = s.resolvable ++ l) : s.rebase r s' = s'.after (r ++ l) := by
  rw [rebase, h, List.drop_left]

/-- What the body of the loop appends to `resolvable`. -/
def appended (s : Scan) (c : ThunkInner) : List ThunkInner :=
  if s.Free c ∧ (c.atomicity = .release → s.resolvable = []) then [c] else []

end Scan

section Loop

variable {s s' : Scan} {c : ThunkInner} {cs : List ThunkInner} {r : List ThunkInner}

theorem resolvable_eq_append {brk : Bool} (hv : Visited s c s' brk) :
    s'.resolvable = s.resolvable ++ s.appended c := by
  -- all ways but the last leave `resolvable` as it is
  have hkeep : ¬ (s.Free c ∧ (c.atomicity = .release → s.resolvable = [])) →
      s.resolvable = s.resolvable ++ s.appended c := by
    intro h
    rw [Scan.appended, if_neg h, List.append_nil]
  cases hv with
  | pure ha _ =>
    refine hkeep fun h => ?_
    obtain ⟨⟨-, range, hr, -⟩, -⟩ := h
    rw [ThunkInner.range, ha] at hr
    cases hr
  | unknown _ hn =>
    refine hkeep fun h => ?_
    obtain ⟨⟨-, range, hr, -⟩, -⟩ := h
    rw [hn] at hr
    cases hr
  | aliased hr' hne =>
    refine hkeep fun h => ?_
    obtain ⟨⟨-, range, hr, hfree⟩, -⟩ := h
    cases hr.symm.trans hr'
    exact hne (List.isEmpty_iff.mp hfree)
  | direct _ _ hnone _ => exact hkeep fun h => h.1.1 hnone
  | blocked _ _ hrel hne => exact hkeep fun h => hne (h.2 hrel)
  | offered hr hp hat hrel =>
    rw [Scan.appended, if_pos ⟨⟨hat, _, hr, List.isEmpty_iff.mpr hp⟩, hrel⟩]

theorem exists_visit_after (s : Scan) (c : ThunkInner) (r : List ThunkInner) :
    ∃ r', (s.after r).visit c = (s.visit c).map fun x => (x.1.after r', x.2) := by
  have hstep : ∀ s : Scan, (s.after r).step c = (s.step c).map (Scan.after · r) := by
    intro s
    have hproc : (s.after r).process = s.process := rfl
    rw [Scan.step, Scan.step, hproc]
    cases c.step s.process <;> rfl
  have hproc : (s.after r).process = s.process := rfl
  have hpend : (s.after r).pending = s.pending := rfl
  unfold Scan.visit
  simp only [hproc, hpend]
  cases c.address with
  | none =>
    refine ⟨r, ?_⟩
    simp only [hstep, Option.map_map]
    rfl
  | some al =>
    obtain ⟨address, layout⟩ := al
    cases hg : address.tryGet s.process with
    | none => exact ⟨r, by simp only [hg, Option.map_some]⟩
    | some a =>
      cases hadd : addU64 a.asU64 layout.bytes with
      | none =>
        refine ⟨r, ?_⟩
        simp only [hg, hadd, Option.bind_eq_bind, Option.bind_none, Option.map_none]
      | some stop =>
        simp only [hg, hadd, Option.bind_eq_bind, Option.bind_some]
        by_cases hp : (s.pending.range ⟨a.asU64, stop⟩).head?.isSome
        · exact ⟨r, by rw [if_pos hp, if_pos hp]; rfl⟩
        · rw [if_neg hp, if_neg hp]
          cases c.atomicity with
          | none =>
            refine ⟨r, ?_⟩
            have h := congrArg (Option.map fun s : Scan => (s, false))
              (hstep { s with pending := s.pending.insert ⟨a.asU64, stop⟩ () })
            refine h.trans ?_
            simp only [Option.map_map]
            rfl
          | relaxed | acquire | acqRel | seqCst => exact ⟨r ++ [c], rfl⟩
          | release =>
            refine ⟨if r.isEmpty then r ++ [c] else r, ?_⟩
            have hres : (s.after r).resolvable = r := rfl
            simp only [hres, Option.map_some]
            split_ifs <;> rfl

theorem visit_after (h : s.Free c → c.atomicity = .release → (r = [] ↔ s.resolvable = [])) :
    (s.after r).visit c = (s.visit c).map fun x => (s.rebase r x.1, x.2) := by
  obtain ⟨r', hr'⟩ := exists_visit_after s c r
  rw [hr']
  cases hv : s.visit c with
  | none => rfl
  | some x =>
    rw [hv] at hr'
    have hl := resolvable_eq_append (visited_of_visit hv)
    have hl' := resolvable_eq_append (visited_of_visit hr')
    have happ : (s.after r).appended c = s.appended c := by
      refine if_congr ⟨fun ⟨hf, hrel⟩ => ⟨hf, fun ha => (h hf ha).mp (hrel ha)⟩, ?_⟩ rfl rfl
      exact fun ⟨hf, hrel⟩ => ⟨hf, fun ha => (h hf ha).mpr (hrel ha)⟩
    have hrr : r' = r ++ s.appended c := by
      rw [← happ]
      exact hl'
    simp only [Option.map_some, Scan.rebase_of_eq hl, hrr]

theorem exists_loop_after (s : Scan) (cs r : List ThunkInner) :
    ∃ r', Scan.loop cs (s.after r) = (Scan.loop cs s).map (Scan.after · r') := by
  induction cs generalizing s r with
  | nil => exact ⟨r, rfl⟩
  | cons c cs ih =>
    obtain ⟨r', hr'⟩ := exists_visit_after s c r
    rw [Scan.loop, Scan.loop, hr']
    rcases s.visit c with _ | ⟨s', _ | _⟩
    · exact ⟨r, rfl⟩
    · exact ih s' r'
    · exact ⟨r', rfl⟩

/-- The loop offers the same after `r` as after the entries of `s`, if both are empty, both
are not, or no release access comes first. -/
theorem loop_after (h : (r = [] ↔ s.resolvable = []) ∨
      ∀ u ∈ Scan.firstFree cs s, u.atomicity ≠ .release) :
    Scan.loop cs (s.after r) = (Scan.loop cs s).map (s.rebase r) := by
  induction cs generalizing s r with
  | nil => simp [Scan.loop, Scan.rebase]
  | cons c cs ih =>
    have hc : s.Free c → c.atomicity = .release → (r = [] ↔ s.resolvable = []) := by
      intro hf hrel
      refine h.resolve_right fun hu => hu c ?_ hrel
      rw [Scan.firstFree, if_pos hf]
      rfl
    rw [Scan.loop, Scan.loop, visit_after hc]
    cases hv : s.visit c with
    | none => rfl
    | some x =>
      obtain ⟨s', brk⟩ := x
      cases brk with
      | true => rfl
      | false =>
        have hvis := visited_of_visit hv
        have hl := resolvable_eq_append hvis
        simp only [Option.map_some]
        rw [Scan.rebase_of_eq hl, ih]
        · -- what the rest of the loop appends comes after what `c` does
          refine Option.map_congr fun s'' hs'' => ?_
          obtain ⟨l', hl'⟩ := loop_resolvable hs''
          rw [Scan.rebase_of_eq hl'.symm,
            Scan.rebase_of_eq (l := s.appended c ++ l') (by simp [← hl', hl]), List.append_assoc]
        · rcases h with h | h
          · exact .inl (by simp [hl, h])
          · by_cases hf : s.Free c
            · -- `c` is no release access, so from here on neither vector is empty
              have hne : c.atomicity ≠ .release := h c (by rw [Scan.firstFree, if_pos hf]; rfl)
              have happ : s.appended c = [c] := if_pos ⟨hf, fun hrel => absurd hrel hne⟩
              exact .inl (by simp [hl, happ])
            · refine .inr fun u hu => h u ?_
              rw [Scan.firstFree, if_neg hf, hv]
              exact hu

theorem mem_resolvable_of_firstFree (hl : Scan.loop cs s = some s') (hs : s.resolvable = [])
    (hc : Scan.firstFree cs s = some c) : c ∈ s'.resolvable := by
  induction cs generalizing s with
  | nil => cases hc
  | cons d cs ih =>
    obtain ⟨s₁, brk, hv, hrest⟩ := loop_cons.mp hl
    have hvis := visited_of_visit hv
    rw [Scan.firstFree] at hc
    split_ifs at hc with hf
    · cases hc
      have happ : s.appended c = [c] := if_pos ⟨hf, fun _ => hs⟩
      have hmem : c ∈ s₁.resolvable := by simp [resolvable_eq_append hvis, happ]
      rcases hrest with ⟨rfl, rfl⟩ | ⟨rfl, hl⟩
      · exact hmem
      · exact (loop_resolvable hl).subset hmem
    · simp only [hv] at hc
      rcases hrest with ⟨rfl, rfl⟩ | ⟨rfl, hl⟩
      · cases hc
      · have happ : s.appended d = [] := if_neg fun h => hf h.1
        exact ih hl (by rw [resolvable_eq_append hvis, hs, happ]; rfl) hc

end Loop

/-- The first thunk of a pass over the pipeline whose range is known and free and that is
atomic. -/
def Process.firstFree (p : Process) (t : ThreadId) : Option ThunkInner :=
  Scan.firstFree (p.unresolved t) (p.scan t [])

theorem offers_eq (p : Process) (t : ThreadId) (r : List ThunkInner) :
    p.offers t r = (Scan.loop (p.unresolved t) ((p.scan t []).after r)).map
      fun s => s.resolvable.drop r.length := by
  rw [← Process.thunks_retain_self]
  rw [Process.offers, Process.stepPure, Option.map_eq_bind, Option.map_eq_bind]
  exact Option.bind_assoc _ _ _

theorem offers_ne_of_release {p : Process} {t : ThreadId} {s : Scan} {u : ThunkInner}
    (hs : Scan.loop (p.unresolved t) (p.scan t []) = some s) (hu : u ∈ p.firstFree t)
    (hrel : u.atomicity = .release) :
    p.offers t [] ≠ p.offers t [{ u with atomicity := .none }] := by
  let x : ThunkInner := { u with atomicity := .none }
  intro heq
  have hself : (p.scan t []).after [] = p.scan t [] := rfl
  rw [offers_eq, offers_eq, hself, hs] at heq
  obtain ⟨s', hs', heq⟩ := Option.map_eq_some_iff.mp heq.symm
  have hmem : u ∈ s'.resolvable := by
    refine List.mem_of_mem_drop (i := [x].length) ?_
    rw [heq]
    exact mem_resolvable_of_firstFree hs rfl hu
  have hx := loop_release hs' (List.cons_ne_nil x []) hmem hrel
  have hnone : u.atomicity = .none := congrArg ThunkInner.atomicity (List.mem_singleton.mp hx)
  rw [hrel] at hnone
  cases hnone

/-- A thread offers the same whatever the other threads have offered, exactly if its first
atomic access with a known and free range is not a release access, or the pass panics. -/
theorem offers_independent_iff (p : Process) (t : ThreadId) :
    (∀ r₁ r₂, p.offers t r₁ = p.offers t r₂) ↔
      (p.stepPure t [] = none ∨ ∀ u ∈ p.firstFree t, u.atomicity ≠ .release) := by
  have hnone : p.stepPure t [] = none ↔
      Scan.loop (p.unresolved t) (p.scan t []) = none := by
    rw [← Process.thunks_retain_self, Process.stepPure]
    simp only [Option.bind_eq_bind, Option.bind_eq_none_iff, reduceCtorEq, imp_false]
    exact Option.eq_none_iff_forall_ne_some.symm
  constructor
  · intro h
    by_contra hcon
    obtain ⟨hsome, hrel⟩ := not_or.mp hcon
    push Not at hrel
    obtain ⟨u, hu, hrel⟩ := hrel
    rw [hnone, ← ne_eq, Option.ne_none_iff_exists'] at hsome
    obtain ⟨s, hs⟩ := hsome
    exact offers_ne_of_release hs hu hrel (h _ _)
  · intro h r₁ r₂
    suffices hall : ∀ r, p.offers t r = (Scan.loop (p.unresolved t) (p.scan t [])).map
        Scan.resolvable from (hall r₁).trans (hall r₂).symm
    intro r
    rcases h with h | h
    · rw [hnone] at h
      obtain ⟨r', hr'⟩ := exists_loop_after (p.scan t []) (p.unresolved t) r
      rw [offers_eq, hr', h]
      rfl
    · rw [offers_eq, loop_after (.inr h), Option.map_map]
      refine Option.map_congr fun s _ => ?_
      simp [Scan.rebase, Scan.after, Process.scan]

/-- A thread offers a release store if it is passed first, but not after the load that the
first thread offers in the same pass. -/
theorem offers_depend : ∃ p, Reachable (fun _ _ => True) (.decoding p) ∧
    ∃ p' r b, p.stepPure 0 [] = some (p', r, b) ∧ p'.offers 1 [] ≠ p'.offers 1 r := by
  let ds : List Decode := [.addThread, .addThread,
    (DataFlow.load (ptr 64) i32 .relaxed).decode 0,
    (DataFlow.store (ptr 128) i32 (int 1) .release).decode 1]
  have hrun : ∃ p ∈ ds.foldlM Process.decode (.new .new), ∃ x ∈ p.stepPure 0 [],
      (x.1.offers 1 []).map List.length ≠ (x.1.offers 1 x.2.1).map List.length := by
    decide +kernel
  obtain ⟨p, hp, ⟨p', r, b⟩, hx, hne⟩ := hrun
  refine ⟨p, (Reachable.new _).decodes hp, p', r, b, hx, fun h => hne ?_⟩
  rw [h]

end AtomicSim
