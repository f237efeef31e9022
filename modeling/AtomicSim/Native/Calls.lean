import AtomicSim.Compile.Scalars
import AtomicSim.Native.MemCopy

namespace AtomicSim

namespace Machine

section Gathered

variable {t : ThreadId} {m : Memory} {k : Task} {s : Machine} {α : Type}

theorem Gathered.operand {d : Thunk} {v : Value} {f : Value → Task}
    (h : Alone t m (.await d f) s) (hd : d.poll s.process = some (some v)) :
    ∃ s', Next s s' ∧ Alone t m (f v) s' ∧ s'.process = s.process := by
  let s' := s.goto t (f v)
  have hpoll : s.poll s.process t (.await d f) = some s' := by simp only [poll, hd, s']
  have hnext := h.next_poll hpoll
  rw [wake_of_wakers (s := s') h.wakers] at hnext
  have hcontrol : s'.control t = f v := Function.update_self t _ s.control
  exact ⟨s', hnext, { h with control := hcontrol }, rfl⟩

/-- The operands `xs` have the values `vs`. -/
abbrev Operands (s : Machine) (xs : List Thunk) (vs : List Value) : Prop :=
  List.Forall₂ (fun x v => Thunk.poll s.process x = some (some v)) xs vs

theorem Gathered.fromThunksLoop {inputs : NativeInputs α} {f : Option α → Task}
    {read : List (Thunk × Option Value)} {xs args : List Thunk} {vs : List Value}
    (h : Alone t m (fromThunksLoop inputs f read (xs ++ args)) s) (hv : s.Operands xs vs)
    (hn : ∀ i < xs.length, inputs.needsValue (read.length + i) = some true) :
    ∃ s', Leads s s' ∧ Alone t m
      (AtomicSim.fromThunksLoop inputs f (read ++ xs.zip (vs.map some)) args) s' := by
  unfold Operands at hv
  generalize hp : s.process = p at hv
  induction hv generalizing read s with
  | nil => exact ⟨s, .refl, by simpa using h⟩
  | @cons x v xs vs hx hxs ih =>
    have hx₀ := hn 0 (by simp)
    rw [Nat.add_zero] at hx₀
    rw [List.cons_append, AtomicSim.fromThunksLoop] at h
    simp only [hx₀] at h
    obtain ⟨s₁, hs₁, h₁, hp₁⟩ := h.operand (hp ▸ hx)
    have hn₁ : ∀ i < xs.length, inputs.needsValue ((read ++ [(x, some v)]).length + i) =
        some true := by
      intro i hi
      rw [List.length_append, List.length_singleton, Nat.add_assoc, Nat.add_comm 1]
      exact hn (i + 1) (by simpa using hi)
    obtain ⟨s₂, hs₂, h₂⟩ := ih h₁ hn₁ (hp₁.trans hp)
    refine ⟨s₂, .head hs₁ hs₂, ?_⟩
    simpa using h₂

theorem Gathered.nativeFn {name : String} {inputs : NativeInputs α}
    {f : α → (Value → Task) → Task} {g : Thunk → Task} {xs : List Thunk} {vs : List Value} {n : ℕ}
    {a : α} (h : Alone t m ((nativeFn name inputs f).callImp xs g) s) (hv : s.Operands xs vs)
    (hlen : xs.length = n) (hn : ∀ i < n, inputs.needsValue i = some true)
    (ha : inputs.fromThunks (xs.zip (vs.map some)) = some a) :
    ∃ s', Leads s s' ∧ Alone t m (f a fun out => FlowCtx.constant out g) s' := by
  subst hlen
  have h₀ : Alone t m (AtomicSim.fromThunksLoop inputs _ [] (xs ++ [])) s :=
    (List.append_nil xs).symm ▸ h
  obtain ⟨s', hs', h'⟩ := h₀.fromThunksLoop hv (by simpa using hn)
  rw [List.nil_append, AtomicSim.fromThunksLoop] at h'
  simp only [ha] at h'
  exact ⟨s', hs', h'⟩

end Gathered

/-- Whatever the task awaits, it goes on to panic. -/
inductive Doomed (e : Failure) : Task → Prop
  | panic : Doomed e (.panic e)
  | await {d : Thunk} {k : Value → Task} : (∀ v, Doomed e (k v)) → Doomed e (.await d k)

variable {e : Failure} {t : ThreadId} {s s' : Machine}

theorem Doomed.polled {p : Process} {k : Task} (h : Doomed e k) (hs : Polled s p t k s')
    (hk : s.control t = k) : Doomed e (s'.control t) := by
  cases h with
  | panic =>
    cases hs with
    | fail _ | suspend _ => exact hk ▸ .panic
  | await h =>
    cases hs with
    | fail _ | suspend _ => exact hk ▸ .await h
    | await _ =>
      rw [control_goto]
      exact h _

theorem Doomed.act {a : MachineAction} (h : Doomed e (s.control t)) (hwf : s.WF)
    (ha : s.act a = some s') : Doomed e (s'.control t) := by
  obtain ⟨-, s₁, hs₁, rfl⟩ := act_eq_some ha
  have hs := performed_of_perform hs₁
  have hdone : s.control t ≠ .done := fun hk => by
    rw [hk] at h
    cases h
  show Doomed e (s₁.control t)
  by_cases hactor : actor a = some t
  · cases hs with
    | main _ _ | pass _ | choose _ => cases hactor
    | enter _ _ hk _ =>
      obtain rfl := Option.some.inj hactor
      rw [hk] at h
      cases h
    | poll _ _ hs =>
      obtain rfl := Option.some.inj hactor
      exact h.polled hs rfl
  · have hkept := (hwf.frame hs).control t (hwf.lt_of_control hdone).1 hactor
    exact hkept.symm ▸ h

theorem Doomed.run {as : List MachineAction} (h : Doomed e (s.control t)) (hwf : s.WF)
    (hr : s.run as = some s') : Doomed e (s'.control t) :=
  (run_invariant (P := fun s => s.WF ∧ Doomed e (s.control t))
    (fun hs ha => ⟨hs.1.act ha, hs.2.act hs.1 ha⟩) hr ⟨hwf, h⟩).2

theorem doomed_fromThunksLoop {α : Type} {inputs : NativeInputs α} {f : Option α → Task}
    (hf : f none = .panic e) {args : List Thunk} {read : List (Thunk × Option Value)} {n : ℕ}
    (hn : n < args.length) (hnone : inputs.needsValue (read.length + n) = none)
    (htrue : ∀ i < n, inputs.needsValue (read.length + i) = some true) :
    Doomed e (AtomicSim.fromThunksLoop inputs f read args) := by
  induction args generalizing read n with
  | nil => exact absurd hn (Nat.not_lt_zero n)
  | cons x args ih =>
    cases n with
    | zero =>
      rw [Nat.add_zero] at hnone
      simp only [AtomicSim.fromThunksLoop, hnone, hf]
      exact .panic
    | succ n =>
      have hx := htrue 0 (Nat.succ_pos n)
      rw [Nat.add_zero] at hx
      simp only [AtomicSim.fromThunksLoop, hx]
      refine .await fun v => ih (Nat.lt_of_succ_lt_succ hn) ?_ fun i hi => ?_
      · rw [List.length_append, List.length_singleton, Nat.add_assoc, Nat.add_comm 1]
        exact hnone
      · rw [List.length_append, List.length_singleton, Nat.add_assoc, Nat.add_comm 1]
        exact htrue (i + 1) (Nat.succ_lt_succ hi)

end Machine
end AtomicSim
