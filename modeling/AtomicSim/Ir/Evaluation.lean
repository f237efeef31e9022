import AtomicSim.Compile.Folding
import AtomicSim.Flow

namespace AtomicSim

section SetUp

variable {t : ThreadId} {p p' : Process} {inits : List (Layout × Value)}

/-- Thread-locals are set up one after the other. -/
def Process.setUp (t : ThreadId) (p : Process) (inits : List (Layout × Value)) : Option Process :=
  (inits.map fun i => Decode.threadLocal t i.1 i.2).foldlM Process.decode p

theorem decode_threadLocal_eq {layout : Layout} {value : Value}
    (h : p.decode (.threadLocal t layout value) = some p') :
    ∃ memory, p' = { p with memory, log := p.log ++ [.store p.memory memory] } := by
  obtain ⟨⟨ptr, q⟩, hq, rfl⟩ := Option.map_eq_some_iff.mp h
  unfold Process.threadLocal at hq
  split_ifs at hq
  obtain ⟨⟨ptr', m⟩, -, hq⟩ := Option.bind_eq_some_iff.mp hq
  obtain ⟨n, -, hq⟩ := Option.bind_eq_some_iff.mp hq
  cases hq
  exact ⟨n, rfl⟩

theorem setUp_cons {i : Layout × Value} (h : p.setUp t (i :: inits) = some p') :
    ∃ memory, Process.setUp t { p with memory, log := p.log ++ [.store p.memory memory] } inits =
      some p' := by
  obtain ⟨q, hq, h⟩ := Option.bind_eq_some_iff.mp h
  obtain ⟨memory, rfl⟩ := decode_threadLocal_eq hq
  exact ⟨memory, h⟩

theorem flows_setUp (h : p.setUp t inits = some p') :
    p'.flows = p.flows ∧ p'.nextThreadid = p.nextThreadid := by
  induction inits generalizing p with
  | nil =>
    cases h
    exact ⟨rfl, rfl⟩
  | cons i inits ih =>
    obtain ⟨memory, h⟩ := setUp_cons h
    have hrest := ih h
    exact hrest

theorem log_setUp (h : p.setUp t inits = some p') : p.log <+: p'.log := by
  induction inits generalizing p with
  | nil =>
    cases h
    exact List.prefix_rfl
  | cons i inits ih =>
    obtain ⟨memory, h⟩ := setUp_cons h
    exact (List.prefix_append _ _).trans (ih h)

/-- A store made while decoding stays in the trace. -/
theorem eq_nil_of_setUp (h : p.setUp t inits = some p') (hlog : ∀ e ∈ p'.log, e.id ≠ none) :
    inits = [] := by
  cases inits with
  | nil => rfl
  | cons i inits =>
    obtain ⟨memory, h⟩ := setUp_cons h
    have hmem := (log_setUp h).subset (List.mem_append_right _ (List.mem_singleton_self _))
    exact absurd rfl (hlog _ hmem)

end SetUp

/-- What the thread evaluates sets up thread-locals, or depends only on the addresses of those that
it has. -/
def SetsUp {α : Type} (t : ThreadId) (m : StateT Locals Option α) : Prop :=
  ∀ s a s', m s = some (a, s') → ∃ inits, s.process.setUp t inits = some s'.process ∧
    (inits = [] → s' = s ∧ ∀ r : Locals, r.threadLocals = s.threadLocals →
      t ∈ r.process.threads → m r = some (a, r))

section SetsUp

variable {α β : Type} {t : ThreadId} {m : StateT Locals Option α}

theorem setsUp_pure (a : α) : SetsUp t (pure a : StateT Locals Option α) := by
  rintro s _ _ h
  cases h
  exact ⟨[], rfl, fun _ => ⟨rfl, fun _ _ _ => rfl⟩⟩

theorem setsUp_lift (o : Option α) : SetsUp t (liftM o : StateT Locals Option α) := by
  cases o with
  | none =>
    rintro s a s' h
    cases h
  | some a => exact setsUp_pure a

theorem SetsUp.bind {f : α → StateT Locals Option β} (hm : SetsUp t m) (hf : ∀ a, SetsUp t (f a)) :
    SetsUp t (m >>= f) := by
  intro s b s₂ h
  obtain ⟨⟨a, s₁⟩, ha, hb⟩ := Option.bind_eq_some_iff.mp h
  obtain ⟨inits₁, h₁, hnil₁⟩ := hm s a s₁ ha
  obtain ⟨inits₂, h₂, hnil₂⟩ := hf a s₁ b s₂ hb
  refine ⟨inits₁ ++ inits₂, ?_, fun hnil => ?_⟩
  · rw [Process.setUp, List.map_append, List.foldlM_append]
    exact Option.bind_eq_some_iff.mpr ⟨_, h₁, h₂⟩
  · obtain ⟨rfl, rfl⟩ := List.append_eq_nil_iff.mp hnil
    obtain ⟨rfl, hfix₁⟩ := hnil₁ rfl
    obtain ⟨rfl, hfix₂⟩ := hnil₂ rfl
    refine ⟨rfl, fun r hr ht => ?_⟩
    exact Option.bind_eq_some_iff.mpr ⟨_, hfix₁ r hr ht, hfix₂ r hr ht⟩

variable (threadLocalInit : ThreadLocalKey → Option (Layout × Value))

theorem setsUp_threadLocal (key : ThreadLocalKey) :
    SetsUp t (threadLocal threadLocalInit t key) := by
  intro s ptr s' h
  unfold threadLocal at h
  split_ifs at h with ht
  cases hl : (s.threadLocals t).lookup key with
  | some ptr' =>
    rw [hl] at h
    cases h
    refine ⟨[], rfl, fun _ => ⟨rfl, fun r hr ht' => ?_⟩⟩
    unfold threadLocal
    rw [if_pos ht', hr, hl]
  | none =>
    rw [hl] at h
    obtain ⟨⟨layout, value⟩, -, h⟩ := Option.bind_eq_some_iff.mp h
    obtain ⟨⟨ptr', p⟩, hp, h⟩ := Option.bind_eq_some_iff.mp h
    cases h
    refine ⟨[(layout, value)], ?_, fun hnil => absurd hnil (List.cons_ne_nil _ _)⟩
    show ((s.process.threadLocal t layout value).map Prod.snd).bind _ = _
    rw [hp]
    rfl

variable (tm : TypeMap)

mutual

theorem setsUp_evaluate : ∀ e : CExpr, SetsUp t (e.evaluate tm threadLocalInit t)
  | .const _ value => setsUp_pure value
  | .threadLocal _ key => (setsUp_threadLocal threadLocalInit key).bind fun _ => setsUp_pure _
  | .apply _ args => (setsUp_evaluateList args).bind fun _ => setsUp_lift _

theorem setsUp_evaluateList :
    ∀ args : List CExpr, SetsUp t (CExpr.evaluateList tm threadLocalInit t args)
  | [] => setsUp_pure []
  | arg :: args => (setsUp_evaluate arg).bind fun _ => (setsUp_evaluateList args).bind fun _ =>
    setsUp_pure _

end

end SetsUp

end AtomicSim
