import AtomicSim.AtomicUpdate
import AtomicSim.Barriers
import AtomicSim.Lib.Interleave
import AtomicSim.Progress
import AtomicSim.SingleThread

namespace AtomicSim

open Reorder (Commutes Replays)

def Thunk.look (value : ThreadId → ℕ → Option Value) : Thunk → Option Value
  | constant v => some v
  | cell t i => value t i

section Programs

variable {α : Type} (argsOf : α → ThunkArgs)

/-- The closure of an instruction of thread `t`, applied to the values of its operands. -/
def callIn (t : ThreadId) (values : List Value) (a : α) (m : Memory) : Option (Value × Memory) :=
  ((argsOf a).deps.mapM (Thunk.valueIn t values)).bind ((argsOf a).compute m)

def callWith (value : ThreadId → ℕ → Option Value) (a : α) (m : Memory) :
    Option (Value × Memory) :=
  ((argsOf a).deps.mapM (Thunk.look value)).bind ((argsOf a).compute m)

/-- The threads take turns as the schedule says. Each runs its instructions in program order,
and each instruction acts on the memory at once. -/
def interleaved (prog : ThreadId → List α) (memory : Memory) (schedule : List ThreadId) :
    Option (Interleave.State ThreadId Value Memory) :=
  Interleave.run (callIn argsOf) prog ⟨fun _ => [], memory⟩ schedule

/-- The process has decoded the programs and resolved all of their thunks. Operands are constants or
earlier thunks of the same thread, and no thread-local was used for the first time, which would
have stored to the memory while a thunk was decoded. -/
structure Process.Completes (prog : ThreadId → List α) (p : Process) : Prop where
  decoded : ∀ t i, (p.flows t).decoded[i]? =
    (prog t)[i]?.map fun a : α => (argsOf a).thunk t i
  resolved : ∀ t, ∀ i < (prog t).length, p.value t i ≠ none
  earlier : p.DepsEarlier
  locals : ∀ e ∈ p.log, e.id ≠ none

end Programs

section Trace

variable {α : Type} {argsOf : α → ThunkArgs} {prog : ThreadId → List α} {memory : Memory}
variable {p : Process} {values : ThreadId → List Value} {t : ThreadId} {i : ℕ} {a : α}

theorem Process.Completes.mem_trace (h : p.Completes argsOf prog) (hp : p.WF) (t : ThreadId)
    (i : ℕ) : (t, i) ∈ p.trace ↔ i < (prog t).length := by
  rw [AtomicSim.mem_trace hp]
  constructor
  · intro hne
    obtain ⟨v, hv⟩ := Option.ne_none_iff_exists'.mp hne
    by_contra hle
    have hnone := h.decoded t i
    rw [List.getElem?_eq_none (Nat.not_lt.mp hle), Option.map_none,
      List.getElem?_eq_none_iff] at hnone
    exact absurd (hp.decoded_of_value hv) (Nat.not_lt.mpr hnone)
  · exact h.resolved t i

theorem Process.Completes.exists_values (h : p.Completes argsOf prog) (hp : p.WF) :
    ∃ values : ThreadId → List Value, (∀ t, (values t).length = (prog t).length) ∧
      ∀ t i, (values t)[i]? = p.value t i := by
  have hex : ∀ t, ∃ l : List Value, l.length = (prog t).length ∧ ∀ i, l[i]? = p.value t i := by
    intro t
    refine exists_list_of_getElem? (h.resolved t) fun i hi => ?_
    by_contra hne
    exact absurd ((h.mem_trace hp t i).mp ((AtomicSim.mem_trace hp).mpr hne)) (Nat.not_lt.mpr hi)
  choose values hlen hget using hex
  exact ⟨values, hlen, hget⟩

theorem tryGet_eq_look (p : Process) : Thunk.tryGet p = Thunk.look p.value := by
  funext d
  cases d <;> rfl

theorem Process.Completes.before (h : p.Completes argsOf prog) (hp : p.WF)
    (ha : (prog t)[i]? = some a) {d : Thunk} (hd : d ∈ (argsOf a).deps) : d.Before ((argsOf a).thunk t i) := by
  have hdec : (p.flows t).decoded[i]? = some ((argsOf a).thunk t i) := by
    rw [h.decoded, ha, Option.map_some]
  exact h.earlier.before hp (List.mem_of_getElem? hdec) (List.mem_append_left _ hd)

theorem action_eq {value : ThreadId → ℕ → Option Value} (hv : ∀ t i, (values t)[i]? = value t i)
    (ha : (prog t)[i]? = some a) (hd : ∀ d ∈ (argsOf a).deps, d.Before ((argsOf a).thunk t i)) :
    Interleave.action (callIn argsOf) prog values (t, i) = callWith argsOf value a := by
  have hdeps : ∀ d ∈ (argsOf a).deps, Thunk.valueIn t ((values t).take i) d = d.look value := by
    intro d hda
    have hbefore := hd d hda
    cases d with
    | constant v => rfl
    | cell u j =>
      obtain ⟨rfl, hj⟩ : u = t ∧ j < i := hbefore
      rw [Thunk.valueIn, if_pos rfl, List.getElem?_take_of_lt hj, hv]
      rfl
  funext m
  rw [Interleave.action, ha, Option.bind_some, callIn, mapM_congr hdeps, callWith]

theorem Process.Completes.replays_trace (h : p.Completes argsOf prog) (hp : p.WF)
    (hrec : Recorded memory p) (hv : ∀ t i, (values t)[i]? = p.value t i) :
    Replays (Interleave.action (callIn argsOf) prog values) (fun x => (values x.1)[x.2]?) memory
      p.trace p.memory := by
  have hlog : ∀ l : List Event, (∀ e ∈ l, e ∈ p.log) → ∀ m m', Linked m l m' →
      Replays (Interleave.action (callIn argsOf) prog values) (fun x => (values x.1)[x.2]?) m
        (l.filterMap Event.id) m' := by
    intro l
    induction l with
    | nil =>
      rintro - m m' rfl
      exact .nil m
    | cons e l ih =>
      rintro hl m m' ⟨rfl, hlink⟩
      obtain ⟨he, hl'⟩ := List.forall_mem_cons.mp hl
      cases e with
      | store m₁ m₂ => exact absurd rfl (h.locals _ he)
      | res t i v m₁ m₂ =>
        obtain ⟨c, args, hc, hargs, hcomp⟩ := hrec.sound t i v m₁ m₂ he
        rw [h.decoded, Option.map_eq_some_iff] at hc
        obtain ⟨a, ha, rfl⟩ := hc
        have hact : Interleave.action (callIn argsOf) prog values (t, i) m₁ = some (v, m₂) := by
          rw [action_eq hv ha fun d hd => h.before hp ha hd, callWith, ← tryGet_eq_look,
            show (argsOf a).deps.mapM _ = some args from hargs]
          exact hcomp
        refine .cons hact ?_ (ih hl' _ _ hlink)
        rw [hv]
        exact hp.logged.mpr ⟨m₁, m₂, he⟩
  exact hlog p.log (fun _ => id) _ _ hrec.linked

theorem interleaved_of_replays (hlen : ∀ t, (values t).length = (prog t).length)
    (hv : ∀ t i, (values t)[i]? = p.value t i) {schedule : List ThreadId}
    (hs : ∀ t, schedule.count t = (prog t).length)
    (hrep : Replays (Interleave.action (callIn argsOf) prog values) (fun x => (values x.1)[x.2]?)
      memory (Interleave.positions (fun _ => 0) schedule) p.memory) :
    ∃ s, interleaved argsOf prog memory schedule = some s ∧ s.shared = p.memory ∧
      ∀ t i, (s.values t)[i]? = p.value t i := by
  obtain ⟨s, hrun, hshared, hs'⟩ := Interleave.run_of_replays
    (s := ⟨fun _ => [], memory⟩) (fun t => List.nil_prefix) hrep
  refine ⟨s, hrun, hshared, fun t i => ?_⟩
  have heq : s.values t = values t := (hs' t).1.eq_of_length (by
    rw [(hs' t).2, hs, hlen]
    exact Nat.zero_add _)
  rw [heq, hv]

/-- In the trace, thunks of a thread that are out of program order need not be in order. -/
theorem pairwise_trace {P : Process → ThunkInner → ThunkInner → Prop} (h : p.InOrder P)
    (hn : p.trace.Nodup) : p.trace.Pairwise fun x y => x.1 = y.1 → y.2 < x.2 →
      ∀ b ∈ (p.flows y.1).decoded[y.2]?, ∀ c ∈ (p.flows x.1).decoded[x.2]?, ¬ P p b c := by
  refine List.pairwise_iff_getElem.mpr fun k l hk hl hkl hxy hlt b hb c hc hP => ?_
  have hmem := h k hk _ (List.getElem?_eq_getElem hk) c hc _ hlt b (hxy ▸ hb) hP
  rw [hxy, Prod.mk.eta, List.mem_take_iff_getElem] at hmem
  obtain ⟨j, hj, heq⟩ := hmem
  have hjl := (hn.getElem_inj_iff).mp heq
  omega

end Trace

section Visiting

variable {Inv : Process → Prop} {Q : Process → ThunkInner → Prop}

/-- What a loop reaches from its start meets `Q`, where the process meets `Inv`. -/
def Visiting (Inv : Process → Prop) (Q : Process → ThunkInner → Prop) : Prop :=
  ∀ {t : ThreadId} {rest : List ThunkInner} {s : Scan},
    LoopInv (fun _ _ => True) Inv t [] rest s.process s.pending → ∀ v ∈ s.visits rest, Q v.1 v.2

theorem visitsFrom_of_visiting (hpres : Preserves (fun _ _ => True) Inv)
    (hret : ∀ p t, Inv p → Inv (p.modify t DataFlow.retain)) (hvis : Visiting Inv Q)
    {ts : List ThreadId} {p : Process} {r : List ThunkInner} (hp : p.WF) (h : Inv p) :
    ∀ v ∈ Process.visitsFrom ts (p, r), Q v.1 v.2 := by
  induction ts generalizing p r with
  | nil => exact fun v hv => absurd hv List.not_mem_nil
  | cons t ts ih =>
    have hloop := loopInv_scan (G := fun _ _ => True) (t := t) hp (hret p t h) r
    intro v hv
    cases hs : p.stepPure t r with
    | none =>
      rw [Process.visitsFrom, hs, List.append_nil] at hv
      exact hvis hloop v (Process.thunks_retain_self p t ▸ hv)
    | some q =>
      obtain ⟨p₁, r₁, b₁⟩ := q
      rw [visitsFrom_cons hs] at hv
      rcases List.mem_append.mp hv with hv | hv
      · exact hvis hloop v hv
      · obtain ⟨s, hl, rfl, rfl, -⟩ := stepPure_eq_some.mp hs
        obtain ⟨hwf, hinv⟩ := hloop.loop hpres (fun _ _ => trivial) hl
        exact ih hwf hinv v hv

/-- A run that ends with `Inv` has kept it, and has only reached what meets `Q`. -/
theorem Reachable.of_visiting (hpres : Preserves (fun _ _ => True) Inv)
    (hret : ∀ p t, Inv p → Inv (p.modify t DataFlow.retain))
    (hanti : ∀ {p q : Process}, p.Extends q → Inv q → Inv p) (hvis : Visiting Inv Q)
    {c : Config} (h : Reachable (fun _ _ => True) c) (hc : Inv c.process) : Reachable Q c := by
  induction h with
  | new memory => exact .new memory
  | @act c c' a h ha _ ih =>
    have hgood := h.good invariant_true fun _ => trivial
    have hext : c.process.Extends c'.process := ((invariant_extends c.process).act
      ⟨hgood.wf, .refl _, hgood.offered⟩ ha fun _ _ => trivial).inv
    have hinv := hanti hext hc
    refine .act (ih hinv) ha fun v hv => ?_
    cases c with
    | offering p r => exact absurd hv List.not_mem_nil
    | decoding p =>
      cases a with
      | pass => exact visitsFrom_of_visiting hpres hret hvis hgood.wf hinv v hv
      | decode d | choose n => exact absurd hv List.not_mem_nil

end Visiting

def Process.AllAcquire (p : Process) : Prop :=
  ∀ t, ∀ c ∈ (p.flows t).decoded, c.isMemory → c.atomicity.isAcquire

/-- The thunks that stay before `c` in its pipeline are no accesses. -/
def ClearBefore (p : Process) (c : ThunkInner) : Prop :=
  ∀ b ∈ p.before c, b.isMemory = false

section Acquire

variable {p p' : Process} {t : ThreadId} {c : ThunkInner}

theorem Process.AllAcquire.of_decoded (h : p.AllAcquire)
    (hd : ∀ t, (p'.flows t).decoded = (p.flows t).decoded) : p'.AllAcquire :=
  fun t c hc => h t c (hd t ▸ hc)

theorem Process.AllAcquire.mono (h : p'.AllAcquire) (hp : p.Extends p') : p.AllAcquire :=
  fun t c hc => h t c ((hp.decoded t).subset hc)

theorem preserves_allAcquire : Preserves (fun _ _ => True) Process.AllAcquire := by
  intro p p' c _ h _ _ hs
  cases hs with
  | resolved => exact h.of_decoded fun t => by rw [Process.decoded_resolve]

theorem not_isMemory_of_visit {done rest : List ThunkInner} {s s' : Scan}
    (h : LoopInv (fun _ _ => True) Process.AllAcquire t done (c :: rest) s.process s.pending)
    (hdone : ∀ b ∈ done, b.isMemory = false) (hv : Visited s c s' false) :
    c.isMemory = false := by
  by_contra hm
  have hacq := h.inv t c ((h.wf.sublist t).subset h.mem) (Bool.not_eq_false _ ▸ hm)
  generalize hb : false = brk at hv
  cases hv with
  | pure ha _ => exact hm (isMemory_of_address ha)
  | unknown _ _ => cases hb
  | aliased _ hr =>
    obtain ⟨q, hq, -⟩ := (h.range_ne_nil _).mp hr
    obtain ⟨b, hbmem, hbr⟩ := Process.exists_mem_of_mem_held hq
    have hbm := isMemory_of_range hbr
    rw [hdone b hbmem] at hbm
    cases hbm
  | direct _ _ hat _ | blocked _ _ hat _ =>
    rw [hat] at hacq
    cases hacq
  | offered _ _ _ _ => rw [← hb] at hacq; cases hacq

/-- Whatever the loop reaches has only thunks before it that are no accesses. -/
theorem visits_clearBefore {done rest : List ThunkInner} {s : Scan}
    (h : LoopInv (fun _ _ => True) Process.AllAcquire t done rest s.process s.pending)
    (hdone : ∀ b ∈ done, b.isMemory = false) :
    ∀ v ∈ s.visits rest, ClearBefore v.1 v.2 := by
  induction rest generalizing done s with
  | nil => exact fun v hv => absurd hv List.not_mem_nil
  | cons c rest ih =>
    intro v hv
    rw [Scan.visits, List.mem_cons] at hv
    rcases hv with rfl | hv
    · rw [ClearBefore, h.before]
      exact hdone
    · cases hvisit : s.visit c with
      | none =>
        rw [hvisit] at hv
        exact absurd hv List.not_mem_nil
      | some r =>
        obtain ⟨s₁, brk⟩ := r
        rw [hvisit] at hv
        cases brk with
        | true => exact absurd hv List.not_mem_nil
        | false =>
          have hvis := visited_of_visit hvisit
          have hc := not_isMemory_of_visit h hdone hvis
          refine ih ((h.visit preserves_allAcquire trivial hvis).2.2 rfl) (fun b hb => ?_) v hv
          rcases List.mem_append.mp hb with hb | hb
          · exact hdone b hb
          · exact List.mem_singleton.mp hb ▸ hc

theorem Reachable.clearBefore {c : Config} (h : Reachable (fun _ _ => True) c)
    (hacq : c.process.AllAcquire) : Reachable ClearBefore c := by
  refine h.of_visiting preserves_allAcquire (fun p t h => h.of_decoded fun u => ?_)
    (fun hext h => h.mono hext) (fun hloop => ?_) hacq
  · rw [Process.decoded_retain]
  · exact visits_clearBefore hloop fun b hb => absurd hb List.not_mem_nil

theorem clears_clearBefore : Clears ClearBefore fun _ b _ => b.isMemory := by
  intro p q b c _ he _ _ hb _ hm
  obtain ⟨q', hq', hG⟩ := he.cond
  rw [hG b (hq'.before ▸ hb)] at hm
  cases hm

end Acquire

section Consistent

variable {prog : ThreadId → List Instr} {memory : Memory} {p : Process}

theorem commutes_of_thunk {α : Type} {argsOf : α → ThunkArgs} {prog : ThreadId → List α}
    {values : ThreadId → List Value} {x y : ThreadId × ℕ}
    (h : ∀ a ∈ (prog x.1)[x.2]?, ∃ deps compute, argsOf a = DataFlow.thunk deps compute) :
    Commutes (Interleave.action (callIn argsOf) prog values) x y := by
  have hconst : ∃ f : Option Value, ∀ m,
      Interleave.action (callIn argsOf) prog values x m = f.map fun v => (v, m) := by
    unfold Interleave.action
    cases ha : (prog x.1)[x.2]? with
    | none => exact ⟨none, fun m => rfl⟩
    | some a =>
      obtain ⟨deps, compute, hargs⟩ := h a ha
      refine ⟨(deps.mapM (Thunk.valueIn x.1 ((values x.1).take x.2))).bind compute, fun m => ?_⟩
      rw [Option.bind_some, callIn, hargs, Option.map_bind]
      rfl
  exact Reorder.commutes_of_const hconst.choose_spec

theorem Instr.exists_thunk {a : Instr} (h : a.args.address = none) :
    ∃ deps compute, a.args = DataFlow.thunk deps compute := by
  cases a with
  | thunk deps compute => exact ⟨deps, compute, rfl⟩
  | load _ _ _ | store _ _ _ _ | cmpxchg _ _ _ _ _ _ | atomicrmw _ _ _ _ _ => cases h

/-- Every complete run of a program whose accesses are all acquire, acq-rel or seq-cst finds the
values and leaves the memory of some interleaving of its threads. -/
theorem sequentially_consistent {acts : List Action} {c : Config}
    (h : (Config.decoding (.new memory)).run acts = some c)
    (hc : c.process.Completes Instr.args prog)
    (hacq : ∀ t, ∀ a ∈ prog t, a.args.address ≠ none → a.args.atomicity.isAcquire) :
    ∃ schedule s, interleaved Instr.args prog memory schedule = some s ∧
      s.shared = c.process.memory ∧ ∀ t i, (s.values t)[i]? = c.process.value t i := by
  have hreach : Reachable (fun _ _ => True) c := (Reachable.new memory).run h fun _ _ => trivial
  have hgood := (invariant_recorded memory).run (Config.good_new (recorded_new memory)) h
    fun _ _ => trivial
  have hp := hgood.wf
  have hrec := hgood.inv
  have hget : ∀ {t i} {a : Instr}, (prog t)[i]? = some a →
      (c.process.flows t).decoded[i]? = some (a.args.thunk t i) := by
    intro t i a ha
    rw [hc.decoded, ha, Option.map_some]
  have hall : c.process.AllAcquire := by
    intro t d hd hm
    obtain ⟨i, hi⟩ := List.mem_iff_getElem?.mp hd
    rw [hc.decoded, Option.map_eq_some_iff] at hi
    obtain ⟨a, ha, rfl⟩ := hi
    exact hacq t a (List.mem_of_getElem? ha) (Option.isSome_iff_ne_none.mp hm)
  have horder := pairwise_trace ((hreach.clearBefore hall).inOrder clears_clearBefore) hrec.nodup
  obtain ⟨values, hlen, hv⟩ := hc.exists_values hp
  -- the accesses are what keeps its place
  let G : ThreadId × ℕ → Prop := fun x => ∃ a ∈ (prog x.1)[x.2]?, a.args.address ≠ none
  have hG : c.process.trace.Pairwise fun x y => x.1 = y.1 → G x → G y → x.2 < y.2 := by
    refine (horder.and hrec.nodup).imp ?_
    rintro x y ⟨hxy, hne⟩ heq ⟨a, ha, -⟩ ⟨b, hb, hbm⟩
    by_contra hle
    rcases (Nat.not_lt.mp hle).eq_or_lt with h | hlt
    · exact hne (Prod.ext heq h.symm)
    · exact hxy heq hlt _ (hget hb) _ (hget ha) (Option.isSome_iff_ne_none.mpr hbm)
  have hcomm : c.process.trace.Pairwise fun x y => ¬ (G x ∧ G y) → ¬ (x.1 = y.1 ∧ x.2 < y.2) →
      ¬ Interleave.Separated G c.process.trace x y →
      Commutes (Interleave.action (callIn Instr.args) prog values) x y := by
    refine List.pairwise_of_forall fun x y hxy _ _ => ?_
    by_cases hx : G x
    · refine (commutes_of_thunk fun a ha => Instr.exists_thunk ?_).symm
      by_contra hne
      exact hxy ⟨hx, a, ha, hne⟩
    · refine commutes_of_thunk fun a ha => Instr.exists_thunk ?_
      by_contra hne
      exact hx ⟨a, ha, hne⟩
  obtain ⟨schedule, hs, hrep⟩ := Interleave.exists_schedule id Function.injective_id
    (hc.mem_trace hp) hrec.nodup hG hcomm
  obtain ⟨s, hs⟩ := interleaved_of_replays hlen hv hs (hrep.mpr (hc.replays_trace hp hrec hv))
  exact ⟨schedule, s, hs⟩

end Consistent

section Decodes

variable {α : Type} {argsOf : α → ThunkArgs} {prog : ThreadId → List α} {l : List (ThreadId × α)}
variable {memory : Memory} {p p' : Process} {n : ℕ} {acts : List Action} {c : Config}

theorem decoded_foldlM (h : (l.map fun x => (argsOf x.2).decode x.1).foldlM Process.decode p =
    some p') (t : ThreadId) : (p'.flows t).decoded = (p.flows t).decoded ++
      (l.filter fun x => x.1 = t).mapIdx fun i x => (argsOf x.2).thunk t ((p.flows t).seq + i) := by
  induction l generalizing p with
  | nil =>
    cases h
    simp
  | cons x l ih =>
    rw [List.map_cons, List.foldlM_cons] at h
    obtain ⟨p₁, h₁, h⟩ := Option.bind_eq_some_iff.mp h
    obtain ⟨-, rfl⟩ := decode_eq_some h₁
    rw [ih h]
    by_cases hx : x.1 = t
    · subst hx
      simp only [Process.flows_modify_self, DataFlow.push, DataFlow.seq, List.filter_cons,
        decide_true, if_true, List.mapIdx_cons, List.append_assoc, List.length_append,
        List.length_singleton, List.singleton_append, Nat.add_zero, Nat.add_assoc, Nat.add_comm 1]
    · rw [Process.flows_modify_of_ne _ (Ne.symm hx), List.filter_cons_of_neg (by simpa using hx)]

theorem decoded_addThreads (hp : p.WF)
    (h : (List.replicate n Decode.addThread).foldlM Process.decode p = some p') :
    p'.flows = p.flows := by
  induction n generalizing p with
  | zero =>
    cases h
    rfl
  | succ n ih =>
    rw [List.replicate_succ, List.foldlM_cons] at h
    rw [ih (Process.wf_addThread hp) h, Process.flows_addThread hp]

theorem completes_of_decodes (hprog : ∀ t, prog t = (l.filter fun x => x.1 = t).map Prod.snd)
    (hp : (List.replicate n Decode.addThread ++
      l.map fun x : ThreadId × α => (argsOf x.2).decode x.1).foldlM Process.decode (.new memory) =
        some p)
    (hc : (Config.decoding p).run acts = some c) (hnext : c.process.nextThreadid = n)
    (hearlier : c.process.DepsEarlier) (hlocals : ∀ e ∈ c.process.log, e.id ≠ none)
    (hall : ∀ t < n, (c.process.flows t).decoded.length = (prog t).length ∧
      ∀ i < (prog t).length, c.process.value t i ≠ none) :
    c.process.Completes argsOf prog := by
  have hpre := run_decodes hp
  have hpwf := ((invariant_recorded memory).run (Config.good_new (recorded_new memory)) hpre
    fun _ _ => trivial).wf
  obtain ⟨hwf, hext, -⟩ := (invariant_extends p).run
    (⟨hpwf, .refl p, nofun⟩ : (Config.decoding p).Good (fun _ _ => True) p.Extends) hc
    fun _ _ => trivial
  rw [List.foldlM_append] at hp
  obtain ⟨p₀, hp₀, hp⟩ := Option.bind_eq_some_iff.mp hp
  have hflows := decoded_addThreads (Process.wf_new memory) hp₀
  have hdecoded : ∀ t, (p.flows t).decoded = (prog t).mapIdx fun i a => (argsOf a).thunk t i := by
    intro t
    rw [decoded_foldlM hp t, hflows, hprog]
    refine List.ext_getElem? fun i => ?_
    simp [Process.new, DataFlow.new, DataFlow.seq, Function.comp_def]
  have hfresh : ∀ t, n ≤ t → prog t = [] := by
    intro t ht
    have hpref := hext.decoded t
    rw [hwf.fresh (hnext.trans_le ht), hdecoded] at hpref
    exact List.mapIdx_eq_nil_iff.mp (List.prefix_nil.mp hpref)
  refine ⟨fun t i => ?_, fun t i hi => ?_, hearlier, hlocals⟩
  · have heq : (c.process.flows t).decoded = (p.flows t).decoded := by
      rcases Nat.lt_or_ge t n with ht | ht
      · refine ((hext.decoded t).eq_of_length ?_).symm
        rw [(hall t ht).1, hdecoded, List.length_mapIdx]
      · rw [hwf.fresh (hnext.trans_le ht), hdecoded, hfresh t ht]
        rfl
    rw [heq, hdecoded, List.getElem?_mapIdx]
  · rcases Nat.lt_or_ge t n with ht | ht
    · exact (hall t ht).2 i hi
    · rw [hfresh t ht] at hi
      exact absurd hi (Nat.not_lt_zero i)

end Decodes

def twoThreads : ThreadId → List Instr
  | 0 => [.atomicrmw i32 (ptr 128) (int 1) .acqRel .add, .load (ptr 384) i32 .acquire]
  | 1 => [.store (ptr 256) i32 (int 5) .seqCst, .load (ptr 384) i32 .acquire]
  | _ => []

theorem run_twoThreads : ∃ acts c, (Config.decoding (.new .new)).run acts = some c ∧
    c.process.Completes Instr.args twoThreads ∧
    c.process.trace = [(1, 0), (0, 0), (0, 1), (1, 1)] := by
  let instrs : List (ThreadId × Instr) :=
    [0, 1].flatMap fun t => (twoThreads t).map fun a => (t, a)
  let ds : List Decode := .replicate 2 .addThread ++ instrs.map fun x => x.2.args.decode x.1
  let acts : List Action := [.pass, .choose 1, .pass, .choose 0, .pass, .choose 0, .pass, .choose 0]
  have hrun : ∃ p ∈ ds.foldlM Process.decode (.new .new), ∃ c ∈ (Config.decoding p).run acts,
      c.process.trace = [(1, 0), (0, 0), (0, 1), (1, 1)] ∧ c.process.DepsEarlier ∧
      c.process.nextThreadid = 2 ∧ (∀ e ∈ c.process.log, e.id ≠ none) ∧
      ∀ t < 2, (c.process.flows t).decoded.length = (twoThreads t).length ∧
        ∀ i < (twoThreads t).length, c.process.value t i ≠ none := by decide +kernel
  obtain ⟨p, hp, c, hc, htrace, hearlier, hnext, hlocals, hall⟩ := hrun
  have hprog : ∀ t, twoThreads t = (instrs.filter fun x => x.1 = t).map Prod.snd := by
    rintro (_ | _ | t)
    · rfl
    · rfl
    · rfl
  refine ⟨_, c, (Config.run_append (run_decodes hp)).trans hc, ?_, htrace⟩
  exact completes_of_decodes hprog hp hc hnext hearlier hlocals hall

theorem sequentially_consistent_two_threads : ∃ c : Config, ∃ schedule s,
    c.process.trace = [(1, 0), (0, 0), (0, 1), (1, 1)] ∧
    interleaved Instr.args twoThreads .new schedule = some s ∧ s.shared = c.process.memory ∧
    ∀ t i, (s.values t)[i]? = c.process.value t i := by
  obtain ⟨acts, c, h, hc, htrace⟩ := run_twoThreads
  have hacq : ∀ t, ∀ a ∈ twoThreads t, a.args.address ≠ none → a.args.atomicity.isAcquire := by
    intro t a ha _
    rcases t with _ | _ | t
    · rcases List.mem_pair.mp ha with rfl | rfl <;> rfl
    · rcases List.mem_pair.mp ha with rfl | rfl <;> rfl
    · exact absurd ha List.not_mem_nil
  obtain ⟨schedule, s, hs⟩ := sequentially_consistent h hc hacq
  exact ⟨c, schedule, s, htrace, hs⟩

end AtomicSim
