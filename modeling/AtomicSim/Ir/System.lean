import AtomicSim.Ir.Evaluation
import AtomicSim.Ir.Operations

namespace AtomicSim

namespace Ir

/-- The process with the table `thread_locals` of each thread, and what is left of the task of each
thread. -/
structure System where
  config : Config
  threadLocals : ThreadId → List (ThreadLocalKey × ℕ)
  task : ThreadId → Decoding Value

/-- The tasks may be polled in any order between two passes. -/
inductive SystemAction where
  | addThread
  | poll (t : ThreadId)
  | pass
  | choose (n : ℕ)

namespace System

/-- The tasks of all threads that will be added. -/
def new (memory : Memory) (threadLocals : ThreadId → List (ThreadLocalKey × ℕ))
    (task : ThreadId → Decoding Value) : System where
  config := .decoding (.new memory)
  threadLocals := threadLocals
  task := task

def process (s : System) : Process := s.config.process

section Step

variable (tm : TypeMap) (threadLocalInit : ThreadLocalKey → Option (Layout × Value))

/-- One operation of the task of thread `t` while it is polled. -/
def poll (s : System) (p : Process) (t : ThreadId) : Option System :=
  match s.task t with
  | .ret _ =>
    -- a task that has sent its join signal is not polled again
    if (p.flows t).joined then none
    else (p.join t).map fun p => { s with config := .decoding p }
  | .fail | .raise _ => none
  | .perform (.issue a) k =>
    if (p.flows t).len < Process.pipelineSize then
      (p.thunkImpl t a.address a.atomicity a.deps a.compute).map fun (d, p) =>
        { s with config := .decoding p, task := Function.update s.task t (k d) }
    else some s
  | .perform (.await d) k =>
    (d.poll p).map fun value =>
      value.elim s fun v => { s with task := Function.update s.task t (k v) }
  | .perform (.instant e) k =>
    (e.evaluate tm threadLocalInit t ⟨p, s.threadLocals⟩).map fun (v, locals) =>
      ⟨.decoding locals.process, locals.threadLocals, Function.update s.task t (k v)⟩

def act (s : System) : SystemAction → Option System
  | .addThread => (s.config.act (.decode .addThread)).map fun config => { s with config }
  | .poll t =>
    match s.config with
    | .decoding p => if t < p.nextThreadid then s.poll tm threadLocalInit p t else none
    | .offering _ _ => none
  | .pass => (s.config.act .pass).map fun config => { s with config }
  | .choose n => (s.config.act (.choose n)).map fun config => { s with config }

def run (s : System) : List SystemAction → Option System
  | [] => some s
  | a :: as => (s.act tm threadLocalInit a).bind fun s' => s'.run as

end Step
end System

theorem invariant_log (p : Process) :
    Invariant (fun _ _ => True) fun q : Process => p.log <+: q.log where
  same hs h := hs.log ▸ h
  push _ _ _ h := h
  store _ h := h.trans (List.prefix_append _ _)
  resolve _ h _ _ hs := by
    cases hs with
    | resolved _ _ _ _ => exact h.trans (List.prefix_append _ _)

namespace System

section Tracks

variable {tm : TypeMap} {threadLocalInit : ThreadLocalKey → Option (Layout × Value)}
variable {memory : Memory} {tables : ThreadId → List (ThreadLocalKey × ℕ)}
variable {task : ThreadId → Decoding Value} {s s' : System} {code : ThreadId → List ThunkArgs}
variable {p : Process} {t : ThreadId} {n m : ℕ}

/-- With these thread-locals, an expression has the value in one of the first `n` threads. -/
def Fixed (tm : TypeMap) (threadLocalInit : ThreadLocalKey → Option (Layout × Value))
    (tables : ThreadId → List (ThreadLocalKey × ℕ)) (n : ℕ) (t : ThreadId) (e : CExpr) (v : Value) :
    Prop :=
  t < n ∧ ∀ r : Locals, r.threadLocals = tables → t ∈ r.process.threads →
    e.evaluate tm threadLocalInit t r = some (v, r)

theorem Fixed.mono {e : CExpr} {v : Value} (h : Fixed tm threadLocalInit tables n t e v)
    (hn : n ≤ m) : Fixed tm threadLocalInit tables m t e v :=
  ⟨h.1.trans_le hn, h.2⟩

/-- The process is one that a run reaches, and each thread has decoded what its task has issued,
given the values that there are, as long as no thread-local was set up. -/
structure Tracks (tm : TypeMap) (threadLocalInit : ThreadLocalKey → Option (Layout × Value))
    (memory : Memory) (tables : ThreadId → List (ThreadLocalKey × ℕ))
    (task : ThreadId → Decoding Value) (s : System) (code : ThreadId → List ThunkArgs) : Prop where
  acts : ∃ acts, (Config.decoding (.new memory)).run acts = some s.config
  decoded : ∀ t i, (s.process.flows t).decoded[i]? =
    (code t)[i]?.map fun a : ThunkArgs => a.thunk t i
  fresh : ∀ t, s.process.nextThreadid ≤ t → s.task t = task t
  issues : (∀ e ∈ s.process.log, e.id ≠ none) → s.threadLocals = tables ∧
    ∀ t, (deferral tm threadLocalInit t).Issues (Thunk.tryGet s.process)
      (Fixed tm threadLocalInit tables s.process.nextThreadid t) 0 (task t) (code t) (s.task t)

theorem tracks_new : Tracks tm threadLocalInit memory tables task (new memory tables task)
    fun _ => [] where
  acts := ⟨[], rfl⟩
  decoded _ _ := rfl
  fresh _ _ := rfl
  issues _ := ⟨rfl, fun _ => .nil⟩

section Steps

variable (h : Tracks tm threadLocalInit memory tables task s code)

include h

theorem Tracks.good : s.config.Good (fun _ _ => True) fun _ => True := by
  obtain ⟨acts, hrun⟩ := h.acts
  exact invariant_true.run (Config.good_new trivial) hrun fun _ _ => trivial

omit h in
theorem process_eq (hc : s.config = .decoding p) : s.process = p := by
  rw [process, hc]
  rfl

theorem Tracks.decoded_eq (t : ThreadId) :
    (s.process.flows t).decoded = (code t).mapIdx fun i a => a.thunk t i := by
  refine List.ext_getElem? fun i => ?_
  rw [h.decoded, List.getElem?_mapIdx]

theorem Tracks.length (t : ThreadId) : (s.process.flows t).decoded.length = (code t).length := by
  rw [h.decoded_eq, List.length_mapIdx]

theorem Tracks.decoded_eq_nil (ht : s.process.nextThreadid ≤ t) :
    (s.process.flows t).decoded = [] := by
  have hwf : s.process.WF := h.good.wf
  rw [hwf.fresh ht]
  rfl

theorem Tracks.code_eq_nil (ht : s.process.nextThreadid ≤ t) : code t = [] := by
  have hlen := h.length t
  rw [h.decoded_eq_nil ht] at hlen
  exact List.length_eq_zero_iff.mp hlen.symm

/-- What the tasks have issued stays so, whatever the process does. -/
theorem Tracks.issues_mono {q : Process} (hext : s.process.Extends q)
    (hlog : s.process.log <+: q.log) (hn : s.process.nextThreadid ≤ q.nextThreadid)
    (hq : ∀ e ∈ q.log, e.id ≠ none) : s.threadLocals = tables ∧
      ∀ t, (deferral tm threadLocalInit t).Issues (Thunk.tryGet q)
        (Fixed tm threadLocalInit tables q.nextThreadid t) 0 (task t) (code t) (s.task t) := by
  obtain ⟨htables, hissues⟩ := h.issues fun e he => hq e (hlog.subset he)
  refine ⟨htables, fun t => (hissues t).mono (fun d v hv => hext.tryGet hv) ?_⟩
  exact fun e v he => he.mono hn

omit h in
/-- The task of thread `t` issues `l` and goes on as `m`. -/
theorem issues_update {output : Thunk → Option Value} {instants : ThreadId → CExpr → Value → Prop}
    (hissues : ∀ u, (deferral tm threadLocalInit u).Issues output (instants u) 0 (task u) (code u)
      (s.task u)) {l : List ThunkArgs} {m : Decoding Value}
    (hm : (deferral tm threadLocalInit t).Issues output (instants t) (code t).length (s.task t) l m)
    (u : ThreadId) : (deferral tm threadLocalInit u).Issues output (instants u) 0 (task u)
      (Function.update code t (code t ++ l) u) (Function.update s.task t m u) := by
  by_cases hu : u = t
  · subst hu
    rw [Function.update_self, Function.update_self]
    refine (hissues u).trans ?_
    rwa [Nat.zero_add]
  · rw [Function.update_of_ne hu, Function.update_of_ne hu]
    exact hissues u

theorem Tracks.act {a : Action} {config : Config} (ha : s.config.act a = some config)
    (hd : ∀ t, (config.process.flows t).decoded = (s.process.flows t).decoded)
    (hn : s.process.nextThreadid ≤ config.process.nextThreadid) :
    Tracks tm threadLocalInit memory tables task { s with config } code := by
  have hext : s.process.Extends config.process := ((invariant_extends s.process).act
    ⟨h.good.wf, .refl _, h.good.offered⟩ ha fun _ _ => trivial).inv
  have hlog : s.process.log <+: config.process.log := ((invariant_log s.process).act
    ⟨h.good.wf, List.prefix_rfl, h.good.offered⟩ ha fun _ _ => trivial).inv
  obtain ⟨acts, hrun⟩ := h.acts
  refine ⟨⟨acts ++ [a], ?_⟩, fun t i => ?_, fun t ht => h.fresh t (hn.trans ht), ?_⟩
  · rw [Config.run_append hrun, Config.run, ha]
    rfl
  · show (config.process.flows t).decoded[i]? = _
    rw [hd, h.decoded]
  · exact h.issues_mono hext hlog hn

theorem Tracks.issue (hc : s.config = .decoding p) (hlt : t < p.nextThreadid) {a : ThunkArgs}
    {k : Thunk → Decoding Value} (ht : s.task t = .perform (.issue a) k) {d : Thunk} {p' : Process}
    (ha : p.thunkImpl t a.address a.atomicity a.deps a.compute = some (d, p')) :
    Tracks tm threadLocalInit memory tables task
      { s with config := .decoding p', task := Function.update s.task t (k d) }
      (Function.update code t (code t ++ [a])) := by
  have hdecode : p.decode (a.decode t) = some p' := by
    rw [ThunkArgs.decode, Process.decode, ha]
    rfl
  obtain ⟨hmem, hp'⟩ := decode_eq_some hdecode
  have hproc : s.process = p := process_eq hc
  have hseq : (p.flows t).seq = (code t).length := by
    rw [← h.length t, hproc]
    rfl
  have hd : d = .cell t (code t).length := by
    rw [Process.thunkImpl] at ha
    split_ifs at ha
    rw [← hseq, ← (Prod.mk.inj (Option.some.inj ha)).1]
  have hext : s.process.Extends p' := by
    rw [hproc, hp']
    exact (Process.decoded_push hmem a).extends (hproc ▸ h.good.wf)
  obtain ⟨acts, hrun⟩ := h.acts
  refine ⟨⟨acts ++ [.decode (a.decode t)], ?_⟩, fun u i => ?_, fun u hu => ?_, fun hq => ?_⟩
  · rw [Config.run_append hrun, Config.run, hc, Config.act, hdecode]
    rfl
  · by_cases hu : u = t
    · subst hu
      have hflow : (p'.flows u).decoded = (p.flows u).decoded ++ [a.thunk u (code u).length] := by
        rw [hp', Process.flows_modify_self, hseq]
        rfl
      show (p'.flows u).decoded[i]? = _
      rw [hflow, ← hproc, h.decoded_eq, Function.update_self, ← List.mapIdx_concat,
        List.getElem?_mapIdx]
    · show (p'.flows u).decoded[i]? = _
      rw [hp', Process.flows_modify_of_ne _ hu, Function.update_of_ne hu, ← hproc, h.decoded]
  · have hnext : p.nextThreadid ≤ u := by
      rw [hp'] at hu
      exact hu
    show Function.update s.task t (k d) u = task u
    rw [Function.update_of_ne (hlt.trans_le hnext).ne']
    exact h.fresh u (hproc ▸ hnext)
  · have hlog : s.process.log <+: p'.log := by
      rw [hproc, hp']
      exact List.prefix_rfl
    have hn : s.process.nextThreadid ≤ p'.nextThreadid := by
      rw [hproc, hp']
      exact le_rfl
    obtain ⟨htables, hmono⟩ := h.issues_mono hext hlog hn hq
    refine ⟨htables, issues_update hmono ?_⟩
    rw [ht, hd]
    exact .issue .nil

/-- A task goes on without an operation. -/
theorem Tracks.update (hlt : t < s.process.nextThreadid) {m : Decoding Value}
    (hm : s.threadLocals = tables → (deferral tm threadLocalInit t).Issues (Thunk.tryGet s.process)
      (Fixed tm threadLocalInit tables s.process.nextThreadid t) (code t).length (s.task t) [] m) :
    Tracks tm threadLocalInit memory tables task
      { s with task := Function.update s.task t m } code := by
  refine ⟨h.acts, h.decoded, fun u hu => ?_, fun hq => ?_⟩
  · show Function.update s.task t m u = task u
    rw [Function.update_of_ne (hlt.trans_le hu).ne']
    exact h.fresh u hu
  · obtain ⟨htables, hissues⟩ := h.issues hq
    have hupdate := issues_update hissues (hm htables)
    rw [List.append_nil, Function.update_eq_self] at hupdate
    exact ⟨htables, hupdate⟩

theorem Tracks.await (hlt : t < s.process.nextThreadid) {d : Thunk} {v : Value}
    {k : Value → Decoding Value} (ht : s.task t = .perform (.await d) k)
    (hv : d.tryGet s.process = some v) :
    Tracks tm threadLocalInit memory tables task
      { s with task := Function.update s.task t (k v) } code := by
  refine h.update hlt fun _ => ?_
  rw [ht]
  exact .await hv .nil

theorem Tracks.instant (hc : s.config = .decoding p) (hlt : t < p.nextThreadid) {e : CExpr}
    {k : Value → Decoding Value} (ht : s.task t = .perform (.instant e) k) {v : Value}
    {locals : Locals}
    (he : e.evaluate tm threadLocalInit t ⟨p, s.threadLocals⟩ = some (v, locals)) :
    Tracks tm threadLocalInit memory tables task
      ⟨.decoding locals.process, locals.threadLocals, Function.update s.task t (k v)⟩ code := by
  have hproc : s.process = p := process_eq hc
  obtain ⟨inits, hsetUp, hfixed⟩ := setsUp_evaluate threadLocalInit tm e _ _ _ he
  obtain ⟨hflows, hnext⟩ := flows_setUp hsetUp
  obtain ⟨acts, hrun⟩ := h.acts
  refine ⟨⟨acts ++ (inits.map fun i => Decode.threadLocal t i.1 i.2).map .decode, ?_⟩,
    fun u i => ?_, fun u hu => ?_, fun hq => ?_⟩
  · rw [Config.run_append hrun, hc]
    exact run_decodes hsetUp
  · show (locals.process.flows u).decoded[i]? = _
    rw [hflows, ← h.decoded, hproc]
  · have hle : p.nextThreadid ≤ u := hnext ▸ hu
    show Function.update s.task t (k v) u = task u
    rw [Function.update_of_ne (hlt.trans_le hle).ne']
    exact h.fresh u (hproc ▸ hle)
  · -- nothing was set up, or the trace would show it
    obtain ⟨rfl, hfix⟩ := hfixed (eq_nil_of_setUp hsetUp hq)
    have hstep := h.update (t := t) (m := k v) (hproc ▸ hlt) fun htables => by
      rw [ht]
      refine .instant ⟨hproc ▸ hlt, fun r hr => hfix r ?_⟩ .nil
      rw [hr, ← htables]
    have hissues := hstep.issues (hproc ▸ hq)
    rw [show System.process { s with task := Function.update s.task t (k v) } = p from hproc]
      at hissues
    exact hissues

theorem Tracks.step {a : SystemAction} (ha : s.act tm threadLocalInit a = some s') :
    ∃ code', Tracks tm threadLocalInit memory tables task s' code' := by
  have hself : ∀ {b : Action} {config : Config}, (∀ d, b ≠ .decode d) →
      s.config.act b = some config →
      Tracks tm threadLocalInit memory tables task { s with config } code := fun hb hc =>
    h.act hc (passed_of_act hc hb).decoded (passed_of_act hc hb).nextThreadid.ge
  cases a with
  | addThread =>
    obtain ⟨config, hc, rfl⟩ := Option.map_eq_some_iff.mp ha
    refine ⟨code, ?_⟩
    cases hs : s.config with
    | offering p r =>
      rw [hs] at hc
      cases hc
    | decoding p =>
      have hp : s.process = p := process_eq hs
      rw [hs] at hc
      cases hc
      refine h.act (a := .decode .addThread) (by rw [hs]; rfl) (fun t => ?_)
        (hp ▸ Nat.le_succ p.nextThreadid)
      show (p.addThread.flows t).decoded = _
      rw [Process.flows_addThread (hp ▸ h.good.wf), hp]
  | pass =>
    obtain ⟨config, hc, rfl⟩ := Option.map_eq_some_iff.mp ha
    exact ⟨code, hself (by simp) hc⟩
  | choose n =>
    obtain ⟨config, hc, rfl⟩ := Option.map_eq_some_iff.mp ha
    exact ⟨code, hself (by simp) hc⟩
  | poll t =>
    cases hs : s.config with
    | offering p r =>
      rw [System.act, hs] at ha
      cases ha
    | decoding p =>
      have hp : s.process = p := process_eq hs
      rw [System.act, hs] at ha
      dsimp only at ha
      split_ifs at ha with hlt
      rw [poll] at ha
      cases ht : s.task t with
      | fail | raise e =>
        rw [ht] at ha
        cases ha
      | ret v =>
        rw [ht] at ha
        dsimp only at ha
        split_ifs at ha
        obtain ⟨p', hj, rfl⟩ := Option.map_eq_some_iff.mp ha
        rw [Process.join] at hj
        split_ifs at hj
        cases hj
        refine ⟨code, h.act (a := .decode (.join t)) ?_ (fun u => ?_) (hp ▸ le_refl p.nextThreadid)⟩
        · rw [hs, Config.act, Process.decode, Process.join, if_pos ‹_›]
          rfl
        · rw [hp]
          exact Process.proj_modify p t u DataFlow.decoded (fun f => { f with joined := true })
            fun _ => rfl
      | perform i k =>
        rw [ht] at ha
        cases i with
        | issue a =>
          dsimp only at ha
          split_ifs at ha with hlen
          · obtain ⟨⟨d, p'⟩, hi, rfl⟩ := Option.map_eq_some_iff.mp ha
            exact ⟨_, h.issue hs hlt ht hi⟩
          · cases ha
            exact ⟨code, h⟩
        | await d =>
          obtain ⟨value, hv, rfl⟩ := Option.map_eq_some_iff.mp ha
          rw [Thunk.poll] at hv
          split_ifs at hv
          cases value with
          | none => exact ⟨code, h⟩
          | some v => exact ⟨code, h.await (hp ▸ hlt) ht (hp ▸ Option.some.inj hv)⟩
        | instant e =>
          obtain ⟨⟨v, locals⟩, he, rfl⟩ := Option.map_eq_some_iff.mp ha
          exact ⟨code, h.instant hs hlt ht he⟩

end Steps

theorem Tracks.run (h : Tracks tm threadLocalInit memory tables task s code)
    {acts : List SystemAction} (hr : s.run tm threadLocalInit acts = some s') :
    ∃ code', Tracks tm threadLocalInit memory tables task s' code' := by
  induction acts generalizing s code with
  | nil =>
    cases hr
    exact ⟨code, h⟩
  | cons a acts ih =>
    obtain ⟨s₁, ha, hr⟩ := Option.bind_eq_some_iff.mp hr
    obtain ⟨code₁, h₁⟩ := h.step ha
    exact ih h₁ hr

theorem value_ne_none {p : Process} (hp : p.WF) (hu : p.unresolved t = []) {i : ℕ}
    (hi : i < (p.flows t).decoded.length) : p.value t i ≠ none := by
  intro hn
  have hc := List.getElem?_eq_getElem hi
  have hmem := Process.mem_unresolved.mpr ⟨hp.unresolved hc hn, (hp.numbered hc).2.symm ▸ hn⟩
  rw [hu] at hmem
  cases hmem

variable {r : ThreadId → Execution Value}

section Values

variable (h : Tracks tm threadLocalInit memory tables task s code)

include h

theorem Tracks.recorded : Recorded memory s.process := by
  obtain ⟨acts, hrun⟩ := h.acts
  exact ((invariant_recorded memory).run (Config.good_new (recorded_new memory)) hrun
    fun _ _ => trivial).inv

theorem Tracks.exists_values (hu : s.process.unresolved t = []) :
    ∃ values : List Value, values.length = (code t).length ∧
      ∀ i, values[i]? = s.process.value t i := by
  refine exists_list_of_getElem? (fun i hi => ?_) fun i hi => ?_
  · exact value_ne_none h.good.wf hu ((h.length t).symm ▸ hi)
  · by_contra hne
    obtain ⟨v, hv⟩ := Option.ne_none_iff_exists'.mp hne
    exact absurd (h.good.wf.decoded_of_value hv) (Nat.not_lt.mpr (h.length t ▸ hi))

omit h in
theorem tryGet_of_valueIn {p : Process} {values : List Value}
    (hv : ∀ i, values[i]? = p.value t i) {d : Thunk} {v : Value} (hd : Denotes t values d v) :
    d.tryGet p = some v := by
  cases d with
  | constant w => exact hd
  | cell u i =>
    rw [Denotes, Thunk.valueIn, Option.ite_none_right_eq_some, hv] at hd
    exact hd.1 ▸ hd.2

theorem Tracks.call {values : List Value} (hv : ∀ i, values[i]? = s.process.value t i) {i : ℕ}
    {a : ThunkArgs} (ha : (code t)[i]? = some a) (hi : i < values.length)
    (hknown : (deferral tm threadLocalInit t).Known (values.take i) a) : ∃ v l l',
      values[i]? = some v ∧
      (deferral tm threadLocalInit t).call (values.take i) a l = some (v, l') := by
  have hval := List.getElem?_eq_getElem hi
  rw [hv] at hval
  obtain ⟨m, m', he⟩ := h.good.wf.logged.mp hval
  obtain ⟨c, args, hc, hargs, hcomp⟩ := h.recorded.sound t i _ m m' he
  rw [h.decoded, ha] at hc
  cases hc
  have hdeps : ∀ d ∈ a.deps, Thunk.valueIn t (values.take i) d = d.tryGet s.process := by
    intro d hd
    obtain ⟨w, hw⟩ := hknown d (List.mem_append_left _ hd)
    rw [hw, tryGet_of_valueIn hv (hw.mono (List.take_prefix i values))]
  refine ⟨_, ⟨.new m, fun _ => []⟩, ⟨.new m', fun _ => []⟩, hv i ▸ hval, ?_⟩
  show (a.deps.mapM (Thunk.valueIn t (values.take i))).bind _ = _
  rw [mapM_congr hdeps, show a.deps.mapM _ = some args from hargs]
  show (a.compute m args).map _ = _
  rw [show a.compute m args = _ from hcomp]
  rfl

theorem Tracks.depsEarlier
    (hr : ∀ t, (deferral tm threadLocalInit t).Realizes (fun _ v v' => v = v') [] (task t) (r t))
    (hl : ∀ e ∈ s.process.log, e.id ≠ none) (hu : ∀ t, s.process.unresolved t = []) :
    s.process.DepsEarlier := by
  intro t _ c hc d hd
  obtain ⟨i, hi⟩ := List.mem_iff_getElem?.mp hc
  rw [h.decoded] at hi
  obtain ⟨a, ha, rfl⟩ := Option.map_eq_some_iff.mp hi
  obtain ⟨values, hlen, hv⟩ := h.exists_values (hu t)
  have hknown : (deferral tm threadLocalInit t).Known
      (values.take (([] : List Value).length + i)) a := by
    refine Deferral.Issues.known (I := fun l => l.threadLocals = tables ∧ t ∈ l.process.threads)
      (fun e v he l hl => he.2 l hl.1 hl.2) ((h.issues hl).2 t) (hr t) List.nil_prefix
      (fun d v hd => tryGet_of_valueIn hv hd) ?_ ha
    intro j b hb hknown
    rw [List.length_nil, Nat.zero_add] at hknown ⊢
    have hj := (List.getElem?_eq_some_iff.mp hb).1
    exact h.call hv hb (hlen ▸ hj) hknown
  obtain ⟨v, hd'⟩ := hknown d hd
  cases d with
  | constant w => trivial
  | cell u j =>
    have hd' := Option.ite_none_right_eq_some.mp hd'
    have hj := (List.getElem?_eq_some_iff.mp hd'.2).1
    rw [List.length_take, List.length_nil, Nat.zero_add] at hj
    exact ⟨hd'.1, lt_of_lt_of_le hj (Nat.min_le_left _ _)⟩

end Values

theorem exists_prog (h : ∀ t, ∀ a ∈ code t, IsOp a) :
    ∃ prog : ThreadId → List Op, ∀ t, (prog t).map Op.args = code t := by
  have hex : ∀ t, ∃ l : List Op, l.map Op.args = code t := by
    intro t
    show code t ∈ Set.range (List.map Op.args)
    rw [Set.range_list_map]
    exact h t
  choose prog hprog using hex
  exact ⟨prog, hprog⟩

/-- The final state of a run is that of some turns of the references: everything is resolved, no
thread-local was set up, allocations with operands to wait for have kept their places, and the
accesses are synchronized, or are all acquire. -/
structure Settled (p : Process) : Prop where
  resolved : ∀ t, p.unresolved t = []
  locals : ∀ e ∈ p.log, e.id ≠ none
  allocates : p.AllocatesInOrder
  synchronized : (∃ S, p.Synchronized S ∧ p.KeepsBarriers S) ∨ p.AllAcquire

theorem Tracks.completes (h : Tracks tm threadLocalInit memory tables task s code)
    (hr : ∀ t, (deferral tm threadLocalInit t).Realizes (fun _ v v' => v = v') [] (task t) (r t))
    (hs : Settled s.process) {prog : ThreadId → List Op}
    (hprog : ∀ t, (prog t).map Op.args = code t) : s.process.Completes Op.args prog := by
  refine ⟨fun t i => ?_, fun t i hi => ?_, h.depsEarlier hr hs.locals hs.resolved, hs.locals⟩
  · rw [h.decoded, ← hprog, List.getElem?_map, Option.map_map]
    rfl
  · refine value_ne_none h.good.wf (hs.resolved t) ?_
    show i < (s.process.flows t).decoded.length
    rwa [h.length t, ← hprog, List.length_map]

/-- A run that settles takes turns as some turns of the references do. -/
theorem Tracks.exists_turns {locals : Locals}
    (h : Tracks tm threadLocalInit locals.memory locals.threadLocals task s code)
    (hop : ∀ t, (task t).Only IsOp)
    (hr : ∀ t, (deferral tm threadLocalInit t).Realizes (fun _ v v' => v = v') [] (task t) (r t))
    (hs : Settled s.process)
    (halive : ∀ t < s.process.nextThreadid, t ∈ locals.process.threads) :
    ∃ turns r', Effects.run (r, locals) turns = some (r', locals.setMemory s.process.memory) ∧
      ∀ t e, (s.task t).ended = some e → (r' t).ended = some e := by
  obtain ⟨prog, hprog⟩ := exists_prog fun t => ((h.issues hs.locals).2 t).only (hop t)
  obtain ⟨acts, hacts⟩ := h.acts
  obtain ⟨schedule, st, hrun, hshared, hv⟩ :=
    exists_interleaved hacts (h.completes hr hs hprog) hs.synchronized hs.allocates
  have hcode : (fun t => (prog t).map Op.args) = code := funext hprog
  have hrun' : Interleave.run (fun t => (deferral tm threadLocalInit t).call) code
      ⟨fun _ => [], locals⟩ schedule = some ⟨st.values, locals.setMemory st.shared⟩ := by
    rw [← hcode, Interleave.run_map]
    refine Interleave.run_embed (f := locals.setMemory) (fun t vals a m => ?_) hrun
    show (a.args.deps.mapM (Thunk.valueIn t vals)).bind (fun args => _) =
      ((a.args.deps.mapM (Thunk.valueIn t vals)).bind (a.args.compute m)).map _
    cases a.args.deps.mapM (Thunk.valueIn t vals) with
    | none => rfl
    | some args => rfl
  have hvlen : ∀ t, (st.values t).length = (code t).length := by
    intro t
    obtain ⟨values, hvlen, hval⟩ := h.exists_values (hs.resolved t)
    rw [List.ext_getElem? fun i => (hv t i).trans (hval i).symm]
    exact hvlen
  have hkept : ∀ t vals a l v l', (l.threadLocals = locals.threadLocals ∧
      ∀ t < s.process.nextThreadid, t ∈ l.process.threads) →
      (deferral tm threadLocalInit t).call vals a l = some (v, l') →
      l'.threadLocals = locals.threadLocals ∧
        ∀ t < s.process.nextThreadid, t ∈ l'.process.threads := by
    intro t vals a l v l' hl hcall
    obtain ⟨args, -, hcall⟩ := Option.bind_eq_some_iff.mp hcall
    obtain ⟨e, -, hcall⟩ := Option.map_eq_some_iff.mp hcall
    cases hcall
    exact hl
  have hfresh : ∀ t ∉ List.range s.process.nextThreadid, code t = [] ∧
      (deferral tm threadLocalInit t).Realizes (fun _ v v' => v = v') (st.values t) (s.task t)
        (r t) := by
    intro t ht
    have hle : s.process.nextThreadid ≤ t := Nat.not_lt.mp fun hlt => ht (List.mem_range.mpr hlt)
    have hnil : code t = [] := h.code_eq_nil hle
    have hvals : st.values t = [] := by
      rw [← List.length_eq_zero_iff, hvlen, hnil, List.length_nil]
    refine ⟨hnil, ?_⟩
    rw [h.fresh t hle, hvals]
    exact hr t
  obtain ⟨turns, r', hturns, hreal⟩ := Deferral.exists_turns hrun' hvlen
    (fun t e v he l hl => he.2 l hl.1 (hl.2 t he.1)) hkept ⟨rfl, halive⟩
    (fun t d v hd => tryGet_of_valueIn (hv t) hd) (h.issues hs.locals).2 hr hfresh
  exact ⟨turns, r', hshared ▸ hturns, fun t e he => (hreal t).ended he⟩

theorem Tracks.settled (h : Tracks tm threadLocalInit memory tables task s code) {n : ℕ}
    (hnext : s.process.nextThreadid = n) (hl : ∀ e ∈ s.process.log, e.id ≠ none)
    (hall : ∀ t < n, (s.process.unresolved t).isEmpty ∧ ∀ c ∈ (s.process.flows t).decoded,
      (c.isMemory → c.atomicity.isAcquire) ∧ (c.isMemory ∨ c.Constant ∨ s.process.LeavesHeap c)) :
    Settled s.process := by
  have hwf : s.process.WF := h.good.wf
  have hlt : ∀ {t c}, c ∈ (s.process.flows t).decoded → t < n :=
    fun hc => lt_of_mem_decoded hwf hnext hc
  refine ⟨fun t => ?_, hl, ?_, .inr fun t c hc => ((hall t (hlt hc)).2 c hc).1⟩
  · rcases Nat.lt_or_ge t n with ht | ht
    · exact List.isEmpty_iff.mp (hall t ht).1
    · have hsub := hwf.sublist t
      rw [h.decoded_eq_nil (hnext.trans_le ht)] at hsub
      rw [Process.unresolved, List.sublist_nil.mp hsub]
      rfl
  · refine Process.allocatesInOrder_of_constant fun t c hc hal => ?_
    rcases ((hall t (hlt hc)).2 c hc).2 with hm | hconst | hleaves
    · rw [hal.isMemory] at hm
      cases hm
    · exact hconst
    · exact absurd hal hleaves.not_allocates

end Tracks
end System

section Program

variable {tm : TypeMap} {threadLocalInit : ThreadLocalKey → Option (Layout × Value)}
variable {functions : ℕ → Option Callee} {definitions : ℕ → Option Func}
variable {locals : Locals} {acts : List SystemAction} {s : System}

/-- Threads that run compiled functions. If the accesses of the run are synchronized, or are all
acquire, acq-rel or seq-cst, then the functions of the source program, run in some turns, leave the
same memory, and each that has ended in the run has ended there with the same result. -/
theorem run_exists_turns
    (hl : ∀ address, Option.Rel (Linked tm) (functions address) (definitions address))
    (hs : ∀ address, ∀ callee ∈ functions address, callee.Static) (n : ℕ) (main : ThreadId → ℕ)
    (params : ThreadId → List Value)
    (hrun : (System.new locals.memory locals.threadLocals fun t =>
      control tm definitions n (main t) (params t)).run tm threadLocalInit acts = some s)
    (hsettled : System.Settled s.process)
    (halive : ∀ t < s.process.nextThreadid, t ∈ locals.process.threads) :
    ∃ turns r, Effects.run
        (fun t => Ssa.call threadLocalInit t functions n (main t) (params t), locals) turns =
          some (r, locals.setMemory s.process.memory) ∧
      ∀ t e, (s.task t).ended = some e → (r t).ended = some e := by
  obtain ⟨code, h⟩ := System.tracks_new.run hrun
  exact h.exists_turns (fun t => only_control hl hs n (main t) (params t))
    (fun t => realizes_control hl n (main t) (params t)) hsettled halive

/-- Two workers whose additions alternate. -/
theorem run_exists_turns_counter : ∃ s : System, ∃ turns r,
    let locals : Locals := ⟨{ Process.new .new with threads := [0, 1] }, fun _ => []⟩
    s.process.trace.filter (fun x => x.2 ∈ [5, 8]) = [(1, 5), (0, 5), (1, 8), (0, 8)] ∧
    Effects.run (fun t => Ssa.call (fun _ => none) t Counter.functions 9 512 [.new 64 64], locals)
      turns = some (r, locals.setMemory s.process.memory) ∧
    (r 0).ended = some (some (.ok (.new 32 15))) ∧ (r 1).ended = some (some (.ok (.new 32 10))) := by
  let locals : Locals := ⟨{ Process.new .new with threads := [0, 1] }, fun _ => []⟩
  let polls (n : ℕ) (t : ThreadId) : List SystemAction := .replicate n (.poll t)
  let turn (n : ℕ) : List SystemAction := [.choose n, .pass]
  let acts : List SystemAction := [.addThread, .addThread] ++ polls 8 0 ++ polls 8 1 ++
    [.pass, .pass] ++ turn 1 ++ turn 0 ++ turn 1 ++ turn 0 ++ turn 1 ++ polls 6 1 ++ [.pass] ++
    turn 0 ++ polls 6 0 ++ [.pass] ++ turn 1 ++ turn 0 ++ turn 1 ++ polls 2 1 ++ [.pass] ++
    turn 0 ++ polls 2 0
  have hrun : ∃ s ∈ (System.new locals.memory locals.threadLocals fun _ =>
      control Counter.compiler.tm Counter.definitions 9 512 [.new 64 64]).run Counter.compiler.tm
        (fun _ => none) acts,
      s.process.trace.filter (fun x => x.2 ∈ [5, 8]) = [(1, 5), (0, 5), (1, 8), (0, 8)] ∧
      s.process.nextThreadid = 2 ∧ (∀ e ∈ s.process.log, e.id ≠ none) ∧
      (∀ t < 2, (s.process.unresolved t).isEmpty ∧ ∀ c ∈ (s.process.flows t).decoded,
        (c.isMemory → c.atomicity.isAcquire) ∧
          (c.isMemory ∨ c.Constant ∨ s.process.LeavesHeap c)) ∧
      (s.task 0).ended = some (some (.ok (.new 32 15))) ∧
      (s.task 1).ended = some (some (.ok (.new 32 10))) := by decide +kernel
  obtain ⟨s, hs, htrace, hnext, hl, hall, h0, h1⟩ := hrun
  obtain ⟨code, htracks⟩ := System.tracks_new.run hs
  have halive : ∀ t < s.process.nextThreadid, t ∈ locals.process.threads := by
    rw [hnext]
    decide
  obtain ⟨turns, r, hrun, hr⟩ := run_exists_turns Counter.linked Counter.static 9
    (fun _ => 512) (fun _ => [.new 64 64]) hs (htracks.settled hnext hl hall) halive
  exact ⟨s, turns, r, htrace, hrun, hr 0 _ h0, hr 1 _ h1⟩

end Program

end Ir
end AtomicSim
