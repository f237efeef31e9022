import Mathlib.Data.Finmap
import Mathlib.Logic.Relation

namespace AtomicSim

/-- What is left of a future: it returns, suspends on an outside event, or spawns a child and
awaits it. -/
inductive FutureTree (α : Type*) where
  | ret (v : α)
  | suspend (next : FutureTree α)
  | spawn (child : FutureTree α) (k : α → FutureTree α)

variable {α : Type*}

/-- Direct recursion. -/
def FutureTree.eval : FutureTree α → α
  | ret v => v
  | suspend next => next.eval
  | spawn child k => (k child.eval).eval

abbrev FramePtr := ℕ

/-- The future of a frame between two polls: it goes on, or it is at the `FrameWaiter` of a
child. -/
inductive FrameFuture (α : Type*) where
  | run (next : FutureTree α)
  | wait (ptr : FramePtr) (k : α → FutureTree α)

/-- A frame, with the frame that spawned it and the future it was spawned with. -/
structure Frame (α : Type*) where
  output : Option α
  future : FrameFuture α
  parent : Option FramePtr
  tree : FutureTree α

/-- Where a new box is put: anywhere but at the address of a live one. -/
structure BoxAlloc where
  fresh : Finset FramePtr → FramePtr
  fresh_notMem : ∀ live, fresh live ∉ live

theorem BoxAlloc.lookup_fresh (box : BoxAlloc) (frames : Finmap fun _ : FramePtr => Frame α) :
    frames.lookup (box.fresh frames.keys) = none := by
  rw [Finmap.lookup_eq_none, ← Finmap.mem_keys]
  exact box.fresh_notMem _

/-- The stack, with its top first, and the boxes of the frames. -/
structure Recursor (α : Type*) where
  frames : Finmap fun _ : FramePtr => Frame α
  stack : List FramePtr

inductive Poll where
  | ready
  | pending
  deriving DecidableEq, Repr

/-- What polling the future of a frame gives. -/
inductive FramePoll (α : Type*) where
  | ready (output : α)
  | pending (future : FrameFuture α)

namespace Recursor

def new : Recursor α := ⟨∅, []⟩

variable (box : BoxAlloc)

def spawn (r : Recursor α) (parent : Option FramePtr) (fut : FutureTree α) :
    FramePtr × Recursor α :=
  let frame := box.fresh r.frames.keys
  (frame, ⟨r.frames.insert frame ⟨none, .run fut, parent, fut⟩, frame :: r.stack⟩)

/-- `FrameWaiter::poll`: takes the output and frees the box. A box that is gone is a use after
free. -/
def pollWaiter (r : Recursor α) (ptr : FramePtr) : Option (Option α × Recursor α) :=
  (r.frames.lookup ptr).map fun frame =>
    match frame.output with
    | some result => (some result, { r with frames := r.frames.erase ptr })
    | none => (none, r)

end Recursor

variable (box : BoxAlloc)

/-- A future runs up to its next `Pending`; a child is polled for at once. -/
def FutureTree.resume (self : FramePtr) :
    FutureTree α → Recursor α → Option (FramePoll α × Recursor α)
  | ret v, r => some (.ready v, r)
  | suspend next, r => some (.pending (.run next), r)
  | spawn child k, r =>
    let (ptr, r) := r.spawn box self child
    match r.pollWaiter ptr with
    | none => none
    | some (none, r) => some (.pending (.wait ptr k), r)
    | some (some result, r) => (k result).resume self r

def FrameFuture.poll (self : FramePtr) (r : Recursor α) :
    FrameFuture α → Option (FramePoll α × Recursor α)
  | run next => next.resume box self r
  | wait ptr k =>
    match r.pollWaiter ptr with
    | none => none
    | some (none, r) => some (.pending (.wait ptr k), r)
    | some (some result, r) => (k result).resume box self r

namespace Recursor

/-- `Frame::poll`; a frame that has its output fails the assertion. -/
def pollFrame (r : Recursor α) (top : FramePtr) : Option (Poll × Recursor α) := do
  let frame ← r.frames.lookup top
  if frame.output.isSome then none
  else do
    let (result, r) ← frame.future.poll box top r
    match result with
    | .ready output =>
      some (.ready, { r with frames := r.frames.insert top { frame with output := some output } })
    | .pending future =>
      some (.pending, { r with frames := r.frames.insert top { frame with future } })

/-- One turn of the loop of `poll`, with what it returns if it leaves the loop. -/
def turn (r : Recursor α) : Option (Option Poll × Recursor α) :=
  match r.stack with
  | [] => some (some .ready, r)
  | top :: _ => do
    let (result, r) ← r.pollFrame box top
    match result, r.stack with
    | _, [] => none
    | .ready, top₂ :: stack => if top = top₂ then some (none, { r with stack }) else none
    | .pending, top₂ :: _ => if top = top₂ then some (some .pending, r) else some (none, r)

/-- A poll turns until one turn leaves the loop. -/
inductive Polls : Recursor α → Poll → Recursor α → Prop
  | leave {r r' : Recursor α} {p : Poll} : r.turn box = some (some p, r') → Polls r p r'
  | again {r r₁ r' : Recursor α} {p : Poll} : r.turn box = some (none, r₁) → Polls r₁ p r' →
      Polls r p r'

/-- Polling until `Ready`. -/
inductive Repeats : Recursor α → Recursor α → Prop
  | ready {r r' : Recursor α} : Polls box r .ready r' → Repeats r r'
  | pending {r r₁ r' : Recursor α} : Polls box r .pending r₁ → Repeats r₁ r' → Repeats r r'

/-- A turn before the last one. -/
def Turns (r r' : Recursor α) : Prop :=
  ∃ p ≠ some Poll.ready, r.turn box = some (p, r')

abbrev Reaches : Recursor α → Recursor α → Prop := Relation.ReflTransGen (Turns box)

section Turn

variable {box} {r r₀ : Recursor α} {p : FramePtr} {rest : List FramePtr} {f : Frame α}

variable (box r p rest f) in
/-- The frame on top goes on as `t`, with `r₀` left of the recursor once the output that it waits
for is taken. -/
structure At (t : FutureTree α) (r₀ : Recursor α) : Prop where
  stack : r.stack = p :: rest
  frame : r.frames.lookup p = some f
  output : f.output = none
  poll : f.future.poll box p r = t.resume box p r₀
  stack₀ : r₀.stack = p :: rest
  frame₀ : r₀.frames.lookup p = some f

theorem At.pollFrame {t : FutureTree α} (h : At box r p rest f t r₀) :
    r.pollFrame box p = (t.resume box p r₀).bind fun (result, r) =>
      match result with
      | .ready output =>
        some (.ready, { r with frames := r.frames.insert p { f with output := some output } })
      | .pending future =>
        some (.pending, { r with frames := r.frames.insert p { f with future } }) := by
  have houtput : ¬ f.output.isSome := by simp [h.output]
  simp only [Recursor.pollFrame, h.frame, Option.bind_eq_bind, Option.bind_some, if_neg houtput,
    h.poll]

theorem At.turn_ret {v : α} (h : At box r p rest f (.ret v) r₀) :
    r.turn box =
      some (none, ⟨r₀.frames.insert p { f with output := some v }, rest⟩) := by
  simp [turn, h.stack, h.pollFrame, FutureTree.resume, h.stack₀]

theorem At.turn_suspend {t : FutureTree α} (h : At box r p rest f (.suspend t) r₀) :
    r.turn box =
      some (some .pending, ⟨r₀.frames.insert p { f with future := .run t }, p :: rest⟩) := by
  simp [turn, h.stack, h.pollFrame, FutureTree.resume, h.stack₀]

theorem At.fresh_ne {t : FutureTree α} (h : At box r p rest f t r₀) :
    box.fresh r₀.frames.keys ≠ p := by
  intro heq
  apply box.fresh_notMem r₀.frames.keys
  rw [heq, Finmap.mem_keys]
  exact Finmap.mem_of_lookup_eq_some h.frame₀

theorem At.turn_spawn {child : FutureTree α} {k : α → FutureTree α}
    (h : At box r p rest f (.spawn child k) r₀) :
    r.turn box = some (none,
      ⟨(r₀.frames.insert (box.fresh r₀.frames.keys) ⟨none, .run child, some p, child⟩).insert p
        { f with future := .wait (box.fresh r₀.frames.keys) k },
        box.fresh r₀.frames.keys :: p :: rest⟩) := by
  have hne := h.fresh_ne.symm
  simp [turn, h.stack, h.pollFrame, FutureTree.resume, spawn, pollWaiter, h.stack₀, hne]

theorem at_run {t : FutureTree α} (hstack : r.stack = p :: rest)
    (hframe : r.frames.lookup p = some f) (houtput : f.output = none)
    (hfuture : f.future = .run t) : At box r p rest f t r :=
  ⟨hstack, hframe, houtput, by rw [hfuture, FrameFuture.poll], hstack, hframe⟩

theorem at_wait {c : FramePtr} {k : α → FutureTree α} {g : Frame α} {v : α}
    (hstack : r.stack = p :: rest) (hframe : r.frames.lookup p = some f)
    (houtput : f.output = none) (hfuture : f.future = .wait c k)
    (hchild : r.frames.lookup c = some g) (hv : g.output = some v) :
    At box r p rest f (k v) { r with frames := r.frames.erase c } := by
  have hne : p ≠ c := by
    rintro rfl
    rw [hframe, Option.some.injEq] at hchild
    simp [← hchild, houtput] at hv
  refine ⟨hstack, hframe, houtput, ?_, hstack, ?_⟩
  · simp only [hfuture, FrameFuture.poll, pollWaiter, hchild, Option.map_some, hv]
  · rw [Finmap.lookup_erase_ne hne, hframe]

/-- The frame on top gets the value of direct recursion and is popped, and the other frames are
as before. -/
theorem At.finishes {t : FutureTree α} (h : At box r p rest f t r₀) :
    ∃ r', Reaches box r r' ∧ r'.stack = rest ∧
      (∃ f', r'.frames.lookup p = some f' ∧ f'.output = some t.eval) ∧
      ∀ q ≠ p, r'.frames.lookup q = r₀.frames.lookup q := by
  induction t generalizing r r₀ p rest f with
  | ret v =>
    refine ⟨_, .single ⟨none, by simp, h.turn_ret⟩, rfl, ⟨_, Finmap.lookup_insert _, rfl⟩, ?_⟩
    exact fun q hq => Finmap.lookup_insert_of_ne _ hq
  | suspend t ih =>
    have hnext : At box ⟨r₀.frames.insert p { f with future := .run t }, p :: rest⟩ p rest
        { f with future := .run t } t _ := at_run rfl (Finmap.lookup_insert _) h.output rfl
    obtain ⟨r', hr', hstack, hp, hother⟩ := ih hnext
    refine ⟨r', .head ⟨_, by simp, h.turn_suspend⟩ hr', hstack, hp, fun q hq => ?_⟩
    rw [hother q hq, Finmap.lookup_insert_of_ne _ hq]
  | spawn child k ihchild ihk =>
    have hturn := h.turn_spawn
    have hne := h.fresh_ne
    have hfresh := box.lookup_fresh r₀.frames
    generalize box.fresh r₀.frames.keys = c at hturn hne hfresh
    -- the child runs to its end, and then the frame is on top again and takes the output
    have hchild : At box ⟨(r₀.frames.insert c ⟨none, .run child, some p, child⟩).insert p
        { f with future := .wait c k }, c :: p :: rest⟩ c (p :: rest)
        ⟨none, .run child, some p, child⟩ child _ :=
      at_run rfl ((Finmap.lookup_insert_of_ne _ hne).trans (Finmap.lookup_insert _)) rfl rfl
    -- nothing but the child's own box has changed when it is finished
    obtain ⟨r₂, hr₂, hstack₂, ⟨g, hg, hgo⟩, hother₂⟩ := ihchild hchild
    have hp₂ : r₂.frames.lookup p = some { f with future := .wait c k } := by
      rw [hother₂ p hne.symm, Finmap.lookup_insert]
    have hwait : At box r₂ p rest { f with future := .wait c k } (k child.eval)
        { r₂ with frames := r₂.frames.erase c } := at_wait hstack₂ hp₂ h.output rfl hg hgo
    obtain ⟨r', hr', hstack', hp', hother'⟩ := ihk child.eval hwait
    refine ⟨r', .head ⟨_, by simp, hturn⟩ (hr₂.trans hr'), hstack', hp', fun q hq => ?_⟩
    rw [hother' q hq]
    by_cases hqc : q = c
    · rw [hqc, Finmap.lookup_erase, hfresh]
    · rw [Finmap.lookup_erase_ne hqc, hother₂ q hqc, Finmap.lookup_insert_of_ne _ hq,
        Finmap.lookup_insert_of_ne _ hqc]

end Turn

variable {frames : Finmap fun _ : FramePtr => Frame α} {p c : FramePtr} {rest stack : List FramePtr}
  {f f' : Frame α}

/-- The next frame on the stack waits for the one above it. -/
def Below (frames : Finmap fun _ : FramePtr => Frame α) (c : FramePtr) : List FramePtr → Prop
  | [] => True
  | p :: _ => ∃ f k g, frames.lookup p = some f ∧ f.future = .wait c k ∧
      frames.lookup c = some g ∧ (k g.tree.eval).eval = f.tree.eval

/-- The frames on the stack are unfinished, and each was spawned by the next. -/
def Linked (frames : Finmap fun _ : FramePtr => Frame α) : List FramePtr → Prop
  | [] => True
  | p :: rest => (∃ f, frames.lookup p = some f ∧ f.output = none ∧ f.parent = rest.head?) ∧
      Below frames p rest ∧ Linked frames rest

/-- What the frame on top goes on as has the value of its tree; a child that it waits for is
finished. -/
def Top (frames : Finmap fun _ : FramePtr => Frame α) : List FramePtr → Prop
  | [] => True
  | p :: _ => ∃ f, frames.lookup p = some f ∧
      ((∃ t, f.future = .run t ∧ t.eval = f.tree.eval) ∨
        ∃ c k g v, f.future = .wait c k ∧ frames.lookup c = some g ∧ g.output = some v ∧
          (k v).eval = f.tree.eval)

structure Stacked (frames : Finmap fun _ : FramePtr => Frame α) (stack : List FramePtr) :
    Prop where
  nodup : stack.Nodup
  linked : Linked frames stack
  unfinished : ∀ p f, frames.lookup p = some f → f.output = none → p ∈ stack
  finished : ∀ p f v, frames.lookup p = some f → f.output = some v → v = f.tree.eval

structure Inv (r : Recursor α) : Prop where
  stacked : Stacked r.frames r.stack
  top : Top r.frames r.stack

theorem Linked.mem (h : Linked frames stack) (hp : p ∈ stack) :
    ∃ f, frames.lookup p = some f ∧ f.output = none := by
  induction stack with
  | nil => cases hp
  | cons q rest ih =>
    obtain ⟨⟨f, hf, ho, -⟩, -, hrest⟩ := h
    rcases List.mem_cons.mp hp with rfl | hp
    · exact ⟨f, hf, ho⟩
    · exact ih hrest hp

theorem Below.congr {frames' : Finmap fun _ : FramePtr => Frame α} (h : Below frames c stack)
    (hp : ∀ p ∈ stack, frames'.lookup p = frames.lookup p)
    (hc : ∀ g, frames.lookup c = some g → ∃ g', frames'.lookup c = some g' ∧ g'.tree = g.tree) :
    Below frames' c stack := by
  cases stack with
  | nil => trivial
  | cons p rest =>
    obtain ⟨f, k, g, hf, hk, hg, heval⟩ := h
    obtain ⟨g', hg', htree⟩ := hc g hg
    exact ⟨f, k, g', by rw [hp p List.mem_cons_self, hf], hk, hg', by rw [htree, heval]⟩

theorem Linked.congr {frames' : Finmap fun _ : FramePtr => Frame α} (h : Linked frames stack)
    (hp : ∀ p ∈ stack, frames'.lookup p = frames.lookup p) : Linked frames' stack := by
  induction stack with
  | nil => trivial
  | cons p rest ih =>
    obtain ⟨⟨f, hf, ho⟩, hbelow, hrest⟩ := h
    rw [List.forall_mem_cons] at hp
    refine ⟨⟨f, hp.1.trans hf, ho⟩, hbelow.congr hp.2 fun g hg => ?_, ih hrest hp.2⟩
    exact ⟨g, hp.1.trans hg, rfl⟩

theorem Linked.parent_mem (h : Linked frames stack) {q : FramePtr} {g : Frame α}
    (hq : q ∈ stack) (hg : frames.lookup q = some g) (hp : g.parent = some p) :
    p ∈ stack.tail := by
  induction stack with
  | nil => cases hq
  | cons x rest ih =>
    obtain ⟨⟨f, hf, -, hparent⟩, -, hrest⟩ := h
    rcases List.mem_cons.mp hq with rfl | hq
    · obtain rfl := Option.some.inj (hf.symm.trans hg)
      exact List.mem_of_mem_head? (hparent.symm.trans hp)
    · exact List.mem_of_mem_tail (ih hrest hq)

theorem Stacked.erase (h : Stacked frames stack) (hc : c ∉ stack) :
    Stacked (frames.erase c) stack := by
  have hlookup : ∀ {q g}, (frames.erase c).lookup q = some g → frames.lookup q = some g := by
    intro q g hg
    by_cases hq : q = c
    · rw [hq, Finmap.lookup_erase] at hg
      cases hg
    · rwa [Finmap.lookup_erase_ne hq] at hg
  refine ⟨h.nodup, h.linked.congr fun q hq => ?_, fun q g hg => h.unfinished q g (hlookup hg),
    fun q g v hg => h.finished q g v (hlookup hg)⟩
  exact Finmap.lookup_erase_ne fun heq => hc (heq ▸ hq)

theorem Stacked.update (h : Stacked frames (p :: rest)) (hf : frames.lookup p = some f)
    (ho : f'.output = none) (hparent : f'.parent = f.parent) (htree : f'.tree = f.tree) :
    Stacked (frames.insert p f') (p :: rest) := by
  have hne : ∀ q ∈ rest, q ≠ p := fun q hq heq => (List.nodup_cons.mp h.nodup).1 (heq ▸ hq)
  have hrest : ∀ q ∈ rest, (frames.insert p f').lookup q = frames.lookup q := fun q hq =>
    Finmap.lookup_insert_of_ne _ (hne q hq)
  obtain ⟨⟨f₀, hf₀, -, hp₀⟩, hbelow, hlinked⟩ := h.linked
  obtain rfl := Option.some.inj (hf₀.symm.trans hf)
  constructor
  · exact h.nodup
  · refine ⟨⟨f', Finmap.lookup_insert _, ho, hparent.trans hp₀⟩, hbelow.congr hrest fun g hg => ?_,
      hlinked.congr hrest⟩
    obtain rfl := Option.some.inj (hf.symm.trans hg)
    exact ⟨f', Finmap.lookup_insert _, htree⟩
  · intro q g hg hgo
    by_cases hq : q = p
    · exact hq ▸ List.mem_cons_self
    · rw [Finmap.lookup_insert_of_ne _ hq] at hg
      exact h.unfinished q g hg hgo
  · intro q g v hg hv
    by_cases hq : q = p
    · rw [hq, Finmap.lookup_insert, Option.some.injEq] at hg
      rw [← hg, ho] at hv
      cases hv
    · rw [Finmap.lookup_insert_of_ne _ hq] at hg
      exact h.finished q g v hg hv

theorem Stacked.pop (h : Stacked frames (p :: rest)) (hf : frames.lookup p = some f) :
    Inv ⟨frames.insert p { f with output := some f.tree.eval }, rest⟩ := by
  obtain ⟨hp, hnodup⟩ := List.nodup_cons.mp h.nodup
  have hne : ∀ q ∈ rest, q ≠ p := fun q hq heq => hp (heq ▸ hq)
  obtain ⟨-, hbelow, hlinked⟩ := h.linked
  -- the new top waits for the frame, which now has its output
  refine ⟨⟨hnodup, hlinked.congr fun q hq => Finmap.lookup_insert_of_ne _ (hne q hq), ?_, ?_⟩, ?_⟩
  · intro q g hg hgo
    by_cases hq : q = p
    · rw [hq, Finmap.lookup_insert, Option.some.injEq] at hg
      rw [← hg] at hgo
      cases hgo
    · rw [Finmap.lookup_insert_of_ne _ hq] at hg
      exact List.mem_of_ne_of_mem hq (h.unfinished q g hg hgo)
  · intro q g v hg hv
    by_cases hq : q = p
    · rw [hq, Finmap.lookup_insert, Option.some.injEq] at hg
      rw [← hg] at hv ⊢
      exact (Option.some.inj hv).symm
    · rw [Finmap.lookup_insert_of_ne _ hq] at hg
      exact h.finished q g v hg hv
  · cases rest with
    | nil => trivial
    | cons q rest =>
      obtain ⟨g, k, f₀, hg, hwait, hf₀, heval⟩ := hbelow
      obtain rfl := Option.some.inj (hf₀.symm.trans hf)
      refine ⟨g, ?_, .inr ⟨p, k, _, _, hwait, Finmap.lookup_insert _, rfl, heval⟩⟩
      exact (Finmap.lookup_insert_of_ne _ (hne q List.mem_cons_self)).trans hg

/-- The frame on top waits for a new one. -/
theorem Stacked.push (h : Stacked frames (p :: rest)) (hf : frames.lookup p = some f)
    {child : FutureTree α} {k : α → FutureTree α} (hwait : f.future = .wait c k)
    (heval : (k child.eval).eval = f.tree.eval) (hc : frames.lookup c = none) :
    Inv ⟨frames.insert c ⟨none, .run child, some p, child⟩, c :: p :: rest⟩ := by
  -- an address that is on the stack is the address of a live box
  have hnotin : c ∉ p :: rest := by
    intro hmem
    obtain ⟨g, hg, -⟩ := h.linked.mem hmem
    cases hc.symm.trans hg
  have hold : ∀ q ∈ p :: rest,
      (frames.insert c ⟨none, .run child, some p, child⟩).lookup q = frames.lookup q :=
    fun q hq => Finmap.lookup_insert_of_ne _ fun heq => hnotin (heq ▸ hq)
  refine ⟨⟨List.nodup_cons.mpr ⟨hnotin, h.nodup⟩, ⟨⟨_, Finmap.lookup_insert _, rfl, rfl⟩,
    ⟨f, k, _, ?_, hwait, Finmap.lookup_insert _, heval⟩, h.linked.congr hold⟩, ?_, ?_⟩,
    ⟨_, Finmap.lookup_insert _, .inl ⟨child, rfl, rfl⟩⟩⟩
  · exact (hold p List.mem_cons_self).trans hf
  · intro q g hg hgo
    by_cases hq : q = c
    · exact hq ▸ List.mem_cons_self
    · rw [Finmap.lookup_insert_of_ne _ hq] at hg
      exact List.mem_cons_of_mem _ (h.unfinished q g hg hgo)
  · intro q g v hg hv
    by_cases hq : q = c
    · rw [hq, Finmap.lookup_insert, Option.some.injEq] at hg
      rw [← hg] at hv
      cases hv
    · rw [Finmap.lookup_insert_of_ne _ hq] at hg
      exact h.finished q g v hg hv

section Step

variable {box} {r r' : Recursor α}

variable (box) in
/-- The frame on top goes on as a future with the value of its tree. -/
theorem Inv.at (h : r.Inv) (hstack : r.stack = p :: rest) :
    ∃ f t r₀, At box r p rest f t r₀ ∧ t.eval = f.tree.eval ∧ Stacked r₀.frames (p :: rest) := by
  have hs := h.stacked
  have htop := h.top
  rw [hstack] at hs htop
  obtain ⟨f, hf, ho⟩ := hs.linked.mem List.mem_cons_self
  obtain ⟨f₀, hf₀, hgo⟩ := htop
  obtain rfl := Option.some.inj (hf₀.symm.trans hf)
  rcases hgo with ⟨t, ht, heval⟩ | ⟨c, k, g, v, hwait, hg, hv, heval⟩
  · exact ⟨f₀, t, r, at_run hstack hf ho ht, heval, hs⟩
  · refine ⟨f₀, k v, _, at_wait hstack hf ho hwait hg hv, heval, hs.erase fun hc => ?_⟩
    obtain ⟨g', hg', hgo⟩ := hs.linked.mem hc
    obtain rfl := Option.some.inj (hg.symm.trans hg')
    cases hv.symm.trans hgo

/-- A frame that is pushed, left on top, or popped. -/
inductive Lifo (stack : List FramePtr) : Option Poll → List FramePtr → Prop
  | push {c : FramePtr} : c ∉ stack → Lifo stack none (c :: stack)
  | suspend {p : FramePtr} {rest : List FramePtr} : stack = p :: rest →
      Lifo stack (some .pending) stack
  | pop {p : FramePtr} {rest : List FramePtr} : stack = p :: rest → Lifo stack none rest

variable (box) in
theorem Inv.turn (h : r.Inv) (hstack : r.stack = p :: rest) :
    ∃ poll r', r.turn box = some (poll, r') ∧ r'.Inv ∧ Lifo r.stack poll r'.stack := by
  obtain ⟨f, t, r₀, hat, heval, hs⟩ := h.at box hstack
  cases t with
  | ret v =>
    obtain rfl : v = f.tree.eval := heval
    exact ⟨_, _, hat.turn_ret, hs.pop hat.frame₀, .pop hstack⟩
  | suspend t =>
    refine ⟨_, _, hat.turn_suspend, ⟨hs.update hat.frame₀ hat.output rfl rfl, ?_⟩, ?_⟩
    · exact ⟨_, Finmap.lookup_insert _, .inl ⟨t, rfl, heval⟩⟩
    · simpa only [hstack] using Lifo.suspend rfl
  | spawn child k =>
    have hturn := hat.turn_spawn
    have hne := hat.fresh_ne
    have hfresh := box.lookup_fresh r₀.frames
    generalize box.fresh r₀.frames.keys = c at hturn hne hfresh
    rw [Finmap.insert_insert_of_ne _ hne] at hturn
    have hupdate : Stacked (r₀.frames.insert p { f with future := .wait c k }) (p :: rest) :=
      hs.update hat.frame₀ hat.output rfl rfl
    have hinv := hupdate.push (Finmap.lookup_insert _) rfl heval
      ((Finmap.lookup_insert_of_ne _ hne).trans hfresh)
    refine ⟨_, _, hturn, hinv, ?_⟩
    rw [hstack]
    exact .push (List.nodup_cons.mp hinv.stacked.nodup).1

theorem Inv.reaches (h : r.Inv) (hr : Reaches box r r') : r'.Inv := by
  induction hr with
  | refl => exact h
  | @tail r₁ r₂ _ hstep ih =>
    obtain ⟨poll, hpoll, hturn⟩ := hstep
    cases hstack : r₁.stack with
    | nil =>
      simp only [Recursor.turn, hstack, Option.some.injEq, Prod.mk.injEq] at hturn
      exact absurd hturn.1.symm hpoll
    | cons p rest =>
      obtain ⟨poll', r₃, hturn', h₃, -⟩ := ih.turn box hstack
      cases hturn.symm.trans hturn'
      exact h₃

theorem Inv.child_finished (h : r.Inv) (hstack : r.stack = p :: rest) {q : FramePtr}
    {g : Frame α} (hg : r.frames.lookup q = some g) (hp : g.parent = some p) :
    g.output = some g.tree.eval := by
  have hs := h.stacked
  rw [hstack] at hs
  cases ho : g.output with
  | none =>
    have hmem := hs.linked.parent_mem (hs.unfinished q g hg ho) hg hp
    exact absurd hmem (List.nodup_cons.mp hs.nodup).1
  | some v => rw [hs.finished q g v hg ho]

/-- Turning to the end is polling until `Ready`. -/
theorem Reaches.repeats {r'' : Recursor α} (hr : Reaches box r r')
    (hend : r'.turn box = some (some .ready, r'')) : Repeats box r r'' := by
  induction hr using Relation.ReflTransGen.head_induction_on with
  | refl => exact .ready (.leave hend)
  | head hstep _ ih =>
    obtain ⟨poll, hpoll, hturn⟩ := hstep
    cases poll with
    | none =>
      cases ih with
      | ready h => exact .ready (.again hturn h)
      | pending h hrest => exact .pending (.again hturn h) hrest
    | some poll =>
      cases poll with
      | ready => exact absurd rfl hpoll
      | pending => exact .pending (.leave hturn) ih

theorem Polls.unique {p q : Poll} {r₁ r₂ : Recursor α} (h : Polls box r p r₁)
    (h' : Polls box r q r₂) : p = q ∧ r₁ = r₂ := by
  induction h with
  | leave hturn =>
    cases h' with
    | leave hturn' =>
      cases hturn.symm.trans hturn'
      exact ⟨rfl, rfl⟩
    | again hturn' _ => cases hturn.symm.trans hturn'
  | again hturn _ ih =>
    cases h' with
    | leave hturn' => cases hturn.symm.trans hturn'
    | again hturn' h' =>
      cases hturn.symm.trans hturn'
      exact ih h'

theorem Repeats.unique {r₁ r₂ : Recursor α} (h : Repeats box r r₁) (h' : Repeats box r r₂) :
    r₁ = r₂ := by
  induction h with
  | ready hpoll =>
    cases h' with
    | ready hpoll' => exact (hpoll.unique hpoll').2
    | pending hpoll' _ => cases (hpoll.unique hpoll').1
  | pending hpoll _ ih =>
    cases h' with
    | ready hpoll' => cases (hpoll.unique hpoll').1
    | pending hpoll' h' =>
      obtain rfl := (hpoll.unique hpoll').2
      exact ih h'

end Step

/-- The recursor with one frame spawned, and the address of the frame. -/
def start (box : BoxAlloc) (tree : FutureTree α) : FramePtr × Recursor α :=
  new.spawn box none tree

theorem inv_start (box : BoxAlloc) (tree : FutureTree α) : (start box tree).2.Inv := by
  have hlookup : ∀ {q g},
      (start box tree).2.frames.lookup q = some g → q = (start box tree).1 ∧
        g = ⟨none, .run tree, none, tree⟩ := by
    intro q g hg
    by_cases hq : q = (start box tree).1
    · subst hq
      exact ⟨rfl, (Option.some.inj ((Finmap.lookup_insert _).symm.trans hg)).symm⟩
    · have hnone : (∅ : Finmap fun _ : FramePtr => Frame α).lookup q = some g :=
        (Finmap.lookup_insert_of_ne _ hq).symm.trans hg
      rw [Finmap.lookup_empty] at hnone
      cases hnone
  have hself : (start box tree).2.frames.lookup (start box tree).1 =
      some ⟨none, .run tree, none, tree⟩ := Finmap.lookup_insert _
  refine ⟨⟨List.nodup_singleton _, ⟨⟨_, hself, rfl, rfl⟩, trivial, trivial⟩, ?_, ?_⟩,
    ⟨_, hself, .inl ⟨tree, rfl, rfl⟩⟩⟩
  · intro q g hg _
    rw [(hlookup hg).1]
    exact List.mem_cons_self
  · intro q g v hg hv
    rw [(hlookup hg).2] at hv
    cases hv

/-- Polling until `Ready` ends, with the stack empty and the value of direct recursion for who
awaits the first frame. On the way no assertion fails, frames are pushed on top and popped from
the top, and the frame that is polled is unfinished while its children are finished, with the
values of direct recursion. -/
theorem poll_eq_eval (box : BoxAlloc) (tree : FutureTree α) :
    (∃ r', (∀ r, Repeats box (start box tree).2 r ↔ r = r') ∧ r'.stack = [] ∧
      (r'.pollWaiter (start box tree).1).map Prod.fst = some (some tree.eval)) ∧
    ∀ r, Reaches box (start box tree).2 r →
      (∃ poll r', r.turn box = some (poll, r') ∧
        (r.stack = [] ∧ poll = some .ready ∨ Lifo r.stack poll r'.stack)) ∧
      ∀ p rest, r.stack = p :: rest → ∃ f, r.frames.lookup p = some f ∧ f.output = none ∧
        (∀ q g, r.frames.lookup q = some g → g.parent = some p → g.output = some g.tree.eval) ∧
        ∀ c k, f.future = .wait c k →
          ∃ g, r.frames.lookup c = some g ∧ g.output = some g.tree.eval := by
  constructor
  · have hat : At box (start box tree).2 (start box tree).1 [] ⟨none, .run tree, none, tree⟩ tree
        (start box tree).2 := at_run rfl (Finmap.lookup_insert _) rfl rfl
    obtain ⟨r', hr', hstack, ⟨f, hf, ho⟩, -⟩ := hat.finishes
    have hend : r'.turn box = some (some .ready, r') := by rw [turn, hstack]
    have hrepeats := Reaches.repeats hr' hend
    refine ⟨r', fun r => ⟨fun h => h.unique hrepeats, fun h => h ▸ hrepeats⟩, hstack, ?_⟩
    simp only [pollWaiter, hf, ho, Option.map_some]
  · intro r hr
    have hinv := (inv_start box tree).reaches hr
    refine ⟨?_, fun p rest hstack => ?_⟩
    · cases hstack : r.stack with
      | nil => exact ⟨some .ready, r, by rw [turn, hstack], .inl ⟨rfl, rfl⟩⟩
      | cons p rest =>
        obtain ⟨poll, r', hturn, -, hlifo⟩ := hinv.turn box hstack
        exact ⟨poll, r', hturn, .inr (hstack ▸ hlifo)⟩
    · have hs := hinv.stacked
      have htop := hinv.top
      rw [hstack] at hs htop
      obtain ⟨f, hf, ho⟩ := hs.linked.mem List.mem_cons_self
      obtain ⟨f₀, hf₀, hgo⟩ := htop
      obtain rfl := Option.some.inj (hf₀.symm.trans hf)
      refine ⟨f₀, hf, ho, fun q g => hinv.child_finished hstack, fun c k hwait => ?_⟩
      rcases hgo with ⟨t, ht, -⟩ | ⟨c', k', g, v, hwait', hg, hv, -⟩
      · cases hwait.symm.trans ht
      · obtain ⟨rfl, -⟩ := FrameFuture.wait.inj (hwait.symm.trans hwait')
        exact ⟨g, hg, by rw [hv, hs.finished c g v hg hv]⟩

end Recursor
end AtomicSim
