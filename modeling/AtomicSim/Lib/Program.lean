import AtomicSim.Lib.Interleave
import Mathlib.Data.List.Forall2
import Mathlib.Data.Option.Basic

namespace AtomicSim

/-- A program performs operations and goes on with what they give back. It may fail, and it may
raise an error, which ends it and leaves the state as it is. -/
inductive Program (ι : Type) (ο : ι → Type) (ε α : Type) where
  | ret (a : α)
  | fail
  | raise (e : ε)
  | perform (i : ι) (k : ο i → Program ι ο ε α)

namespace Program

variable {ι : Type} {ο : ι → Type} {ε α β γ σ : Type}

def bind : Program ι ο ε α → (α → Program ι ο ε β) → Program ι ο ε β
  | ret a, f => f a
  | fail, _ => fail
  | raise e, _ => raise e
  | perform i k, f => perform i fun o => (k o).bind f

instance : Monad (Program ι ο ε) where
  pure := ret
  bind := bind

theorem bind_ret (m : Program ι ο ε α) : m.bind ret = m := by
  induction m with
  | ret a | fail | raise e => rfl
  | perform i k ih => exact congrArg (perform i) (funext ih)

theorem bind_bind (m : Program ι ο ε α) (f : α → Program ι ο ε β) (g : β → Program ι ο ε γ) :
    (m.bind f).bind g = m.bind fun a => (f a).bind g := by
  induction m with
  | ret a | fail | raise e => rfl
  | perform i k ih => exact congrArg (perform i) (funext ih)

instance : LawfulMonad (Program ι ο ε) :=
  LawfulMonad.mk' (Program ι ο ε) bind_ret (fun _ _ => rfl) bind_bind

/-- What is not there makes the program fail. -/
def lift : Option α → Program ι ο ε α
  | some a => ret a
  | none => fail

instance : MonadLift Option (Program ι ο ε) := ⟨lift⟩

theorem liftM_some_bind (a : α) (f : α → Program ι ο ε β) :
    (liftM (some a) : Program ι ο ε α) >>= f = f a := rfl

/-- How the program has ended, if it has. -/
def ended : Program ι ο ε α → Option (Option (Except ε α))
  | ret a => some (some (.ok a))
  | fail => some none
  | raise e => some (some (.error e))
  | perform _ _ => none

def op (i : ι) : Program ι ο ε (ο i) := perform i ret

/-- The operations act on a state, and fail where they have no meaning. -/
def interpret (act : ∀ i, σ → Option (ο i × σ)) : Program ι ο ε α → σ → Option (Except ε α × σ)
  | ret a, s => some (.ok a, s)
  | fail, _ => none
  | raise e, s => some (.error e, s)
  | perform i k, s => (act i s).bind fun r => (k r.1).interpret act r.2

/-- Every operation is a program of other operations. -/
def translate {κ : Type} {π : κ → Type} (f : ∀ i, Program κ π ε (ο i)) :
    Program ι ο ε α → Program κ π ε α
  | ret a => ret a
  | fail => fail
  | raise e => raise e
  | perform i k => (f i).bind fun o => (k o).translate f

end Program

/-- A program whose operations act at once on a state. -/
abbrev Effects (σ V : Type) := Program (σ → Option (V × σ)) fun _ => V

namespace Effects

variable {σ V ε α τ : Type} [DecidableEq τ]

/-- One operation of the program of thread `t`. -/
def step (s : (τ → Effects σ V ε α) × σ) (t : τ) : Option ((τ → Effects σ V ε α) × σ) :=
  match s.1 t with
  | .perform f k => (f s.2).map fun r => (Function.update s.1 t (k r.1), r.2)
  | _ => none

/-- The programs take turns as the schedule says. -/
def run (s : (τ → Effects σ V ε α) × σ) (schedule : List τ) :
    Option ((τ → Effects σ V ε α) × σ) :=
  schedule.foldlM step s

theorem step_perform {r : τ → Effects σ V ε α} {t : τ} {f : σ → Option (V × σ)}
    {k : V → Effects σ V ε α} (ht : r t = .perform f k) {s s' : σ} {v : V}
    (hf : f s = some (v, s')) : step (r, s) t = some (Function.update r t (k v), s') := by
  simp only [step, ht, hf, Option.map_some]

end Effects

/-- An operation is issued and done later, its handle is awaited, or it is done in an instant. -/
inductive Request (A D N : Type) where
  | issue (a : A)
  | await (d : D)
  | instant (n : N)

abbrev Request.Result {A D N : Type} (V : Type) : Request A D N → Type
  | issue _ => D
  | await _ | instant _ => V

/-- A program that hands out operations and goes on before they are done. -/
abbrev Deferred (A D N V : Type) := Program (Request A D N) (Request.Result V)

namespace Deferred

variable {A D N V ε : Type}

def issue (a : A) : Deferred A D N V ε D := Program.op (Request.issue a)

def await (d : D) : Deferred A D N V ε V := Program.op (Request.await d)

def instant (n : N) : Deferred A D N V ε V := Program.op (Request.instant n)

/-- Whatever the program issues meets `P`. -/
def Only {α : Type} (P : A → Prop) : Deferred A D N V ε α → Prop
  | .ret _ | .fail | .raise _ => True
  | .perform (.issue a) k => P a ∧ ∀ d, Only P (k d)
  | .perform (.await _) k | .perform (.instant _) k => ∀ v, Only P (k v)

section Only

variable {α β γ : Type} {P : A → Prop} {m : Deferred A D N V ε α}

theorem only_pure (a : α) : (pure a : Deferred A D N V ε α).Only P := trivial

theorem only_lift (o : Option α) : (liftM o : Deferred A D N V ε α).Only P := by
  cases o with
  | none | some a => trivial

theorem only_issue {a : A} (h : P a) : (issue a : Deferred A D N V ε D).Only P :=
  ⟨h, fun _ => trivial⟩

theorem only_await (d : D) : (await d : Deferred A D N V ε V).Only P := fun _ => trivial

theorem only_instant (n : N) : (instant n : Deferred A D N V ε V).Only P := fun _ => trivial

theorem Only.bind {f : α → Deferred A D N V ε β} (h : m.Only P) (hf : ∀ a, (f a).Only P) :
    (m >>= f).Only P := by
  induction m with
  | ret a => exact hf a
  | fail | raise e => trivial
  | perform i k ih =>
    cases i with
    | issue a => exact ⟨h.1, fun d => ih d (h.2 d)⟩
    | await d | instant n => exact fun v => ih v (h v)

theorem only_mapM {f : β → Deferred A D N V ε α} {l : List β} (h : ∀ b ∈ l, (f b).Only P) :
    (l.mapM f).Only P := by
  induction l with
  | nil => exact only_pure _
  | cons b l ih =>
    obtain ⟨hb, hl⟩ := List.forall_mem_cons.mp h
    rw [List.mapM_cons]
    exact hb.bind fun a => (ih hl).bind fun as => only_pure _

theorem only_foldlM {f : α → β → Deferred A D N V ε α} {l : List β}
    (h : ∀ a, ∀ b ∈ l, (f a b).Only P) (a : α) : (l.foldlM f a).Only P := by
  induction l generalizing a with
  | nil => exact only_pure _
  | cons b l ih =>
    rw [List.foldlM_cons]
    refine (h a b List.mem_cons_self).bind fun a' => ih (fun a b hb => ?_) a'
    exact h a b (List.mem_cons_of_mem _ hb)

theorem only_translate {κ : Type} {π : κ → Type} {f : ∀ i, Deferred A D N V ε (π i)}
    (h : ∀ i, (f i).Only P) (p : Program κ π ε α) : Only P (p.translate f) := by
  induction p with
  | ret a | fail | raise e => trivial
  | perform i k ih => exact (h i).bind ih

end Only
end Deferred

/-- How handles are numbered and read, what an operation has to know of the outputs of the
operations before it, and what it does once they are there. -/
structure Deferral (A D N V σ : Type) where
  handle : ℕ → D
  read : List V → D → Option V
  Known : List V → A → Prop
  call : List V → A → σ → Option (V × σ)
  instant : N → σ → Option (V × σ)
  read_mono {vals vals' : List V} {d : D} {v : V} :
    read vals d = some v → vals <+: vals' → read vals' d = some v
  read_handle (vals : List V) (v : V) : read (vals ++ [v]) (handle vals.length) = some v

namespace Deferral

variable {A D N V σ : Type} (δ : Deferral A D N V σ)
variable {ε α β γ ρ : Type} {vals vals' : List V}

/-- Each operation is done when it is issued. -/
def inOrder : ∀ i : Request A D N, List V × σ → Option (i.Result V × (List V × σ))
  | .issue a, (vals, s) =>
    (δ.call vals a s).map fun r => (δ.handle vals.length, (vals ++ [r.1], r.2))
  | .await d, (vals, s) => (δ.read vals d).map fun v => (v, (vals, s))
  | .instant n, (vals, s) => (δ.instant n s).map fun r => (r.1, (vals, r.2))

theorem inOrder_issue (a : A) (s : σ) : δ.inOrder (.issue a) (vals, s) =
    (δ.call vals a s).map fun r => (δ.handle vals.length, (vals ++ [r.1], r.2)) := rfl

theorem inOrder_await (d : D) (s : σ) :
    δ.inOrder (.await d) (vals, s) = (δ.read vals d).map fun v => (v, (vals, s)) := rfl

theorem inOrder_instant (n : N) (s : σ) : δ.inOrder (.instant n) (vals, s) =
    (δ.instant n s).map fun r => (r.1, (vals, r.2)) := rfl

/-- Done in order, the operations of the program are those of the reference, and others that
leave the state alone. An operation that always fails stands for the failure of the reference. -/
inductive Realizes (Q : List V → α → β → Prop) :
    List V → Deferred A D N V ε α → Effects σ V ε β → Prop
  | ret {vals : List V} {a : α} {b : β} (h : Q vals a b) : Realizes Q vals (.ret a) (.ret b)
  | fail {vals : List V} : Realizes Q vals .fail .fail
  | raise {vals : List V} (e : ε) : Realizes Q vals (.raise e) (.raise e)
  | await {vals : List V} {d : D} {v : V} {k : V → Deferred A D N V ε α} {r : Effects σ V ε β}
    (hd : δ.read vals d = some v) (h : Realizes Q vals (k v) r) :
    Realizes Q vals (.perform (.await d) k) r
  | compute {vals : List V} {a : A} {v : V} {k : D → Deferred A D N V ε α} {r : Effects σ V ε β}
    (ha : δ.Known vals a) (hc : ∀ s, δ.call vals a s = some (v, s))
    (h : Realizes Q (vals ++ [v]) (k (δ.handle vals.length)) r) :
    Realizes Q vals (.perform (.issue a) k) r
  | panic {vals : List V} {a : A} {k : D → Deferred A D N V ε α} (ha : δ.Known vals a)
    (hc : ∀ s, δ.call vals a s = none) : Realizes Q vals (.perform (.issue a) k) .fail
  | act {vals : List V} {a : A} {k : D → Deferred A D N V ε α} {f : σ → Option (V × σ)}
    {k' : V → Effects σ V ε β} (ha : δ.Known vals a) (hc : ∀ s, δ.call vals a s = f s)
    (h : ∀ v, Realizes Q (vals ++ [v]) (k (δ.handle vals.length)) (k' v)) :
    Realizes Q vals (.perform (.issue a) k) (.perform f k')
  | instant {vals : List V} {n : N} {k : V → Deferred A D N V ε α} {f : σ → Option (V × σ)}
    {k' : V → Effects σ V ε β} (hn : ∀ s, δ.instant n s = f s)
    (h : ∀ v, Realizes Q vals (k v) (k' v)) :
    Realizes Q vals (.perform (.instant n) k) (.perform f k')

namespace Realizes

variable {δ} {Q : List V → α → β → Prop} {m : Deferred A D N V ε α} {r : Effects σ V ε β}

theorem pure {a : α} {b : β} (h : Q vals a b) : δ.Realizes (ε := ε) Q vals (pure a) (pure b) :=
  .ret h

theorem lift {o : Option α} {o' : Option β} (h : Option.Rel (Q vals) o o') :
    δ.Realizes (ε := ε) Q vals (liftM o) (liftM o') := by
  cases h with
  | none => exact .fail
  | some h => exact .ret h

theorem bind {R : List V → γ → ρ → Prop} {f : α → Deferred A D N V ε γ}
    {g : β → Effects σ V ε ρ} (h : δ.Realizes Q vals m r)
    (hfg : ∀ vals' a b, vals <+: vals' → Q vals' a b → δ.Realizes R vals' (f a) (g b)) :
    δ.Realizes R vals (m >>= f) (r >>= g) := by
  induction h with
  | ret h => exact hfg _ _ _ List.prefix_rfl h
  | fail => exact .fail
  | raise e => exact .raise e
  | await hd h ih => exact .await hd (ih hfg)
  | compute ha hc h ih =>
    refine .compute ha hc (ih fun vals' a b hpre => ?_)
    exact hfg vals' a b ((List.prefix_append _ _).trans hpre)
  | panic ha hc => exact .panic ha hc
  | act ha hc h ih =>
    exact .act ha hc fun v =>
      ih v fun vals' a b hpre => hfg vals' a b ((List.prefix_append _ _).trans hpre)
  | instant hn h ih => exact .instant hn fun v => ih v hfg

theorem mapM {f : γ → Deferred A D N V ε α} {g : ρ → Effects σ V ε β} {l : List ρ} {l' : List γ}
    (hmono : ∀ {vals₁ vals₂ a b}, vals₁ <+: vals₂ → Q vals₁ a b → Q vals₂ a b)
    (h : List.Forall₂ (fun d c => ∀ vals', vals <+: vals' → δ.Realizes Q vals' (f c) (g d)) l l') :
    δ.Realizes (fun vals as bs => List.Forall₂ (Q vals) as bs) vals (l'.mapM f) (l.mapM g) := by
  suffices hall : ∀ vals', vals <+: vals' →
      δ.Realizes (fun vals as bs => List.Forall₂ (Q vals) as bs) vals' (l'.mapM f) (l.mapM g) from
    hall vals List.prefix_rfl
  induction h with
  | nil => exact fun _ _ => pure .nil
  | cons hcd hrest ih =>
    intro vals₁ hpre
    rw [List.mapM_cons, List.mapM_cons]
    apply (hcd vals₁ hpre).bind
    intro vals₂ a b hpre₂ hab
    apply (ih vals₂ (hpre.trans hpre₂)).bind
    intro vals₃ as bs hpre₃ hrest'
    exact pure (.cons (hmono hpre₃ hab) hrest')

theorem foldlM {f : α → γ → Deferred A D N V ε α} {g : β → ρ → Effects σ V ε β}
    {R : ρ → γ → Prop} {l : List ρ} {l' : List γ}
    (hstep : ∀ {vals a b d c}, R d c → Q vals a b → δ.Realizes Q vals (f a c) (g b d))
    (h : List.Forall₂ R l l') {a : α} {b : β} (hab : Q vals a b) :
    δ.Realizes Q vals (l'.foldlM f a) (l.foldlM g b) := by
  induction h generalizing vals a b with
  | nil => exact pure hab
  | cons hcd hrest ih =>
    rw [List.foldlM_cons, List.foldlM_cons]
    apply (hstep hcd hab).bind
    exact fun vals' a' b' hpre hab' => ih hab'

theorem translate {κ : Type} {π : κ → Type} {f : ∀ i, Deferred A D N V ε (π i)}
    {g : ∀ i, Effects σ V ε (π i)}
    (h : ∀ vals i, δ.Realizes (fun _ o o' => o = o') vals (f i) (g i)) (p : Program κ π ε α) :
    δ.Realizes (fun _ a b => a = b) vals (p.translate f) (p.translate g) := by
  induction p generalizing vals with
  | ret a => exact .ret rfl
  | fail => exact .fail
  | raise e => exact .raise e
  | perform i k ih =>
    apply (h vals i).bind
    rintro vals' o _ hpre rfl
    exact ih o

theorem await_bind {f : V → Deferred A D N V ε α} {d : D} {v : V} (hd : δ.read vals d = some v)
    (h : δ.Realizes Q vals (f v) r) : δ.Realizes Q vals (Deferred.await d >>= f) r :=
  .await hd h

theorem issue_pure {a : A} {o : Option V} (ha : δ.Known vals a)
    (hc : ∀ s, δ.call vals a s = o.map fun v => (v, s)) :
    δ.Realizes (ε := ε) (fun vals d v => δ.read vals d = some v) vals (Deferred.issue a)
      (liftM o) := by
  cases o with
  | none => exact .panic ha hc
  | some v => exact .compute ha hc (.ret (δ.read_handle vals v))

theorem issue_act {a : A} {f : σ → Option (V × σ)} (ha : δ.Known vals a)
    (hc : ∀ s, δ.call vals a s = f s) :
    δ.Realizes (ε := ε) (fun vals d v => δ.read vals d = some v) vals (Deferred.issue a)
      (Program.op f) :=
  .act ha hc fun v => .ret (δ.read_handle vals v)

theorem issue_lift_act {a : A} {o : Option γ} {f : γ → σ → Option (V × σ)}
    (ha : δ.Known vals a) (hc : ∀ s, δ.call vals a s = o.bind fun c => f c s) :
    δ.Realizes (ε := ε) (fun vals d v => δ.read vals d = some v) vals (Deferred.issue a)
      (liftM o >>= fun c => Program.op (f c)) := by
  cases o with
  | none => exact .panic ha hc
  | some c => exact issue_act ha hc

theorem ended {m : Deferred A D N V ε α} {r : Effects σ V ε α}
    (h : δ.Realizes (fun _ a b => a = b) vals m r) {e : Option (Except ε α)}
    (he : m.ended = some e) : r.ended = some e := by
  cases h with
  | ret h => exact h ▸ he
  | fail | raise e => exact he
  | await _ _ | compute _ _ _ | panic _ _ | act _ _ _ | instant _ _ => cases he

/-- Programs that end alike, with the same error if there is one. -/
inductive SameEnd (Q : α → β → Prop) : Except ε α → Except ε β → Prop
  | ok {a : α} {b : β} (h : Q a b) : SameEnd Q (.ok a) (.ok b)
  | error (e : ε) : SameEnd Q (.error e) (.error e)

/-- Where the operations are done in order, the program ends as its reference does. -/
theorem interpret (h : δ.Realizes Q vals m r) (s : σ) :
    Option.Rel (fun x y => SameEnd (Q x.2.1) x.1 y.1 ∧ x.2.2 = y.2)
      (m.interpret δ.inOrder (vals, s)) (r.interpret (fun f => f) s) := by
  induction h generalizing s with
  | ret h => exact .some ⟨.ok h, rfl⟩
  | fail => exact .none
  | raise e => exact .some ⟨.error e, rfl⟩
  | await hd h ih =>
    rw [Program.interpret, δ.inOrder_await, hd]
    exact ih s
  | compute ha hc h ih =>
    rw [Program.interpret, δ.inOrder_issue, hc]
    exact ih s
  | panic ha hc =>
    rw [Program.interpret, Program.interpret, δ.inOrder_issue, hc]
    exact .none
  | @act vals a k f k' ha hc h ih =>
    rw [Program.interpret, Program.interpret, δ.inOrder_issue, hc]
    cases f s with
    | none => exact .none
    | some e => exact ih e.1 e.2
  | @instant vals n k f k' hn h ih =>
    rw [Program.interpret, Program.interpret, δ.inOrder_instant, hn]
    cases f s with
    | none => exact .none
    | some e => exact ih e.1 e.2

end Realizes

/-- Operations that were issued, with the outputs from before. Nothing of them is done until an
output is awaited. -/
structure Backlog (A V σ : Type) where
  given : List V
  issued : List A
  state : σ

def Backlog.push (b : Backlog A V σ) (a : A) : Backlog A V σ := { b with issued := b.issued ++ [a] }

/-- What the operations come to once each of them is done. -/
def values (b : Backlog A V σ) : Option (List V) :=
  b.issued.foldlM (fun vals a => (δ.call vals a b.state).map fun r => vals ++ [r.1]) b.given

/-- Operations are done as late as possible. -/
def lazily : ∀ i : Request A D N, Backlog A V σ → Option (i.Result V × Backlog A V σ)
  | .issue a, b => some (δ.handle (b.given.length + b.issued.length), b.push a)
  | .await d, b => do
    let vals ← δ.values b
    let v ← δ.read vals d
    some (v, b)
  | .instant n, b => (δ.instant n b.state).map fun r => (r.1, { b with state := r.2 })

/-- How the program ends where operations are done as late as possible, and what all of them come
to. -/
def settle (m : Deferred A D N V ε α) (b : Backlog A V σ) :
    Option (Except ε α × List V × σ) := do
  let (x, b) ← m.interpret δ.lazily b
  let vals ← δ.values b
  some (x, vals, b.state)

/-- An operation that neither reads nor writes the state. -/
def Pure (a : A) : Prop := ∀ vals, ∃ o : Option V, ∀ s, δ.call vals a s = o.map fun v => (v, s)

section Lazily

variable {δ} {b b' : Backlog A V σ} {m : Deferred A D N V ε α} {r : Effects σ V ε β}
variable {Q : List V → α → β → Prop}

theorem values_push (b : Backlog A V σ) (a : A) :
    δ.values (b.push a) =
      (δ.values b).bind fun vals => (δ.call vals a b.state).map fun r => vals ++ [r.1] := by
  show (b.issued ++ [a]).foldlM _ b.given = _
  rw [List.foldlM_append, values]
  refine Option.bind_congr fun vals _ => ?_
  rw [List.foldlM_cons]
  exact Option.bind_fun_some _

theorem pure_push {a : A} (hb : ∀ a ∈ b.issued, δ.Pure a) (ha : δ.Pure a) :
    ∀ a' ∈ (b.push a).issued, δ.Pure a' :=
  List.forall_mem_append.mpr ⟨hb, List.forall_mem_singleton.mpr ha⟩

theorem length_values (h : δ.values b = some vals) :
    vals.length = b.given.length + b.issued.length := by
  obtain ⟨given, issued, s⟩ := b
  induction issued generalizing given with
  | nil =>
    cases h
    rfl
  | cons a l ih =>
    obtain ⟨vals₁, h₁, h⟩ := Option.bind_eq_some_iff.mp h
    obtain ⟨e, -, rfl⟩ := Option.map_eq_some_iff.mp h₁
    have hlen := ih _ h
    simp only [List.length_append, List.length_cons, List.length_nil] at hlen ⊢
    omega

theorem settle_issue (hv : δ.values b = some vals) {a : A} (k : D → Deferred A D N V ε α) :
    δ.settle (.perform (.issue a) k) b = δ.settle (k (δ.handle vals.length)) (b.push a) := by
  rw [length_values hv]
  rfl

/-- Pure operations come to the same in every state. -/
theorem values_state (hb : ∀ a ∈ b.issued, δ.Pure a) (s : σ) :
    δ.values { b with state := s } = δ.values b := by
  obtain ⟨given, issued, s₀⟩ := b
  induction issued generalizing given with
  | nil => rfl
  | cons a l ih =>
    obtain ⟨ha, hl⟩ := List.forall_mem_cons.mp hb
    obtain ⟨o, ho⟩ := ha given
    show ((δ.call given a s).map _).bind _ = ((δ.call given a s₀).map _).bind _
    rw [ho, ho]
    cases o with
    | none => rfl
    | some v => exact ih _ hl

/-- Once an operation has no output, nothing makes up for it. -/
theorem doomed (hm : Deferred.Only δ.Pure m) (hb : ∀ a ∈ b.issued, δ.Pure a) (h : δ.values b = none)
    {x : Except ε α} (hrun : m.interpret δ.lazily b = some (x, b')) : δ.values b' = none := by
  induction m generalizing b with
  | ret a | raise e =>
    cases hrun
    exact h
  | fail => cases hrun
  | perform i k ih =>
    obtain ⟨e, he, hrun⟩ := Option.bind_eq_some_iff.mp hrun
    cases i with
    | issue a =>
      cases he
      refine ih _ (hm.2 _) (pure_push hb hm.1) ?_ hrun
      rw [values_push, h]
      rfl
    | await d =>
      simp only [lazily, h] at he
      cases he
    | instant n =>
      obtain ⟨e', -, rfl⟩ := Option.map_eq_some_iff.mp he
      exact ih e'.1 (hm e'.1) (b := ⟨b.given, b.issued, e'.2⟩) hb ((values_state hb _).trans h) hrun

theorem values_push_some (hv : δ.values b = some vals) {a : A} {v : V}
    (ha : δ.call vals a b.state = some (v, b.state)) :
    δ.values (b.push a) = some (vals ++ [v]) := by
  rw [values_push, hv, Option.bind_some, ha]
  rfl

theorem settle_eq_none (hm : Deferred.Only δ.Pure m) (hb : ∀ a ∈ b.issued, δ.Pure a)
    (h : δ.values b = none) : δ.settle m b = none := by
  cases hrun : m.interpret δ.lazily b with
  | none => simp only [settle, hrun, Option.bind_eq_bind, Option.bind_none]
  | some e =>
    simp only [settle, hrun, doomed hm hb h hrun, Option.bind_eq_bind, Option.bind_some,
      Option.bind_none]

theorem settle_issue_eq_none {a : A} {k : D → Deferred A D N V ε α}
    (hm : Deferred.Only δ.Pure (.perform (.issue a) k)) (hb : ∀ a ∈ b.issued, δ.Pure a)
    (hv : δ.values b = some vals) (ha : δ.call vals a b.state = none) :
    δ.settle (.perform (.issue a) k) b = none := by
  rw [settle_issue hv]
  apply settle_eq_none (hm.2 _) (pure_push hb hm.1)
  rw [values_push, hv, Option.bind_some, ha]
  rfl

/-- Where pure operations are done as late as possible, the program ends as its reference does,
or some operation has no output where the reference fails. -/
theorem Realizes.settle (h : δ.Realizes Q vals m r) (hm : Deferred.Only δ.Pure m)
    (hb : ∀ a ∈ b.issued, δ.Pure a) (hv : δ.values b = some vals) :
    Option.Rel (fun x y => SameEnd (Q x.2.1) x.1 y.1 ∧ x.2.2 = y.2) (δ.settle m b)
      (r.interpret (fun f => f) b.state) := by
  induction h generalizing b with
  | ret h =>
    show Option.Rel _ ((δ.values b).bind _) _
    rw [hv]
    exact .some ⟨.ok h, rfl⟩
  | fail => exact .none
  | raise e =>
    show Option.Rel _ ((δ.values b).bind _) _
    rw [hv]
    exact .some ⟨.error e, rfl⟩
  | @await vals d v k r hd h ih =>
    have hawait : δ.lazily (.await d) b = some (v, b) := by
      simp only [Deferral.lazily, hv, hd, Option.bind_eq_bind, Option.bind_some]
    rw [Deferral.settle, Program.interpret, hawait]
    exact ih (hm v) hb hv
  | @compute vals a v k r ha hc h ih =>
    rw [settle_issue hv]
    exact ih (hm.2 _) (pure_push hb hm.1) (values_push_some hv (hc b.state))
  | @panic vals a k ha hc =>
    rw [settle_issue_eq_none hm hb hv (hc b.state)]
    exact .none
  | @act vals a k f k' ha hc h ih =>
    obtain ⟨o, ho⟩ := hm.1 vals
    have hf : f b.state = o.map fun v => (v, b.state) := (hc b.state).symm.trans (ho b.state)
    rw [Program.interpret, hf]
    cases o with
    | none =>
      rw [settle_issue_eq_none hm hb hv (ho b.state)]
      exact .none
    | some v =>
      rw [settle_issue hv]
      exact ih v (hm.2 _) (pure_push hb hm.1) (values_push_some hv (ho b.state))
  | @instant vals n k f k' hn h ih =>
    rw [Deferral.settle, Program.interpret, Program.interpret, Deferral.lazily, hn]
    cases f b.state with
    | none => exact .none
    | some e => exact ih e.1 (hm e.1) hb ((values_state hb e.2).trans hv)

end Lazily

/-- With the given outputs, of awaited handles and of what is done in an instant, the program issues
`l`, beginning with number `n`, and goes on as the last program. -/
inductive Issues (output : D → Option V) (instants : N → V → Prop) :
    ℕ → Deferred A D N V ε α → List A → Deferred A D N V ε α → Prop
  | nil {n : ℕ} {m : Deferred A D N V ε α} : Issues output instants n m [] m
  | issue {n : ℕ} {a : A} {k : D → Deferred A D N V ε α} {l : List A}
    {m : Deferred A D N V ε α} : Issues output instants (n + 1) (k (δ.handle n)) l m →
    Issues output instants n (.perform (.issue a) k) (a :: l) m
  | await {n : ℕ} {d : D} {v : V} {k : V → Deferred A D N V ε α} {l : List A}
    {m : Deferred A D N V ε α} : output d = some v → Issues output instants n (k v) l m →
    Issues output instants n (.perform (.await d) k) l m
  | instant {n : ℕ} {i : N} {v : V} {k : V → Deferred A D N V ε α} {l : List A}
    {m : Deferred A D N V ε α} : instants i v → Issues output instants n (k v) l m →
    Issues output instants n (.perform (.instant i) k) l m

/-- The reference goes on by operations that leave the states in `I` alone. -/
inductive Idles (I : σ → Prop) : Effects σ V ε β → Effects σ V ε β → Prop
  | refl (r : Effects σ V ε β) : Idles I r r
  | step {f : σ → Option (V × σ)} {v : V} {k : V → Effects σ V ε β} {r : Effects σ V ε β}
    (hf : ∀ s, I s → f s = some (v, s)) (h : Idles I (k v) r) : Idles I (.perform f k) r

namespace Issues

variable {δ} {output output' : D → Option V} {instants instants' : N → V → Prop} {I : σ → Prop}
variable {n : ℕ} {l l' : List A}
variable {m m' m'' : Deferred A D N V ε α} {Q : List V → α → β → Prop} {r : Effects σ V ε β}

theorem trans (h : δ.Issues output instants n m l m')
    (h' : δ.Issues output instants (n + l.length) m' l' m'') :
    δ.Issues output instants n m (l ++ l') m'' := by
  induction h with
  | nil => exact h'
  | issue h ih =>
    apply issue
    apply ih
    rwa [List.length_cons, ← Nat.add_assoc, Nat.add_right_comm] at h'
  | await hd h ih => exact .await hd (ih h')
  | instant hi h ih => exact .instant hi (ih h')

theorem mono (h : δ.Issues output instants n m l m')
    (ho : ∀ d v, output d = some v → output' d = some v)
    (hi : ∀ i v, instants i v → instants' i v) : δ.Issues output' instants' n m l m' := by
  induction h with
  | nil => exact .nil
  | issue h ih => exact ih.issue
  | await hd h ih => exact ih.await (ho _ _ hd)
  | instant hn h ih => exact ih.instant (hi _ _ hn)

theorem only {P : A → Prop} (h : δ.Issues output instants n m l m') (hm : m.Only P) :
    ∀ a ∈ l, P a := by
  induction h with
  | nil => exact fun a ha => absurd ha List.not_mem_nil
  | issue h ih => exact List.forall_mem_cons.mpr ⟨hm.1, ih (hm.2 _)⟩
  | await hd h ih | instant hi h ih => exact ih (hm _)

section Idles

variable (hI : ∀ i v, instants i v → ∀ s, I s → δ.instant i s = some (v, s))
variable (ho : ∀ d v, δ.read vals d = some v → output d = some v)

include hI ho

/-- The outputs that are awaited first are there. -/
theorem realizes_nil (h : δ.Issues output instants n m [] m') (hr : δ.Realizes Q vals m r) :
    ∃ r', Idles I r r' ∧ δ.Realizes Q vals m' r' := by
  generalize hl : ([] : List A) = l at h
  induction h generalizing r with
  | nil => exact ⟨r, .refl r, hr⟩
  | issue h ih => cases hl
  | await hd h ih =>
    cases hr with
    | await hd' hr =>
      cases hd.symm.trans (ho _ _ hd')
      exact ih hr hl
  | instant hi h ih =>
    cases hr with
    | instant hn hr =>
      obtain ⟨r', hidle, hr'⟩ := ih (hr _) hl
      exact ⟨r', .step (fun s hs => (hn s).symm.trans (hI _ _ hi s hs)) hidle, hr'⟩

theorem realizes_cons {a : A} (h : δ.Issues output instants n m (a :: l) m')
    (hr : δ.Realizes Q vals m r) :
    ∃ k r', Idles I r r' ∧ δ.Issues output instants (n + 1) (k (δ.handle n)) l m' ∧
      δ.Realizes Q vals (.perform (.issue a) k) r' := by
  generalize hl : a :: l = l' at h
  induction h generalizing r with
  | nil => cases hl
  | @issue n b k l₀ m h ih =>
    cases hl
    exact ⟨k, r, .refl r, h, hr⟩
  | await hd h ih =>
    cases hr with
    | await hd' hr =>
      cases hd.symm.trans (ho _ _ hd')
      exact ih hr hl
  | instant hi h ih =>
    cases hr with
    | instant hn hr =>
      obtain ⟨k, r', hidle, hk, hr'⟩ := ih (hr _) hl
      exact ⟨k, r', .step (fun s hs => (hn s).symm.trans (hI _ _ hi s hs)) hidle, hk, hr'⟩

end Idles

/-- What the program issues is known from the outputs before it, if what is known is done with
the outputs that there are. -/
theorem known (hI : ∀ i v, instants i v → ∀ s, I s → δ.instant i s = some (v, s)) {outs : List V}
    (h : δ.Issues output instants vals.length m l m') (hr : δ.Realizes Q vals m r)
    (hpre : vals <+: outs) (ho : ∀ d v, δ.read outs d = some v → output d = some v)
    (hcall : ∀ i a, l[i]? = some a → δ.Known (outs.take (vals.length + i)) a →
      ∃ v s s', outs[vals.length + i]? = some v ∧
        δ.call (outs.take (vals.length + i)) a s = some (v, s')) {i : ℕ} {a : A}
    (hi : l[i]? = some a) : δ.Known (outs.take (vals.length + i)) a := by
  induction l generalizing vals m r i with
  | nil => cases hi
  | cons b l ih =>
    obtain ⟨k, r₀, -, hk, hreal⟩ := h.realizes_cons hI
      (fun d v hd => ho d v (δ.read_mono hd hpre)) hr
    have htake : outs.take vals.length = vals := (List.prefix_iff_eq_take.mp hpre).symm
    have hb : δ.Known vals b := by
      cases hreal with
      | compute hb hc h | panic hb hc | act hb hc h => exact hb
    cases i with
    | zero =>
      cases hi
      rwa [Nat.add_zero, htake]
    | succ i =>
      have hstep := hcall 0 b rfl
      rw [Nat.add_zero, htake] at hstep
      obtain ⟨v, s, s', hv, hs⟩ := hstep hb
      have hpre' : vals ++ [v] <+: outs := by
        rw [← htake, show [v] = outs[vals.length]?.toList by rw [hv]; rfl, ← List.take_add_one]
        exact List.take_prefix _ _
      have hadd : ∀ j, vals.length + (j + 1) = (vals ++ [v]).length + j := by
        intro j
        rw [List.length_append, List.length_singleton]
        omega
      have hrest : ∃ r', δ.Realizes Q (vals ++ [v]) (k (δ.handle vals.length)) r' := by
        cases hreal with
        | compute hb hc hk' =>
          cases (hc s).symm.trans hs
          exact ⟨_, hk'⟩
        | panic hb hc => cases (hc s).symm.trans hs
        | act hb hc hk' => exact ⟨_, hk' v⟩
      obtain ⟨r', hr'⟩ := hrest
      rw [hadd]
      refine ih (List.length_append ▸ hk) hr' hpre' (fun j a hj => ?_) hi
      rw [← hadd]
      exact hcall (j + 1) a hj

end Issues

section Turns

variable {τ : Type} [DecidableEq τ] {δ : τ → Deferral A D N V σ} {Q : τ → List V → α → β → Prop}
variable {code : τ → List A} {s s' : Interleave.State τ V σ} {schedule threads : List τ}
variable {m m' : τ → Deferred A D N V ε α} {r : τ → Effects σ V ε β} {output : τ → D → Option V}
variable {instants : τ → N → V → Prop} {I : σ → Prop}

theorem Idles.exists_turns {t : τ} {r' : Effects σ V ε β} (h : Idles I (r t) r') {s : σ}
    (hs : I s) : ∃ turns, Effects.run (r, s) turns = some (Function.update r t r', s) := by
  generalize hq : r t = q at h
  induction h generalizing r with
  | refl q =>
    refine ⟨[], ?_⟩
    rw [← hq, Function.update_eq_self]
    rfl
  | @step f v k q' hf h ih =>
    obtain ⟨turns, hturns⟩ := ih (r := Function.update r t (k v)) (Function.update_self _ _ _)
    refine ⟨t :: turns, ?_⟩
    rw [Effects.run, List.foldlM_cons, Effects.step_perform hq (hf s hs)]
    rwa [Function.update_idem] at hturns

/-- Each of some threads idles to where it meets `P`. -/
theorem exists_turns_of_idles {P : τ → Effects σ V ε β → Prop} {s : σ} (hs : I s)
    (h : ∀ t ∈ threads, ∃ r', Idles I (r t) r' ∧ P t r') (hP : ∀ t ∉ threads, P t (r t)) :
    ∃ turns r', Effects.run (r, s) turns = some (r', s) ∧ ∀ t, P t (r' t) := by
  induction threads generalizing r with
  | nil => exact ⟨[], r, rfl, fun t => hP t List.not_mem_nil⟩
  | cons u us ih =>
    obtain ⟨q, hidle, hq⟩ := h u List.mem_cons_self
    obtain ⟨turns, hturns⟩ := hidle.exists_turns hs
    have hq' : ∀ t ∈ us, ∃ r', Idles I (Function.update r u q t) r' ∧ P t r' := by
      intro t ht
      by_cases htu : t = u
      · subst htu
        rw [Function.update_self]
        exact ⟨q, .refl q, hq⟩
      · rw [Function.update_of_ne htu]
        exact h t (List.mem_cons_of_mem _ ht)
    have hP' : ∀ t ∉ us, P t (Function.update r u q t) := by
      intro t ht
      by_cases htu : t = u
      · subst htu
        rwa [Function.update_self]
      · rw [Function.update_of_ne htu]
        exact hP t (List.not_mem_cons_of_ne_of_not_mem htu ht)
    obtain ⟨turns', r', hturns', hr'⟩ := ih hq' hP'
    refine ⟨turns ++ turns', r', ?_, hr'⟩
    rw [Effects.run, List.foldlM_append]
    exact Option.bind_eq_some_iff.mpr ⟨_, hturns, hturns'⟩

/-- Where the operations that the programs issue take turns, the references take turns with the
same effect. What is done in an instant leaves the states of the run alone. -/
theorem exists_turns
    (hrun : Interleave.run (fun t => (δ t).call) code s schedule = some s')
    (hlen : ∀ t, (s'.values t).length = (code t).length)
    (hI : ∀ t i v, instants t i v → ∀ s, I s → (δ t).instant i s = some (v, s))
    (hcall : ∀ t vals a s v s', I s → (δ t).call vals a s = some (v, s') → I s')
    (hs : I s.shared)
    (ho : ∀ t d v, (δ t).read (s'.values t) d = some v → output t d = some v)
    (hm : ∀ t, (δ t).Issues (output t) (instants t) (s.values t).length (m t)
      ((code t).drop (s.values t).length) (m' t))
    (hr : ∀ t, (δ t).Realizes (Q t) (s.values t) (m t) (r t))
    (hfresh : ∀ t ∉ threads, code t = [] ∧ (δ t).Realizes (Q t) (s'.values t) (m' t) (r t)) :
    ∃ turns r', Effects.run (r, s.shared) turns = some (r', s'.shared) ∧
      ∀ t, (δ t).Realizes (Q t) (s'.values t) (m' t) (r' t) := by
  have hpre := (Interleave.replays_of_run hrun).1
  have hread : ∀ t d v, (δ t).read (s.values t) d = some v → output t d = some v :=
    fun t d v hd => ho t d v ((δ t).read_mono hd (hpre t).1)
  induction schedule generalizing s m r with
  | nil =>
    cases hrun
    refine exists_turns_of_idles hs (fun t _ => ?_) fun t ht => (hfresh t ht).2
    have hnil := hm t
    rw [hlen, List.drop_length] at hnil
    exact hnil.realizes_nil (hI t) (hread t) (hr t)
  | cons u ts ih =>
    rw [Interleave.run, List.foldlM_cons] at hrun
    obtain ⟨s₁, hstep, hrun⟩ := Option.bind_eq_some_iff.mp hrun
    obtain ⟨a, ha, hcalled⟩ := Option.bind_eq_some_iff.mp hstep
    obtain ⟨e, he, rfl⟩ := Option.map_eq_some_iff.mp hcalled
    have hu := hm u
    rw [List.drop_eq_getElem?_toList_append, ha] at hu
    obtain ⟨k, q, hidle, hk, hreal⟩ := hu.realizes_cons (hI u) (hread u) (hr u)
    obtain ⟨idle, hidle⟩ := hidle.exists_turns hs
    have hpre₁ := (Interleave.replays_of_run hrun).1
    have hm₁ : ∀ t, (δ t).Issues (output t) (instants t) ((s.push u e).values t).length
        (Function.update m u (k ((δ u).handle (s.values u).length)) t)
        ((code t).drop ((s.push u e).values t).length) (m' t) := by
      intro t
      rw [congrFun Interleave.length_push t]
      by_cases ht : t = u
      · subst ht
        rw [Function.update_self, Function.update_self]
        exact hk
      · rw [Function.update_of_ne ht, Function.update_of_ne ht]
        exact hm t
    have hr₁ : ∀ r₁, (δ u).Realizes (Q u) (s.values u ++ [e.1])
        (k ((δ u).handle (s.values u).length)) r₁ → ∀ t, (δ t).Realizes (Q t)
          ((s.push u e).values t) (Function.update m u (k ((δ u).handle (s.values u).length)) t)
          (Function.update r u r₁ t) := by
      intro r₁ hu₁ t
      by_cases ht : t = u
      · subst ht
        rw [Function.update_self, Function.update_self, Interleave.values_push_self]
        exact hu₁
      · rw [Function.update_of_ne ht, Function.update_of_ne ht, Interleave.values_push_of_ne ht]
        exact hr t
    have hfresh₁ : ∀ r₁, ∀ t ∉ threads, code t = [] ∧
        (δ t).Realizes (Q t) (s'.values t) (m' t) (Function.update r u r₁ t) := by
      intro r₁ t ht
      have hne : t ≠ u := by
        rintro rfl
        rw [(hfresh t ht).1] at ha
        cases ha
      rw [Function.update_of_ne hne]
      exact hfresh t ht
    have hread₁ : ∀ t d v, (δ t).read ((s.push u e).values t) d = some v →
        output t d = some v := fun t d v hd => ho t d v ((δ t).read_mono hd (hpre₁ t).1)
    have hrest : ∀ r₁, (δ u).Realizes (Q u) (s.values u ++ [e.1])
        (k ((δ u).handle (s.values u).length)) r₁ → ∃ turns r',
          Effects.run (Function.update r u r₁, e.2) turns = some (r', s'.shared) ∧
            ∀ t, (δ t).Realizes (Q t) (s'.values t) (m' t) (r' t) :=
      fun r₁ hu₁ => ih hrun (hcall _ _ _ _ _ _ hs he) hm₁ (hr₁ r₁ hu₁) (hfresh₁ r₁) hpre₁ hread₁
    have happend : ∀ {turns r₁}, Effects.run (Function.update r u q, s.shared) turns = some r₁ →
        Effects.run (r, s.shared) (idle ++ turns) = some r₁ := by
      intro turns r₁ hturns
      rw [Effects.run, List.foldlM_append]
      exact Option.bind_eq_some_iff.mpr ⟨_, hidle, hturns⟩
    beta_reduce at he
    cases hreal with
    | compute ha hc hk' =>
      rw [hc] at he
      cases he
      obtain ⟨turns, r', hturns, hr'⟩ := hrest q hk'
      exact ⟨idle ++ turns, r', happend hturns, hr'⟩
    | panic ha hc =>
      rw [hc] at he
      cases he
    | act ha hc hk' =>
      rw [hc] at he
      obtain ⟨turns, r', hturns, hr'⟩ := hrest _ (hk' e.1)
      refine ⟨idle ++ u :: turns, r', happend ?_, hr'⟩
      rw [Effects.run, List.foldlM_cons, Effects.step_perform (Function.update_self _ _ _) he]
      rwa [Function.update_idem]

end Turns
end Deferral
end AtomicSim
