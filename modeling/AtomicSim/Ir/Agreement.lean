import AtomicSim.Compile.Folding
import AtomicSim.Ir.Numbering
import AtomicSim.Sequential

namespace AtomicSim

@[simp] theorem InterpFrame.temps_assign (frame : InterpFrame) (l : CLocal) (d : Thunk) :
    (frame.assign l d).temps = Function.update frame.temps l (some d) := rfl

theorem InterpFrame.origin_assignAll (frame : InterpFrame) (ds : List (CLocal × Thunk)) :
    (frame.assignAll ds).origin = frame.origin := by
  induction ds generalizing frame with
  | nil => rfl
  | cons e ds ih => exact ih (frame.assign e.1 e.2)

namespace Ir

open FuncCompiler (OperandCompiled PhiCompiled)

variable {L : Name → Option CLocal} {B : Name → Option CBlockId} {t : ThreadId}
  {vals vals' : List Value} {x : ExprCompiler}

/-- The thunk stands for the value, now that as many values are there. -/
abbrev Denotes (t : ThreadId) (vals : List Value) (d : Thunk) (v : Value) : Prop :=
  d.valueIn t vals = some v

theorem Denotes.mono {d : Thunk} {v : Value} (hd : Denotes t vals d v) (h : vals <+: vals') :
    Denotes t vals' d v := by
  cases d with
  | constant w => exact hd
  | cell u i =>
    rw [Denotes, Thunk.valueIn, Option.ite_none_right_eq_some] at hd ⊢
    obtain ⟨ht, hi⟩ := hd
    obtain ⟨rest, rfl⟩ := h
    have hlt : i < vals.length := (List.getElem?_eq_some_iff.mp hi).1
    exact ⟨ht, by rw [List.getElem?_append_left hlt, hi]⟩

/-- The temporaries hold thunks for what the environment has under the names. -/
def Agree (L : Name → Option CLocal) (t : ThreadId) (vals : List Value)
    (temps : CLocal → Option Thunk) (env : Env) : Prop :=
  ∀ name l, L name = some l → Option.Rel (Denotes t vals) (temps l) (env name)

theorem Agree.empty : Agree L t vals (fun _ => none) (fun _ => none) := fun _ _ _ => .none

theorem Agree.mono {temps : CLocal → Option Thunk} {env : Env} (h : Agree L t vals temps env)
    (hv : vals <+: vals') : Agree L t vals' temps env := by
  intro name l hl
  exact rel_mono (h name l hl) fun d v hd => hd.mono hv

theorem Agree.assign (hinj : PartialMap.Injective L) {frame : InterpFrame} {env : Env}
    (h : Agree L t vals frame.temps env) {dest : Name} {l : CLocal} (hl : L dest = some l)
    {d : Thunk} {v : Value} (hd : Denotes t vals d v) :
    Agree L t vals (frame.assign l d).temps (Function.update env dest (some v)) := by
  intro name l' hl'
  by_cases hname : name = dest
  · subst hname
    rw [hl] at hl'
    cases hl'
    rw [InterpFrame.temps_assign, Function.update_self, Function.update_self]
    exact .some hd
  · have hne : l' ≠ l := fun heq => hname (hinj name dest l' hl' (heq ▸ hl))
    rw [InterpFrame.temps_assign, Function.update_of_ne hne, Function.update_of_ne hname]
    exact h name l' hl'

theorem Agree.assignAll (hinj : PartialMap.Injective L) {ds : List (CLocal × Thunk)}
    {vs : List (Name × Value)}
    (hds : List.Forall₂ (fun e e' => L e'.1 = some e.1 ∧ Denotes t vals e.2 e'.2) ds vs)
    {frame : InterpFrame} {env : Env} (h : Agree L t vals frame.temps env) :
    Agree L t vals (frame.assignAll ds).temps (Ssa.assignAll env vs) := by
  induction hds generalizing frame env with
  | nil => exact h
  | cons he hrest ih => exact ih (h.assign hinj he.1 he.2)

theorem rel_lookup_phi (hblockInj : PartialMap.Injective B) {phi : Phi} {c : CPhi}
    (h : PhiCompiled x L B phi c)
    (hsame : ∀ e ∈ phi.incomingValues, ∀ e' ∈ phi.incomingValues, e.2 = e'.2 → e.1 = e'.1)
    {name : Name} {b : CBlockId} (hb : B name = some b) :
    Option.Rel (fun c operand => OperandCompiled x L operand c) (c.mapping.lookup b)
      ((phi.incomingValues.map Prod.swap).lookup name) := by
  apply rel_lookup (P := fun name b => B name = some b)
  · rw [List.forall₂_map_left_iff]
    exact h.mapping
  · intro name' b' hb'
    constructor
    · rintro rfl
      exact Option.some.inj (hb'.symm.trans hb)
    · rintro rfl
      exact hblockInj name' name b' hb' hb
  · intro e he e' he' heq
    obtain ⟨d, hd, rfl⟩ := List.mem_map.mp he
    obtain ⟨d', hd', rfl⟩ := List.mem_map.mp he'
    exact hsame d hd d' hd' heq

inductive SameResult (B : Name → Option CBlockId) (t : ThreadId) (vals : List Value) :
    DecodeResult → Ssa.Result → Prop
  | jump {name : Name} {b : CBlockId} (hb : B name = some b) :
    SameResult B t vals (.jump b) (.jump name)
  | ret {d : Thunk} {v : Value} (hd : Denotes t vals d v) : SameResult B t vals (.ret d) (.ret v)

end Ir
end AtomicSim
