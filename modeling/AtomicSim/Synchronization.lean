import AtomicSim.Allocation
import AtomicSim.Barriers

namespace AtomicSim

open Reorder (Commutes)

/-- The orderings that are to wait for the accesses before them. -/
def Ordering.isRelease : Ordering → Bool
  | release | acqRel | seqCst => true
  | none | relaxed | acquire => false

/-- Of the accesses, only a load reads nothing but its address. -/
def ThunkInner.isLoad (c : ThunkInner) : Bool := c.isMemory && c.deps.length == 1

section Synchronized

variable (S : ThunkInner → Prop) (p : Process)

/-- From `b` on, its thread has a release access in `S`, and up to `c` its thread has an acquire
access in `S` that is resolved later. -/
def Process.Separated (b c : ThunkInner) : Prop :=
  ∃ r ∈ (p.flows b.threadid).decoded, ∃ a ∈ (p.flows c.threadid).decoded,
    (b.seq ≤ r.seq ∧ S r ∧ r.atomicity.isRelease) ∧ (a.seq ≤ c.seq ∧ S a ∧ a.atomicity.isAcquire) ∧
    List.Sublist [(r.threadid, r.seq), (a.threadid, a.seq)] p.trace

instance [DecidablePred S] (b c : ThunkInner) : Decidable (p.Separated S b c) :=
  inferInstanceAs (Decidable (∃ r ∈ (p.flows b.threadid).decoded, _))

/-- Accesses that touch a common byte are loads, or are in `S`, or are separated by accesses in
`S`. -/
def Process.Apart (b c : ThunkInner) : Prop :=
  b.Overlaps p c →
    b.isLoad ∧ c.isLoad ∨ S b ∧ S c ∨ p.Separated S b c ∨ p.Separated S c b

instance [DecidablePred S] (b c : ThunkInner) : Decidable (p.Apart S b c) :=
  inferInstanceAs (Decidable (b.Overlaps p c → _))

/-- Nothing keeps a release before an acquire in place. -/
def Process.Ordered (t : ThreadId) : Prop :=
  ∀ b ∈ (p.flows t).decoded, S b → ∀ c ∈ (p.flows t).decoded, S c → b.seq < c.seq →
    b.atomicity.isAcquire ∨ c.atomicity.isRelease

instance [DecidablePred S] (t : ThreadId) : Decidable (p.Ordered S t) :=
  inferInstanceAs (Decidable (∀ b ∈ (p.flows t).decoded, _))

def Process.Widths (c : ThunkInner) : Prop :=
  ∀ e ∈ c.address, ∀ d ∈ c.deps.tail, ∀ x ∈ d.tryGet p, x.bits = e.2.bits

instance (c : ThunkInner) : Decidable (p.Widths c) :=
  inferInstanceAs (Decidable (∀ e ∈ c.address, _))

/-- The accesses of one thread touch the same bytes or no common byte (`ranges`), with operands of
the widths of their layouts (`widths`), and those of different threads are apart (`apart`). What is
in `S` is an access (`memory`); of two of one thread the earlier is acquire or the later is release
(`ordered`), and one before an allocation is acquire (`alloc`), as `step_pure` keeps nothing else
in place. -/
structure Process.Synchronized : Prop where
  ranges : ∀ t, p.RangesApart t
  widths : ∀ t, ∀ c ∈ (p.flows t).decoded, p.Widths c
  memory : ∀ t, ∀ c ∈ (p.flows t).decoded, S c → c.isMemory
  ordered : ∀ t, p.Ordered S t
  alloc : ∀ t, ∀ b ∈ (p.flows t).decoded, S b → ∀ c ∈ (p.flows t).decoded, c.Allocates →
    b.seq < c.seq → b.atomicity.isAcquire
  apart : ∀ t u, t ≠ u → ∀ b ∈ (p.flows t).decoded, ∀ c ∈ (p.flows u).decoded, p.Apart S b c

/-- The accesses in `S` are the barriers that their orderings ask for. -/
structure Process.KeepsBarriers : Prop where
  acquire : p.InOrder fun _ b _ => S b ∧ b.atomicity.isAcquire
  release : p.InOrder fun _ b c => b.isMemory ∧ S c ∧ c.atomicity.isRelease

end Synchronized

section Barriers

variable {S : ThunkInner → Prop}

theorem clears_acquire : Clears (fun p c => S c → BarrierSeen p c) fun _ b _ =>
    b.isMemory ∧ S b ∧ b.atomicity.isAcquire := by
  rintro p q b c - he - - hb - ⟨hm, hS, ha⟩
  obtain ⟨q', hG, hal⟩ := he.barrier b hb hm ha
  exact hG hS hm ha hal

theorem clears_releases : Clears (fun p c => S c → AtomicsResolved p c) fun p _ c =>
    (p.WF ∧ p.DepsEarlier) ∧ c.isMemory ∧ S c ∧ c.atomicity.isRelease := by
  rintro p q b c hp he ho hpq hb - ⟨⟨hq, hd⟩, hm, hS, hrel⟩
  have hoff : Offered (fun p c => S c → AtomicsResolved p c) p c := ho (by
    rw [ThunkInner.isAtomic, hm, Bool.true_and, bne_iff_ne]
    rintro h
    rw [h] at hrel
    cases hrel)
  have hdp := hd.mono hq hpq
  obtain ⟨u, hu, hub⟩ := exists_head_of_mem_before hp hb
  have hresolved : c.atomicity ∈ [.acqRel, .seqCst] → False := by
    intro hat
    obtain ⟨q', hq', hG⟩ := he.cond
    refine hG hS hm hat (hq'.aliased.not.mpr (he.clear hm).2) u (hq'.before ▸ hub)
      (hoff.head hp hdp hu) ?_
    rw [hq'.value]
    exact hoff.settled u (Process.mem_before.mp hub).1
  cases hat : c.atomicity with
  | none | relaxed | acquire =>
    rw [hat] at hrel
    cases hrel
  | acqRel | seqCst => exact hresolved (by simp [hat])
  | release =>
    rw [hoff.release hdp hat] at hu
    cases hu
    exact lt_irrefl _ (Process.mem_before.mp hub).2

theorem Reachable.mono {G G' : Process → ThunkInner → Prop} {c : Config} (h : Reachable G c)
    (hG : ∀ p c, G p c → G' p c) : Reachable G' c := by
  induction h with
  | new memory => exact .new memory
  | act _ ha hv ih => exact .act ih ha fun v hm => hG _ _ (hv v hm)

/-- A run keeps the barriers if its passes do not come to the two places where `step_pure` misses
them. -/
theorem Reachable.keepsBarriers {c : Config}
    (h : Reachable (fun p c => S c → BarrierSeen p c ∧ AtomicsResolved p c) c)
    (hd : c.process.DepsEarlier) (hs : c.process.Synchronized S) : c.process.KeepsBarriers S := by
  have hacq := (h.mono fun _ _ hc hS => (hc hS).1).inOrder clears_acquire
  have hrel := (h.mono fun _ _ hc hS => (hc hS).2).inOrder_of_deps clears_releases hd
  refine ⟨fun k hk x hx e he j hj b hb hP => ?_, fun k hk x hx e he j hj b hb hP => ?_⟩
  · exact hacq k hk x hx e he j hj b hb ⟨hs.memory _ b (List.mem_of_getElem? hb) hP.1, hP⟩
  · exact hrel k hk x hx e he j hj b hb ⟨hs.memory _ e (List.mem_of_getElem? he) hP.2.1, hP.2⟩

end Barriers

section Accesses

variable {p : Process} {a b : Instr} {t u : ThreadId} {i j : ℕ}

theorem widths_fill (h : p.Widths (a.args.thunk t i)) : (a.fill p.value).Widths noValue := by
  have hget : ∀ {d : Thunk} {layout : Layout}, (∀ x ∈ d.tryGet p, x.bits = layout.bits) →
      ∀ x ∈ ((d.look p.value).elim d Thunk.constant).get noValue, x.bits = layout.bits := by
    intro d layout hd
    rwa [get_fill, ← tryGet_eq_look]
  cases a with
  | thunk _ _ | load _ _ _ => trivial
  | store address layout value atomicity | atomicrmw layout address value atomicity operation =>
    exact hget (h _ rfl value List.mem_cons_self)
  | cmpxchg layout address expected replacement success failure =>
    exact ⟨hget (h _ rfl expected List.mem_cons_self),
      hget (h _ rfl replacement (List.mem_cons_of_mem _ List.mem_cons_self))⟩

theorem isLoad_fill {value : ThreadId → ℕ → Option Value} (h : (a.args.thunk t i).isLoad) :
    (a.fill value).isLoad := by
  cases a with
  | load _ _ _ => rfl
  | thunk _ _ | store _ _ _ _ | cmpxchg _ _ _ _ _ _ | atomicrmw _ _ _ _ _ => cases h

theorem overlaps_thunk (h : ((a.fill p.value).bytes noValue).Overlaps
    ((b.fill p.value).bytes noValue)) :
    (a.args.thunk t i).Overlaps p (b.args.thunk u j) :=
  ⟨_, range_of_range_fill (range_of_overlaps h), _,
    range_of_range_fill (range_of_overlaps (Range.overlaps_comm.mp h)), h⟩

end Accesses

section Interleaved

variable {S : ThunkInner → Prop} {prog : ThreadId → List Op} {memory : Memory}
variable {acts : List Action} {c : Config} {values : ThreadId → List Value} {x y : ThreadId × ℕ}

theorem Process.Completes.getElem? (h : c.process.Completes Op.args prog) {t : ThreadId} {i : ℕ}
    {op : Op} (hop : (prog t)[i]? = some op) :
    (c.process.flows t).decoded[i]? = some (op.args.thunk t i) := by
  rw [h.decoded, hop, Option.map_some]

/-- What has to keep its place: allocations and the accesses in `S`. -/
def Marked (S : ThunkInner → Prop) (prog : ThreadId → List Op) (p : Process)
    (x : ThreadId × ℕ) : Prop :=
  (∃ op ∈ (prog x.1)[x.2]?, op.isAllocation) ∨ ∃ b ∈ (p.flows x.1).decoded[x.2]?, S b

/-- Operations commute if they are not both allocations, and only loads touch a common byte. -/
theorem commutes_of_overlaps (hp : c.process.WF) (hc : c.process.Completes Op.args prog)
    (hv : ∀ t i, (values t)[i]? = c.process.value t i)
    (hwidths : ∀ t, ∀ d ∈ (c.process.flows t).decoded, c.process.Widths d)
    (hG : ¬ ((∃ op ∈ (prog x.1)[x.2]?, op.isAllocation) ∧ ∃ op ∈ (prog y.1)[y.2]?, op.isAllocation))
    (hfree : ∀ b ∈ (c.process.flows x.1).decoded[x.2]?, ∀ d ∈ (c.process.flows y.1).decoded[y.2]?,
      b.Overlaps c.process d → b.isLoad ∧ d.isLoad) :
    Commutes (Interleave.action (callIn Op.args) prog values) x y := by
  have hact : ∀ {z : ThreadId × ℕ} {op : Op}, (prog z.1)[z.2]? = some op →
      Interleave.action (callIn Op.args) prog values z = callWith Op.args c.process.value op :=
    fun h => action_eq hv h fun d hd => hc.before hp h hd
  have hfill : ∀ {z : ThreadId × ℕ} {a : Instr}, (prog z.1)[z.2]? = some (.instr a) →
      (a.fill c.process.value).Widths noValue :=
    fun h => widths_fill (hwidths _ _ (List.mem_of_getElem? (hc.getElem? h)))
  have hbump : ∀ {z w : ThreadId × ℕ} {a : Instr} {op : Op}, (prog z.1)[z.2]? = some (.instr a) →
      (prog w.1)[w.2]? = some op → op.isAllocation →
      Commutes (Interleave.action (callIn Op.args) prog values) z w := by
    intro z w a op hz hw hop
    have hconf : Confined ((a.fill c.process.value).bytes noValue)
        (Interleave.action (callIn Op.args) prog values z) := by
      have h := Instr.confined (hfill hz)
      rw [call_fill] at h
      rwa [hact hz]
    exact commutes_of_bumps hconf (hact hw ▸ Op.bumps hop _)
  have hnone : ∀ {z w : ThreadId × ℕ}, (prog z.1)[z.2]? = none →
      Commutes (Interleave.action (callIn Op.args) prog values) z w := by
    intro z w hz
    refine commutes_of_thunk fun op hop => ?_
    rw [hz] at hop
    cases hop
  cases hx : (prog x.1)[x.2]? with
  | none => exact hnone hx
  | some op =>
    cases hy : (prog y.1)[y.2]? with
    | none => exact (hnone hy).symm
    | some op' =>
      cases op with
      | instr a =>
        cases op' with
        | instr b =>
          refine Instr.commutes (hact hx) (hact hy) (hfill hx) (hfill hy) fun ho => ?_
          have hloads := hfree _ (hc.getElem? hx) _ (hc.getElem? hy) (overlaps_thunk ho)
          exact ⟨isLoad_fill hloads.1, isLoad_fill hloads.2⟩
        | alloc deps layout => exact hbump hx hy rfl
      | alloc deps layout =>
        cases op' with
        | instr b => exact (hbump hy hx rfl).symm
        | alloc deps' layout' => exact absurd ⟨⟨_, hx, rfl⟩, _, hy, rfl⟩ hG

theorem Process.Completes.allocates (h : c.process.Completes Op.args prog)
    (hx : ∃ op ∈ (prog x.1)[x.2]?, op.isAllocation) :
    ∃ b, (c.process.flows x.1).decoded[x.2]? = some b ∧ b.Allocates := by
  obtain ⟨op, hop, hal⟩ := hx
  exact ⟨_, h.getElem? hop, op, hal, rfl⟩

theorem Process.InOrder.key_lt {P : Process → ThunkInner → ThunkInner → Prop} {p : Process}
    (h : p.InOrder P) {key : ThreadId × ℕ → ℕ} (hkey : p.trace.Pairwise fun x y => key x < key y)
    (hy : y ∈ p.trace) (heq : x.1 = y.1) (hlt : x.2 < y.2) {b d : ThunkInner}
    (hb : (p.flows x.1).decoded[x.2]? = some b) (hd : (p.flows y.1).decoded[y.2]? = some d)
    (hP : P p b d) : key x < key y := by
  obtain ⟨k, hk, rfl⟩ := List.mem_iff_getElem.mp hy
  have hmem := h k hk _ (List.getElem?_eq_getElem hk) d hd x.2 hlt b (heq ▸ hb) hP
  rw [← heq, Prod.mk.eta, List.mem_take_iff_getElem] at hmem
  obtain ⟨j, hj, rfl⟩ := hmem
  exact List.pairwise_iff_getElem.mp hkey j k _ hk (lt_min_iff.mp hj).1

theorem Process.Separated.exists {p : Process} {b d : ThunkInner} (hp : p.WF)
    (hb : (p.flows x.1).decoded[x.2]? = some b) (hd : (p.flows y.1).decoded[y.2]? = some d)
    (h : p.Separated S b d) : ∃ i j r a,
      (x.2 ≤ i ∧ (p.flows x.1).decoded[i]? = some r ∧ S r ∧ r.atomicity.isRelease) ∧
      (j ≤ y.2 ∧ (p.flows y.1).decoded[j]? = some a ∧ S a ∧ a.atomicity.isAcquire) ∧
      List.Sublist [(x.1, i), (y.1, j)] p.trace := by
  obtain ⟨r, hr, a, ha, ⟨hbr, hSr, hrel⟩, ⟨had, hSa, hacq⟩, hsub⟩ := h
  rw [(hp.numbered hb).1] at hr
  rw [(hp.numbered hd).1] at ha
  rw [(hp.numbered hb).2] at hbr
  rw [(hp.numbered hd).2] at had
  obtain ⟨i, hi⟩ := List.mem_iff_getElem?.mp hr
  obtain ⟨j, hj⟩ := List.mem_iff_getElem?.mp ha
  obtain ⟨hrt, rfl⟩ := hp.numbered hi
  obtain ⟨hat, rfl⟩ := hp.numbered hj
  rw [hrt, hat] at hsub
  exact ⟨r.seq, a.seq, r, a, ⟨hbr, hi, hSr, hrel⟩, ⟨had, hj, hSa, hacq⟩, hsub⟩

/-- If what touches common bytes is separated by barriers, then the run finds the values and
leaves the memory of some interleaving of its threads. -/
theorem exists_interleaved_of_keepsBarriers
    (h : (Config.decoding (.new memory)).run acts = some c) (hc : c.process.Completes Op.args prog)
    (hs : c.process.Synchronized S) (hb : c.process.KeepsBarriers S)
    (ha : c.process.AllocatesInOrder) :
    ∃ schedule s, interleaved Op.args prog memory schedule = some s ∧
      s.shared = c.process.memory ∧ ∀ t i, (s.values t)[i]? = c.process.value t i := by
  have hreach : Reachable (fun _ _ => True) c := (Reachable.new memory).run h fun _ _ => trivial
  obtain ⟨hp, hrec, -⟩ := (invariant_recorded memory).run
    (Config.good_new (recorded_new memory)) h fun _ _ => trivial
  obtain ⟨values, hlen, hv⟩ := hc.exists_values hp
  have halloc := hreach.pairwise_allocates ha hrec.nodup
  have hranges := pairwise_trace (hreach.inOrder clears_rangesApart) hrec.nodup
  have hacq := pairwise_trace hb.acquire hrec.nodup
  have hrel := pairwise_trace hb.release hrec.nodup
  have hG : c.process.trace.Pairwise fun x y => x.1 = y.1 → Marked S prog c.process x →
      Marked S prog c.process y → x.2 < y.2 := by
    refine (((halloc.and hacq).and hrel).and hrec.nodup).imp ?_
    rintro x y ⟨⟨⟨halloc, hacq⟩, hrel⟩, hne⟩ heq hx hy
    by_contra hle
    rcases (Nat.not_lt.mp hle).eq_or_lt with h | hlt
    · exact hne (Prod.ext heq h.symm)
    -- the later operation `x` is resolved first, which what `y` is forbids
    rcases hy with hal | ⟨b, hb, hSb⟩
    · obtain ⟨b, hb, hbal⟩ := hc.allocates hal
      rcases hx with hal' | ⟨d, hd, hSd⟩
      · obtain ⟨d, hd, hdal⟩ := hc.allocates hal'
        exact halloc heq hlt b hb d hd hbal (.inl hdal)
      · exact halloc heq hlt b hb d hd hbal (.inr (hs.memory _ d (List.mem_of_getElem? hd) hSd))
    · have hmem := List.mem_of_getElem? hb
      rcases hx with hal | ⟨d, hd, hSd⟩
      · obtain ⟨d, hd, hdal⟩ := hc.allocates hal
        have hseq : b.seq < d.seq := by rwa [(hp.numbered hb).2, (hp.numbered hd).2]
        have hbacq := hs.alloc x.1 b (heq ▸ hmem) hSb d (List.mem_of_getElem? hd) hdal hseq
        exact hacq heq hlt b hb d hd ⟨hSb, hbacq⟩
      · have hmem' := List.mem_of_getElem? hd
        have hseq : b.seq < d.seq := by rwa [(hp.numbered hb).2, (hp.numbered hd).2]
        rcases hs.ordered x.1 b (heq ▸ hmem) hSb d hmem' hSd hseq with hbacq | hdrel
        · exact hacq heq hlt b hb d hd ⟨hSb, hbacq⟩
        · exact hrel heq hlt b hb d hd ⟨hs.memory _ b hmem hSb, hSd, hdrel⟩
  obtain ⟨key, hkey⟩ := Interleave.exists_key hrec.nodup
  -- what separates two accesses keeps them in this order
  have hseparated : ∀ {x y : ThreadId × ℕ} {b d : ThunkInner},
      (c.process.flows x.1).decoded[x.2]? = some b → (c.process.flows y.1).decoded[y.2]? = some d →
      b.isMemory → y ∈ c.process.trace → c.process.Separated S b d → key x < key y := by
    intro x y b d hb' hd hm hy hsep
    obtain ⟨i, j, r, a, ⟨hxi, hr, hSr, hrel⟩, ⟨hjy, ha, hSa, hacq⟩, hsub⟩ := hsep.exists hp hb' hd
    have hri := List.pairwise_iff_forall_sublist.mp hkey hsub
    have hxr : key x ≤ key (x.1, i) := by
      rcases hxi.eq_or_lt with rfl | hlt
      · exact le_rfl
      · exact (hb.release.key_lt (x := x) hkey (hsub.subset List.mem_cons_self) rfl hlt hb' hr
          ⟨hm, hSr, hrel⟩).le
    have hay : key (y.1, j) ≤ key y := by
      rcases hjy.eq_or_lt with rfl | hlt
      · exact le_rfl
      · exact (hb.acquire.key_lt (x := (y.1, j)) hkey hy rfl hlt ha hd ⟨hSa, hacq⟩).le
    exact (hxr.trans_lt hri).trans_le hay
  have hcomm : c.process.trace.Pairwise fun x y => ¬ (Marked S prog c.process x ∧
      Marked S prog c.process y) → ¬ (x.1 = y.1 ∧ x.2 < y.2) →
      ¬ Interleave.Separated (Marked S prog c.process) c.process.trace x y →
      Commutes (Interleave.action (callIn Op.args) prog values) x y := by
    refine ((hranges.and hkey).and hrec.nodup).imp_of_mem ?_
    rintro x y hx hy ⟨⟨hranges, hlt⟩, hne⟩ hG hord hsep
    refine commutes_of_overlaps hp hc hv hs.widths (fun hal => hG ⟨.inl hal.1, .inl hal.2⟩) ?_
    intro b hb d hd ho
    obtain ⟨r, hr, s, hs', hrs⟩ := ho
    by_cases heq : x.1 = y.1
    · rcases Nat.lt_trichotomy x.2 y.2 with h | h | h
      · exact absurd ⟨heq, h⟩ hord
      · exact absurd (Prod.ext heq h) hne
      · refine absurd ⟨hs.ranges _, s, hs', r, hr, ?_⟩ (hranges heq h d hd b hb)
        exact Range.overlaps_comm.mp hrs
    · have hapart := hs.apart _ _ heq b (List.mem_of_getElem? hb) d (List.mem_of_getElem? hd)
      rcases hapart ⟨r, hr, s, hs', hrs⟩ with hloads | hsync | hbd | hdb
      · exact hloads
      · exact absurd ⟨.inr ⟨b, hb, hsync.1⟩, .inr ⟨d, hd, hsync.2⟩⟩ hG
      · obtain ⟨i, j, r, a, ⟨hxi, hr, hSr, -⟩, ⟨hjy, ha, hSa, -⟩, hsub⟩ := hbd.exists hp hb hd
        exact absurd ⟨(x.1, i), (y.1, j), ⟨rfl, hxi, .inr ⟨r, hr, hSr⟩⟩,
          ⟨rfl, hjy, .inr ⟨a, ha, hSa⟩⟩, hsub⟩ hsep
      · exact absurd (hseparated hd hb (isMemory_of_range hs') hx hdb) hlt.asymm
  obtain ⟨schedule, hsched, hrep⟩ := Interleave.exists_schedule id Function.injective_id
    (hc.mem_trace hp) hrec.nodup hG hcomm
  obtain ⟨s, hs⟩ := interleaved_of_replays hlen hv hsched (hrep.mpr (hc.replays_trace hp hrec hv))
  exact ⟨schedule, s, hs⟩

theorem exists_interleaved (h : (Config.decoding (.new memory)).run acts = some c)
    (hc : c.process.Completes Op.args prog)
    (hsync : (∃ S, c.process.Synchronized S ∧ c.process.KeepsBarriers S) ∨ c.process.AllAcquire)
    (ha : c.process.AllocatesInOrder) :
    ∃ schedule s, interleaved Op.args prog memory schedule = some s ∧
      s.shared = c.process.memory ∧ ∀ t i, (s.values t)[i]? = c.process.value t i := by
  rcases hsync with ⟨S, hs, hb⟩ | hacq
  · exact exists_interleaved_of_keepsBarriers h hc hs hb ha
  · have hreach : Reachable (fun _ _ => True) c := (Reachable.new memory).run h fun _ _ => trivial
    obtain ⟨hp, hrec, -⟩ := (invariant_recorded memory).run
      (Config.good_new (recorded_new memory)) h fun _ _ => trivial
    obtain ⟨values, hlen, hv⟩ := hc.exists_values hp
    let G : ThreadId × ℕ → Prop := fun x =>
      ∃ op ∈ (prog x.1)[x.2]?, op.isAllocation ∨ op.args.address ≠ none
    have halloc := hreach.pairwise_allocates ha hrec.nodup
    have horder := pairwise_trace ((hreach.clearBefore hacq).inOrder clears_clearBefore) hrec.nodup
    have hG : c.process.trace.Pairwise fun x y => x.1 = y.1 → G x → G y → x.2 < y.2 := by
      refine ((halloc.and horder).and hrec.nodup).imp ?_
      rintro x y ⟨⟨halloc, horder⟩, hne⟩ heq ⟨op, hop, hx⟩ ⟨op', hop', hy⟩
      by_contra hle
      rcases (Nat.not_lt.mp hle).eq_or_lt with h | hlt
      · exact hne (Prod.ext heq h.symm)
      rcases hy with hal | hm
      · refine halloc heq hlt _ (hc.getElem? hop') _ (hc.getElem? hop) ⟨op', hal, rfl⟩ ?_
        exact hx.imp (fun hal' => ⟨op, hal', rfl⟩) Option.isSome_iff_ne_none.mpr
      · exact horder heq hlt _ (hc.getElem? hop') _ (hc.getElem? hop)
          (Option.isSome_iff_ne_none.mpr hm)
    have hthunk : ∀ {x y}, ¬ G x → Commutes (Interleave.action (callIn Op.args) prog values) x y := by
      intro x y hx
      refine commutes_of_thunk fun op hop => ?_
      cases op with
      | instr a =>
        refine Instr.exists_thunk ?_
        by_contra hne
        exact hx ⟨_, hop, .inr hne⟩
      | alloc deps layout => exact absurd ⟨_, hop, .inl rfl⟩ hx
    obtain ⟨schedule, hsched, hrep⟩ := Interleave.exists_schedule id Function.injective_id
      (hc.mem_trace hp) hrec.nodup hG (List.pairwise_of_forall fun x y hnot _ _ => by
        by_cases hx : G x
        · exact (hthunk fun hy => hnot ⟨hx, hy⟩).symm
        · exact hthunk hx)
    obtain ⟨s, hs⟩ := interleaved_of_replays hlen hv hsched (hrep.mpr (hc.replays_trace hp hrec hv))
    exact ⟨schedule, s, hs⟩

/-- Acquire and release accesses synchronize: if they separate what touches common bytes, and
`step_pure` does not miss them as barriers, then the run finds the values and leaves the memory of
some interleaving of its threads. -/
theorem synchronized_consistent (h : (Config.decoding (.new memory)).run acts = some c)
    (hc : c.process.Completes Op.args prog) (hs : c.process.Synchronized S)
    (hv : ∀ v ∈ (Config.decoding (.new memory)).runVisits acts,
      S v.2 → BarrierSeen v.1 v.2 ∧ AtomicsResolved v.1 v.2)
    (ha : c.process.AllocatesInOrder) :
    ∃ schedule s, interleaved Op.args prog memory schedule = some s ∧
      s.shared = c.process.memory ∧ ∀ t i, (s.values t)[i]? = c.process.value t i := by
  have hreach := (Reachable.new memory).run (G := fun p d => S d → BarrierSeen p d ∧
    AtomicsResolved p d) h hv
  exact exists_interleaved_of_keepsBarriers h hc hs (hreach.keepsBarriers hc.earlier hs) ha

end Interleaved

theorem runVisits_decodes {p p' : Process} {ds : List Decode}
    (h : ds.foldlM Process.decode p = some p') (acts : List Action) :
    (Config.decoding p).runVisits (ds.map .decode ++ acts) = (Config.decoding p').runVisits acts := by
  induction ds generalizing p with
  | nil =>
    cases h
    rfl
  | cons d ds ih =>
    rw [List.foldlM_cons] at h
    obtain ⟨q, hq, h⟩ := Option.bind_eq_some_iff.mp h
    rw [List.map_cons, List.cons_append, Config.runVisits, Config.act, hq]
    exact ih h

/-- The first thread writes two words, one of which it has to read first, and raises a flag; the
second looks at the flag and reads the words. -/
def messagePassing : ThreadId → List Op
  | 0 => [.instr (.load (ptr 384) i32 .relaxed), .instr (.store (ptr 128) i32 (.cell 0 0) .none),
    .instr (.store (ptr 512) i32 (int 9) .none), .instr (.store (ptr 256) i32 (int 1) .release)]
  | 1 => [.instr (.load (ptr 256) i32 .acquire), .instr (.load (ptr 128) i32 .none),
    .instr (.load (ptr 512) i32 .none)]
  | _ => []

def ThunkInner.isBarrier (c : ThunkInner) : Bool :=
  c.atomicity.isAcquire || c.atomicity.isRelease

instance (p : Process) (t : ThreadId) : Decidable (p.RangesApart t) :=
  inferInstanceAs (Decidable (∀ b ∈ (p.flows t).decoded, _))

/-- What `Synchronized` says of the threads below `n`, where nothing is decoded but accesses. -/
def Process.SynchronizedBelow (S : ThunkInner → Prop) (n : ℕ) (p : Process) : Prop :=
  (∀ t < n, p.RangesApart t ∧ p.Ordered S t ∧
    ∀ b ∈ (p.flows t).decoded, b.isMemory ∧ p.Widths b) ∧
  ∀ t < n, ∀ u < n, t = u ∨
    ∀ b ∈ (p.flows t).decoded, ∀ d ∈ (p.flows u).decoded, p.Apart S b d

instance (S : ThunkInner → Prop) [DecidablePred S] (n : ℕ) (p : Process) :
    Decidable (p.SynchronizedBelow S n) :=
  inferInstanceAs (Decidable (_ ∧ _))

section Below

variable {S : ThunkInner → Prop} {n : ℕ} {p : Process}

theorem lt_of_mem_decoded (hp : p.WF) (hn : p.nextThreadid = n) {t : ThreadId} {b : ThunkInner}
    (hb : b ∈ (p.flows t).decoded) : t < n := by
  by_contra hle
  rw [hp.fresh (hn.trans_le (Nat.not_lt.mp hle))] at hb
  cases hb

theorem Process.SynchronizedBelow.not_allocates (h : p.SynchronizedBelow S n) (hp : p.WF)
    (hn : p.nextThreadid = n) {t : ThreadId} {b : ThunkInner} (hb : b ∈ (p.flows t).decoded) :
    ¬ b.Allocates := by
  intro hal
  have hm := ((h.1 t (lt_of_mem_decoded hp hn hb)).2.2 b hb).1
  rw [hal.isMemory] at hm
  cases hm

theorem Process.SynchronizedBelow.synchronized (h : p.SynchronizedBelow S n) (hp : p.WF)
    (hn : p.nextThreadid = n) : p.Synchronized S := by
  have hlt := fun {t b} => lt_of_mem_decoded (t := t) (b := b) hp hn
  refine ⟨fun t b hb => ?_, fun t b hb => ?_, fun t b hb _ => ?_, fun t b hb => ?_,
    fun t b hb _ d hd => ?_, fun t u hne b hb d hd => ?_⟩
  · exact (h.1 t (hlt hb)).1 b hb
  · exact ((h.1 t (hlt hb)).2.2 b hb).2
  · exact ((h.1 t (hlt hb)).2.2 b hb).1
  · exact (h.1 t (hlt hb)).2.1 b hb
  · exact fun hal => absurd hal (h.not_allocates hp hn hd)
  · exact (h.2 t (hlt hb) u (hlt hd)).resolve_left hne b hb d hd

end Below

theorem synchronized_consistent_messagePassing : ∃ c : Config, ∃ schedule s,
    c.process.trace = [(0, 2), (0, 0), (0, 1), (0, 3), (1, 0), (1, 1), (1, 2)] ∧
    interleaved Op.args messagePassing .new schedule = some s ∧ s.shared = c.process.memory ∧
    ∀ t i, (s.values t)[i]? = c.process.value t i := by
  let ops : List (ThreadId × Op) :=
    [0, 1].flatMap fun t => (messagePassing t).map fun a => (t, a)
  let ds : List Decode := .replicate 2 .addThread ++ ops.map fun x => x.2.args.decode x.1
  let acts : List Action := [.pass, .pass, .choose 0, .pass, .pass, .choose 0, .pass, .choose 0,
    .pass]
  have hrun : ∃ p ∈ ds.foldlM Process.decode (.new .new), ∃ c ∈ (Config.decoding p).run acts,
      c.process.trace = [(0, 2), (0, 0), (0, 1), (0, 3), (1, 0), (1, 1), (1, 2)] ∧
      c.process.DepsEarlier ∧ c.process.nextThreadid = 2 ∧ (∀ e ∈ c.process.log, e.id ≠ none) ∧
      (∀ t < 2, (c.process.flows t).decoded.length = (messagePassing t).length ∧
        ∀ i < (messagePassing t).length, c.process.value t i ≠ none) ∧
      (∀ v ∈ (Config.decoding p).runVisits acts,
        v.2.isBarrier → BarrierSeen v.1 v.2 ∧ AtomicsResolved v.1 v.2) ∧
      c.process.SynchronizedBelow (fun a => a.isBarrier) 2 := by decide +kernel
  obtain ⟨p, hp, c, hc, htrace, hearlier, hnext, hlocals, hall, hv, hsync⟩ := hrun
  have hprog : ∀ t, messagePassing t = (ops.filter fun x => x.1 = t).map Prod.snd := by
    rintro (_ | _ | t)
    · rfl
    · rfl
    · rfl
  have hrun : (Config.decoding (.new .new)).run (ds.map .decode ++ acts) = some c :=
    (Config.run_append (run_decodes hp)).trans hc
  have hcomp := completes_of_decodes hprog hp hc hnext hearlier hlocals hall
  have hwf := ((invariant_recorded .new).run (Config.good_new (recorded_new .new)) hrun
    fun _ _ => trivial).wf
  have hs : c.process.Synchronized fun a => a.isBarrier :=
    hsync.synchronized hwf hnext
  have hvisits : ∀ v ∈ (Config.decoding (.new .new)).runVisits (ds.map .decode ++ acts),
      v.2.isBarrier → BarrierSeen v.1 v.2 ∧ AtomicsResolved v.1 v.2 := by
    rw [runVisits_decodes hp]
    exact hv
  have halloc : c.process.AllocatesInOrder := Process.allocatesInOrder_of_constant
    fun t b hb hal => absurd hal (hsync.not_allocates hwf hnext hb)
  obtain ⟨schedule, s, hs⟩ := synchronized_consistent hrun hcomp hs hvisits halloc
  exact ⟨c, schedule, s, htrace, hs⟩

end AtomicSim
