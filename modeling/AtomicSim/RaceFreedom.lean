import AtomicSim.Interleaving

namespace AtomicSim

open Reorder (Commutes Replays)

namespace Instr

def map (f : Thunk → Thunk) : Instr → Instr
  | thunk deps compute => thunk (deps.map f) compute
  | load address layout atomicity => load (f address) layout atomicity
  | store address layout value atomicity => store (f address) layout (f value) atomicity
  | cmpxchg layout address expected replacement success failure =>
    cmpxchg layout (f address) (f expected) (f replacement) success failure
  | atomicrmw layout address value atomicity operation =>
    atomicrmw layout (f address) (f value) atomicity operation

def fill (value : ThreadId → ℕ → Option Value) (a : Instr) : Instr :=
  a.map fun d => (d.look value).elim d .constant

def isLoad : Instr → Bool
  | load _ _ _ => true
  | thunk _ _ | store _ _ _ _ | cmpxchg _ _ _ _ _ _ | atomicrmw _ _ _ _ _ => false

end Instr

def noValue : ℕ → Option Value := fun _ => none

section Fill

variable {value : ThreadId → ℕ → Option Value} {p : Process} {a : Instr} {t : ThreadId} {i : ℕ}

theorem get_fill (d : Thunk) :
    ((d.look value).elim d Thunk.constant).get noValue = d.look value := by
  cases hd : d.look value with
  | some v => rfl
  | none =>
    cases d with
    | constant v => cases hd
    | cell u j => exact ite_self none

theorem call_fill : (a.fill value).call noValue = callWith Instr.args value a := by
  have hdeps : (a.fill value).args.deps =
      a.args.deps.map fun d => (d.look value).elim d .constant := by
    cases a <;> rfl
  have hcomp : (a.fill value).args.compute = a.args.compute := by
    cases a <;> rfl
  have hargs : (a.fill value).args.deps.mapM (Thunk.get noValue) =
      a.args.deps.mapM (Thunk.look value) := by
    rw [hdeps, List.mapM_map]
    exact mapM_congr fun d _ => get_fill d
  funext m
  rw [Instr.call, callWith, hargs, hcomp]

theorem range_fill_of_range (hB : ∀ t i v, p.value t i = some v → value t i = some v)
    {r : Range ℕ} (h : (a.args.thunk t i).range p = some r) :
    (a.fill value).range noValue = some r := by
  have haddr : ∀ {address : Thunk} {layout : Layout},
      ((address.tryGet p).map fun v => (⟨v.asU64, v.asU64 + layout.bytes⟩ : Range ℕ)) = some r →
      (((address.look value).elim address Thunk.constant).get noValue).map
        (fun v => (⟨v.asU64, v.asU64 + layout.bytes⟩ : Range ℕ)) = some r := by
    intro address layout h
    obtain ⟨v, hv, hr⟩ := Option.map_eq_some_iff.mp h
    rw [get_fill, Option.map_eq_some_iff]
    refine ⟨v, ?_, hr⟩
    cases address with
    | constant w => exact hv
    | cell u j => exact hB u j v hv
  cases a with
  | thunk deps compute => cases h
  | load _ _ _ | store _ _ _ _ | cmpxchg _ _ _ _ _ _ | atomicrmw _ _ _ _ _ => exact haddr h

theorem range_of_range_fill {r : Range ℕ} (h : (a.fill p.value).range noValue = some r) :
    (a.args.thunk t i).range p = some r := by
  have haddr : ∀ {address : Thunk} {layout : Layout},
      (((address.look p.value).elim address Thunk.constant).get noValue).map
        (fun v => (⟨v.asU64, v.asU64 + layout.bytes⟩ : Range ℕ)) = some r →
      ((address.tryGet p).map fun v => (⟨v.asU64, v.asU64 + layout.bytes⟩ : Range ℕ)) = some r := by
    intro address layout h
    rwa [get_fill, ← tryGet_eq_look] at h
  cases a with
  | thunk deps compute => cases h
  | load _ _ _ | store _ _ _ _ | cmpxchg _ _ _ _ _ _ | atomicrmw _ _ _ _ _ => exact haddr h

theorem isMemory_of_range_fill {r : Range ℕ} (h : (a.fill value).range noValue = some r) :
    (a.args.thunk t i).isMemory := by
  have hm := isMemory_of_range_eq_some (i := i) h t
  cases a <;> exact hm

theorem read_of_isLoad (h : (a.fill value).isLoad) {m m' : Memory} {v : Value}
    (hc : callWith Instr.args value a m = some (v, m')) : m' = m := by
  cases a with
  | load address layout atomicity =>
    obtain ⟨args, hargs, hcomp⟩ := Option.bind_eq_some_iff.mp hc
    obtain ⟨x, hx, rfl⟩ := mapM_singleton hargs
    have hcomp' := (compute_load address layout atomicity m x).symm.trans hcomp
    obtain ⟨w, -, hw⟩ := Option.map_eq_some_iff.mp hcomp'
    exact (Prod.mk.inj hw).2.symm
  | thunk _ _ | store _ _ _ _ | cmpxchg _ _ _ _ _ _ | atomicrmw _ _ _ _ _ => cases h

end Fill

theorem commutes_of_confined {ι : Type*} {act : ι → Memory → Option (Value × Memory)} {i j : ι}
    {r s : Range ℕ} (hi : Confined r (act i)) (hj : Confined s (act j)) (hd : ¬ r.Overlaps s) :
    Commutes act i j := by
  intro m v w m'
  constructor
  · rintro ⟨m₁, h₁, h₂⟩
    exact hi.swap hj hd h₁ h₂
  · rintro ⟨m₁, h₁, h₂⟩
    exact hj.swap hi (Range.overlaps_comm.not.mp hd) h₁ h₂

/-- Two accesses touch a common byte, and not both are loads. -/
def Instr.Races (a b : Instr) : Prop :=
  ∃ r ∈ a.range noValue, ∃ s ∈ b.range noValue, r.Overlaps s ∧ ¬ (a.isLoad ∧ b.isLoad)

instance (a b : Instr) : Decidable (a.Races b) :=
  inferInstanceAs (Decidable (∃ r ∈ a.range noValue, _))

/-- With the given values of the thunks, the accesses of one thread are regular (they touch the same
bytes or no common byte, and their operands have the widths of their layouts), and accesses of
different threads do not race. -/
structure RaceFree (prog : ThreadId → List Instr) (value : ThreadId → ℕ → Option Value) :
    Prop where
  regular : ∀ t, Regular ((prog t).map (Instr.fill value)) noValue
  free : ∀ t u, t ≠ u → ∀ a ∈ prog t, ∀ b ∈ prog u, ¬ (a.fill value).Races (b.fill value)

/-- Two accesses of a thread touch a common byte. -/
def Overlapping (prog : ThreadId → List Instr) (value : ThreadId → ℕ → Option Value)
    (y x : ThreadId × ℕ) : Prop :=
  y.1 = x.1 ∧ y.2 < x.2 ∧ ∃ b ∈ (prog y.1)[y.2]?, ∃ a ∈ (prog x.1)[x.2]?,
    ((b.fill value).bytes noValue).Overlaps ((a.fill value).bytes noValue)

section RaceFree

variable {prog : ThreadId → List Instr} {value : ThreadId → ℕ → Option Value}
variable {values : ThreadId → List Value} {x y : ThreadId × ℕ} {a b : Instr}

/-- Two operations commute if only loads touch a common byte. -/
theorem Instr.commutes {ι : Type*} {act : ι → Memory → Option (Value × Memory)} {i j : ι}
    (hi : act i = callWith Instr.args value a) (hj : act j = callWith Instr.args value b)
    (ha : (a.fill value).Widths noValue) (hb : (b.fill value).Widths noValue)
    (ho : ((a.fill value).bytes noValue).Overlaps ((b.fill value).bytes noValue) →
      (a.fill value).isLoad ∧ (b.fill value).isLoad) : Commutes act i j := by
  by_cases hov : ((a.fill value).bytes noValue).Overlaps ((b.fill value).bytes noValue)
  · obtain ⟨hla, hlb⟩ := ho hov
    refine Reorder.commutes_of_read (fun m v m' hc => ?_) fun m v m' hc => ?_
    · exact read_of_isLoad hla (hi ▸ hc)
    · exact read_of_isLoad hlb (hj ▸ hc)
  · have hca : Confined ((a.fill value).bytes noValue) (act i) := by
      rw [hi, ← call_fill]
      exact Instr.confined ha
    have hcb : Confined ((b.fill value).bytes noValue) (act j) := by
      rw [hj, ← call_fill]
      exact Instr.confined hb
    exact commutes_of_confined hca hcb hov

theorem RaceFree.widths (h : RaceFree prog value) {t : ThreadId} (ha : a ∈ prog t) :
    (a.fill value).Widths noValue :=
  (h.regular t).widths _ (List.mem_map_of_mem ha)

theorem RaceFree.commutes (h : RaceFree prog value) (hv : ∀ t i, (values t)[i]? = value t i)
    (hd : ∀ t i, ∀ a : Instr, (prog t)[i]? = some a → ∀ d ∈ a.args.deps,
      d.Before (a.args.thunk t i))
    (hxy : x ≠ y) (hyx : ¬ Overlapping prog value y x) (hyx' : ¬ Overlapping prog value x y) :
    Commutes (Interleave.action (callIn Instr.args) prog values) x y := by
  have hnone : ∀ z w : ThreadId × ℕ, (prog z.1)[z.2]? = none →
      Commutes (Interleave.action (callIn Instr.args) prog values) z w := by
    intro z w hz
    refine Reorder.commutes_of_const (f := none) fun m => ?_
    rw [Interleave.action, hz]
    rfl
  cases ha : (prog x.1)[x.2]? with
  | none => exact hnone x y ha
  | some a =>
    cases hb : (prog y.1)[y.2]? with
    | none => exact (hnone y x hb).symm
    | some b =>
      have hma := List.mem_of_getElem? ha
      have hmb := List.mem_of_getElem? hb
      refine Instr.commutes (action_eq hv ha (hd _ _ a ha)) (action_eq hv hb (hd _ _ b hb))
        (h.widths hma) (h.widths hmb) fun ho => ?_
      have ho' := Range.overlaps_comm.mp ho
      have hne : x.1 ≠ y.1 := by
        intro heq
        rcases Nat.lt_trichotomy x.2 y.2 with hlt | h2 | hlt
        · exact hyx' ⟨heq, hlt, a, ha, b, hb, ho⟩
        · exact hxy (Prod.ext heq h2)
        · exact hyx ⟨heq.symm, hlt, b, hb, a, ha, ho'⟩
      by_contra hnot
      exact h.free _ _ hne a hma b hmb
        ⟨_, range_of_overlaps ho, _, range_of_overlaps ho', ho, hnot⟩

end RaceFree

/-- The accesses that a thread has decoded touch the same bytes or no common byte. -/
def Process.RangesApart (p : Process) (t : ThreadId) : Prop :=
  ∀ b ∈ (p.flows t).decoded, ∀ c ∈ (p.flows t).decoded, ∀ r ∈ b.range p, ∀ s ∈ c.range p,
    r = s ∨ ¬ r.Overlaps s

/-- With ranges equal or disjoint, no access is resolved before an earlier one that it
overlaps. -/
theorem clears_rangesApart : Clears (fun _ _ => True) fun q b c =>
    q.RangesApart c.threadid ∧ b.Overlaps q c := by
  rintro p q b c hp he - hpq hb - ⟨hapart, r, hr, s, hs, ho⟩
  obtain ⟨hsome, hfree⟩ := he.clear (isMemory_of_range hs)
  obtain ⟨s', hs'⟩ := Option.isSome_iff_exists.mp hsome
  obtain ⟨r', hr'⟩ := Option.isSome_iff_exists.mp (he.known b hb (isMemory_of_range hr))
  cases (hpq.range hs').symm.trans hs
  cases (hpq.range hr').symm.trans hr
  have hdec : ∀ {d : ThunkInner}, d ∈ p.before c → d ∈ (q.flows c.threadid).decoded := fun hd =>
    (hpq.decoded _).subset ((hp.sublist _).subset (Process.mem_before.mp hd).1)
  refine hfree ⟨s, hs', ?_⟩
  rcases Process.exists_mem_held hb hr' with hheld | ⟨r₁, hr₁, hov⟩
  · exact ⟨r, hheld, ho⟩
  · -- the held access that `b` overlaps has the bytes of `b`
    obtain ⟨d, hd, hdr⟩ := Process.exists_mem_of_mem_held hr₁
    have heq := hapart d (hdec hd) b (hdec hb) r₁ (hpq.range hdr) r hr
    exact ⟨r₁, hr₁, heq.resolve_right (not_not.mpr hov) ▸ ho⟩

section Agree

variable {prog : ThreadId → List Instr} {value : ThreadId → ℕ → Option Value} {memory : Memory}
variable {p : Process} {t : ThreadId} {i : ℕ} {a : Instr} {acts : List Action} {c : Config}
variable {schedule : List ThreadId}

/-- The pipelines are parts of the programs. -/
def Process.Among (prog : ThreadId → List Instr) (p : Process) : Prop :=
  ∀ t i th, (p.flows t).decoded[i]? = some th →
    ∃ a : Instr, (prog t)[i]? = some a ∧ th = a.args.thunk t i

theorem Process.Completes.among (h : p.Completes Instr.args prog) : p.Among prog := by
  intro t i th hth
  rw [h.decoded, Option.map_eq_some_iff] at hth
  obtain ⟨a, ha, rfl⟩ := hth
  exact ⟨a, ha, rfl⟩

theorem RaceFree.rangesApart (h : RaceFree prog value) (hd : p.Among prog)
    (hB : ∀ t i v, p.value t i = some v → value t i = some v) (t : ThreadId) :
    p.RangesApart t := by
  intro b hb c hc r hr s hs
  obtain ⟨i, hi⟩ := List.mem_iff_getElem?.mp hb
  obtain ⟨j, hj⟩ := List.mem_iff_getElem?.mp hc
  obtain ⟨a, ha, rfl⟩ := hd t i b hi
  obtain ⟨a', ha', rfl⟩ := hd t j c hj
  exact (h.regular t).ranges _ (List.mem_map_of_mem (List.mem_of_getElem? ha)) _
    (List.mem_map_of_mem (List.mem_of_getElem? ha')) r (range_fill_of_range hB hr) s
    (range_fill_of_range hB hs)

/-- If the accesses of a complete run do not race, then every complete schedule that runs the
threads one instruction at a time finds the values of the run and leaves its memory. -/
theorem schedule_independent (h : (Config.decoding (.new memory)).run acts = some c)
    (hc : c.process.Completes Instr.args prog) (hrf : RaceFree prog c.process.value)
    (hs : ∀ t, schedule.count t = (prog t).length) :
    ∃ s, interleaved Instr.args prog memory schedule = some s ∧ s.shared = c.process.memory ∧
      ∀ t i, (s.values t)[i]? = c.process.value t i := by
  have hreach : Reachable (fun _ _ => True) c := (Reachable.new memory).run h fun _ _ => trivial
  obtain ⟨hp, hrec, -⟩ := (invariant_recorded memory).run
    (Config.good_new (recorded_new memory)) h fun _ _ => trivial
  have hapart := hrf.rangesApart hc.among fun _ _ _ => id
  have horder := pairwise_trace (hreach.inOrder clears_rangesApart) hrec.nodup
  obtain ⟨values, hlen, hv⟩ := hc.exists_values hp
  refine interleaved_of_replays hlen hv hs ?_
  refine (Interleave.replays_schedule (hc.mem_trace hp) hrec.nodup hs ?_).mpr
    (hc.replays_trace hp hrec hv)
  refine (horder.and hrec.nodup).imp ?_
  rintro x y ⟨hxy, hne⟩ hor
  refine hrf.commutes hv (fun t i a ha d hd => hc.before hp ha hd) hne ?_ ?_
  · rintro ⟨heq, hlt, b, hb, a, ha, ho⟩
    refine hxy heq.symm hlt _ (by rw [hc.decoded, hb]; rfl) _ (by rw [hc.decoded, ha]; rfl)
      ⟨hapart _, _, range_of_range_fill (range_of_overlaps ho), _,
        range_of_range_fill (range_of_overlaps (Range.overlaps_comm.mp ho)), ho⟩
  · rintro ⟨heq, hlt, -⟩
    exact hor.elim (fun h => h heq) fun h => lt_asymm h hlt

/-- What a run keeps, given the values of an interleaving: it finds only these values, keeps
accesses of a thread that overlap in program order, and replays with the given values. -/
structure Follows (prog : ThreadId → List Instr) (values : ThreadId → List Value)
    (memory : Memory) (p : Process) : Prop where
  below : ∀ t i v, p.value t i = some v → (values t)[i]? = some v
  nodup : p.trace.Nodup
  placed : Reorder.Downward (Overlapping prog fun t i => (values t)[i]?) p.trace
  replays : Replays (Interleave.action (callIn Instr.args) prog values)
    (fun x => (values x.1)[x.2]?) memory p.trace p.memory

/-- A complete interleaving without races, of programs whose operands come first. -/
structure Reference (prog : ThreadId → List Instr) (values : ThreadId → List Value)
    (memory m : Memory) (order : List (ThreadId × ℕ)) : Prop where
  raceFree : RaceFree prog fun t i => (values t)[i]?
  before : ∀ t i, ∀ a : Instr, (prog t)[i]? = some a → ∀ d ∈ a.args.deps,
    d.Before (a.args.thunk t i)
  complete : ∀ t i, (t, i) ∈ order ↔ i < (prog t).length
  sorted : order.Pairwise fun x y => x.1 = y.1 → x.2 < y.2
  replays : Replays (Interleave.action (callIn Instr.args) prog values)
    (fun x => (values x.1)[x.2]?) memory order m

variable {values : ThreadId → List Value} {m : Memory} {order : List (ThreadId × ℕ)}

theorem Reference.mem_trace_of_overlapping (href : Reference prog values memory m order)
    (hd : p.Among prog) (hp : p.WF) (h : Follows prog values memory p)
    {c : ThunkInner} (he : Eligible (fun _ _ => True) p c)
    (hoff : c.isAtomic → Offered (fun _ _ => True) p c) {y : ThreadId × ℕ}
    (hy : Overlapping prog (fun t i => (values t)[i]?) y (c.threadid, c.seq)) : y ∈ p.trace := by
  obtain ⟨u, j⟩ := y
  obtain ⟨rfl, hj, b, hb, a, ha, ho⟩ : u = c.threadid ∧ j < c.seq ∧ _ := hy
  rw [mem_trace hp]
  intro hn
  have hcdec := hp.getElem?_of_mem he.mem
  have hbdec := List.getElem?_eq_getElem (hj.trans (List.getElem?_eq_some_iff.mp hcdec).1)
  obtain ⟨a', ha', hca⟩ := hd _ _ _ hcdec
  obtain ⟨b', hb', hbth⟩ := hd _ _ _ hbdec
  cases Option.some.inj (ha'.symm.trans ha)
  cases Option.some.inj (hb'.symm.trans hb)
  have hbmem : b.args.thunk c.threadid j ∈ p.before c := by
    rw [Process.mem_before, ← hbth]
    exact ⟨hp.unresolved hbdec hn, (hp.numbered hbdec).2.symm ▸ hj⟩
  -- both are accesses, and the loop knew both ranges when it reached `c`
  have hbr := range_of_overlaps ho
  have har := range_of_overlaps (Range.overlaps_comm.mp ho)
  obtain ⟨r, hr⟩ := Option.isSome_iff_exists.mp (he.known _ hbmem (isMemory_of_range_fill hbr))
  obtain ⟨s, hs⟩ := Option.isSome_iff_exists.mp (he.clear (hca ▸ isMemory_of_range_fill har)).1
  cases (range_fill_of_range h.below hr).symm.trans hbr
  cases (range_fill_of_range h.below (hca ▸ hs)).symm.trans har
  exact clears_rangesApart hp he hoff (.refl p) hbmem hn
    ⟨href.raceFree.rangesApart hd h.below _, _, hr, _, hs, ho⟩

theorem mapM_look {value : ThreadId → ℕ → Option Value}
    (hB : ∀ t i v, p.value t i = some v → value t i = some v) {deps : List Thunk}
    {args : List Value} (h : deps.mapM (Thunk.tryGet p) = some args) :
    deps.mapM (Thunk.look value) = some args := by
  rw [← h]
  refine mapM_congr fun d hd => ?_
  cases hp : d.tryGet p with
  | none =>
    rw [mapM_eq_none_iff.mpr ⟨d, hd, hp⟩] at h
    cases h
  | some v =>
    cases d with
    | constant w => exact hp
    | cell t i => exact hB t i v hp

/-- Accesses commute where the interleaving has them in the other order and the placed ones are
not swapped. -/
theorem Reference.commutes (href : Reference prog values memory m order)
    {key : ThreadId × ℕ → ℕ} (hkey : order.Pairwise fun x y => key x < key y)
    {x y : ThreadId × ℕ} (hx : x ∈ order) (hy : y ∈ order) (hlt : key y < key x)
    (hnot : ¬ Overlapping prog (fun t i => (values t)[i]?) y x) :
    Commutes (Interleave.action (callIn Instr.args) prog values) x y := by
  refine href.raceFree.commutes (fun _ _ => rfl) href.before ?_ hnot ?_
  · rintro rfl
    exact lt_irrefl _ hlt
  · -- the interleaving keeps program order
    rintro ⟨heq, hlt', -⟩
    rcases Interleave.eq_or_of_pairwise (href.sorted.and hkey) hx hy with rfl | ⟨-, h⟩ | ⟨h, -⟩
    · exact lt_irrefl _ hlt
    · exact lt_asymm hlt h
    · exact lt_asymm hlt' (h heq.symm)

/-- The value of the thunk that is resolved is that of the interleaving, as the rest of the
interleaving can still follow. -/
theorem Reference.value_eq (href : Reference prog values memory m order)
    {l : List (ThreadId × ℕ)} {x : ThreadId × ℕ} (hn : (l ++ [x]).Nodup)
    (hsub : ∀ y ∈ l ++ [x], y ∈ order)
    (hplaced : Reorder.Downward (Overlapping prog fun t i => (values t)[i]?) (l ++ [x]))
    {m₁ m₂ : Memory} {v : Value}
    (hrep : Replays (Interleave.action (callIn Instr.args) prog values)
      (fun x => (values x.1)[x.2]?) memory l m₁)
    (hx : Interleave.action (callIn Instr.args) prog values x m₁ = some (v, m₂)) :
    (values x.1)[x.2]? = some v := by
  obtain ⟨key, hkey⟩ := Interleave.exists_key (Interleave.nodup_of_pairwise href.sorted)
  have hin := (hplaced.pairwise hn).imp_of_mem fun {y z} hy hz hnot hlt =>
    href.commutes hkey (hsub y hy) (hsub z hz) hlt hnot
  have hval := Reorder.value_of_replays hkey href.replays hn hsub hin
    (fun y hy z hz hzl hlt =>
      href.commutes hkey (hsub y hy) hz hlt fun ho => hzl (hplaced.mem hy ho)) hrep hx
  exact hval

theorem Follows.resolve (h : Follows prog values memory p)
    (href : Reference prog values memory m order) (hd : p.Among prog) (hp : p.WF)
    {c : ThunkInner} {p' : Process} (he : Eligible (fun _ _ => True) p c)
    (hoff : c.isAtomic → Offered (fun _ _ => True) p c) (hs : Stepped p c p' true) :
    Follows prog values memory p' := by
  have hcdec := hp.getElem?_of_mem he.mem
  obtain ⟨a, ha, hca⟩ := hd _ _ _ hcdec
  cases hs with
  | @resolved args v n hargs hv hcomp _ =>
    have hact : Interleave.action (callIn Instr.args) prog values (c.threadid, c.seq) p.memory =
        some (v, n) := by
      rw [hca] at hargs hcomp
      rw [action_eq (fun _ _ => rfl) ha (href.before _ _ a ha), callWith,
        show a.args.deps.mapM _ = some args from mapM_look h.below hargs]
      exact hcomp
    have hplaced := h.placed.append_singleton fun y hy =>
      href.mem_trace_of_overlapping hd hp h he hoff hy
    have hn : (p.trace ++ [(c.threadid, c.seq)]).Nodup := by
      refine List.nodup_append.mpr ⟨h.nodup, List.nodup_singleton _, fun x hx y hy hxy => ?_⟩
      rw [hxy, List.mem_singleton.mp hy, mem_trace hp] at hx
      exact hx hv
    have hsub : ∀ y ∈ p.trace ++ [(c.threadid, c.seq)], y ∈ order := by
      intro y hy
      have hprog : ∃ b : Instr, (prog y.1)[y.2]? = some b := by
        rcases List.mem_append.mp hy with hy | hy
        · obtain ⟨w, hw⟩ := Option.ne_none_iff_exists'.mp ((mem_trace hp).mp hy)
          obtain ⟨b, hb, -⟩ := hd _ _ _ (List.getElem?_eq_getElem (hp.decoded_of_value hw))
          exact ⟨b, hb⟩
        · rw [List.mem_singleton.mp hy]
          exact ⟨a, ha⟩
      exact (href.complete _ _).mpr (List.getElem?_eq_some_iff.mp hprog.choose_spec).1
    have hval := href.value_eq hn hsub hplaced h.replays hact
    refine ⟨fun t i w hw => ?_, ?_, ?_, ?_⟩
    · rw [Process.value_resolve] at hw
      split_ifs at hw with hi
      · cases hw
        rw [hi.1, hi.2]
        exact hval
      · exact h.below t i w hw
    all_goals rw [trace_resolve]
    · exact hn
    · exact hplaced
    · exact Reorder.replays_append.mpr ⟨p.memory, h.replays, .cons hact hval (.nil _)⟩

theorem Follows.same {q : Process} (h : Follows prog values memory p) (hval : q.value = p.value)
    (hlog : q.log = p.log) (hmem : q.memory = p.memory) : Follows prog values memory q := by
  refine ⟨fun t i v hv => h.below t i v (hval ▸ hv), ?_, ?_, ?_⟩
  all_goals rw [Process.trace, hlog]
  · exact h.nodup
  · exact h.placed
  · rw [hmem]
    exact h.replays

theorem follows_new : Follows prog values memory (.new memory) :=
  ⟨nofun, List.nodup_nil, Reorder.downward_nil, .nil memory⟩

theorem invariant_follows (href : Reference prog values memory m order) :
    Invariant (fun _ _ => True) fun q => q.Among prog → (∀ e ∈ q.log, e.id ≠ none) →
      Follows prog values memory q where
  same hs h hd hl := by
    refine (h (fun t i th hth => hd t i th ?_) fun e he => hl e ?_).same hs.value hs.log hs.memory
    · rwa [hs.decoded]
    · rwa [hs.log]
  push {p c} hp ht hseq h hd hl := by
    have hpush : p.Decoded (p.modify c.threadid fun f => f.push c) := .push ht hseq
    refine (h (fun t i th hth => hd t i th ?_) hl).same (hpush.value hp) rfl rfl
    exact (hpush.extends hp).getElem? hth
  store _ _ _ hl := absurd rfl (hl (.store _ _) (List.mem_append_right _ List.mem_cons_self))
  resolve {p p' c} hp h he hoff hs hd hl := by
    have hext := hs.extends
    have hd' : p.Among prog := fun t i th hth => hd t i th (hext.getElem? hth)
    have hl' : ∀ e ∈ p.log, e.id ≠ none := by
      cases hs with
      | resolved => exact fun e he => hl e (List.mem_append_left _ he)
    exact (h hd' hl').resolve href hd' hp he hoff hs

/-- If one complete schedule that runs the threads one instruction at a time has no races, then
every complete run, out of order as it may be, finds its values and leaves its memory. -/
theorem race_free_deterministic {s : Interleave.State ThreadId Value Memory}
    (hs : interleaved Instr.args prog memory schedule = some s)
    (hcount : ∀ t, schedule.count t = (prog t).length)
    (hrf : RaceFree prog fun t i => (s.values t)[i]?)
    (h : (Config.decoding (.new memory)).run acts = some c)
    (hc : c.process.Completes Instr.args prog) :
    c.process.memory = s.shared ∧ ∀ t i, c.process.value t i = (s.values t)[i]? := by
  obtain ⟨hpre, hrep⟩ := Interleave.replays_of_run hs
  have hreach : Reachable (fun _ _ => True) c := (Reachable.new memory).run h fun _ _ => trivial
  have hp := hreach.wf
  have href : Reference prog s.values memory s.shared
      (Interleave.positions (fun _ => 0) schedule) := by
    refine ⟨hrf, fun t i a ha d hd => hc.before hp ha hd, fun t i => ?_,
      Interleave.pairwise_positions _ _, hrep⟩
    rw [Interleave.mem_positions, hcount, Nat.zero_add]
    exact and_iff_right (Nat.zero_le i)
  have hfollows : Follows prog s.values memory c.process :=
    ((invariant_follows href).run (Config.good_new fun _ _ => follows_new) h
      fun _ _ => trivial).inv hc.among hc.locals
  refine ⟨?_, fun t i => ?_⟩
  · obtain ⟨key, hkey⟩ := Interleave.exists_key (Interleave.nodup_of_pairwise href.sorted)
    have hperm := Interleave.perm_positions (hc.mem_trace hp) hfollows.nodup hcount
    refine hfollows.replays.unique ((Reorder.replays_perm_key hperm hkey ?_).mp hrep)
    exact (hfollows.placed.pairwise hfollows.nodup).imp_of_mem fun {x y} hx hy hnot hlt =>
      href.commutes hkey (hperm.mem_iff.mp hx) (hperm.mem_iff.mp hy) hlt hnot
  · cases hv : c.process.value t i with
    | some v => exact (hfollows.below t i v hv).symm
    | none =>
      have hle : (prog t).length ≤ i := Nat.not_lt.mp fun hi => hc.resolved t i hi hv
      rw [List.getElem?_eq_none]
      rw [(hpre t).2, hcount]
      exact (Nat.zero_add _).trans_le hle

end Agree

theorem raceFree_twoThreads (value : ThreadId → ℕ → Option Value) : RaceFree twoThreads value := by
  -- all operands are constants, so filling them in changes nothing
  have hfill : ∀ t, ∀ a ∈ twoThreads t, a.fill value = a := by
    intro t a ha
    rcases t with _ | _ | t
    · rcases List.mem_pair.mp ha with rfl | rfl <;> rfl
    · rcases List.mem_pair.mp ha with rfl | rfl <;> rfl
    · exact absurd ha List.not_mem_nil
  have hfree : ∀ t < 2, ∀ u < 2, t ≠ u → ∀ a ∈ twoThreads t, ∀ b ∈ twoThreads u, ¬ a.Races b := by
    decide
  refine ⟨fun t => ?_, fun t u htu a ha b hb => ?_⟩
  · rw [List.map_congr_left (hfill t), List.map_id']
    rcases t with _ | _ | t
    · decide
    · decide
    · exact ⟨fun a ha => absurd ha List.not_mem_nil, fun a ha => absurd ha List.not_mem_nil⟩
  · rw [hfill t a ha, hfill u b hb]
    rcases t with _ | _ | t
    · rcases u with _ | _ | u
      · exact absurd rfl htu
      · exact hfree 0 (by decide) 1 (by decide) htu a ha b hb
      · exact absurd hb List.not_mem_nil
    · rcases u with _ | _ | u
      · exact hfree 1 (by decide) 0 (by decide) htu a ha b hb
      · exact absurd rfl htu
      · exact absurd hb List.not_mem_nil
    · exact absurd ha List.not_mem_nil

theorem count_twoThreads (t : ThreadId) : [0, 1, 1, 0].count t = (twoThreads t).length := by
  rcases t with _ | _ | t
  · rfl
  · rfl
  · exact List.count_eq_zero.mpr (by simp)

theorem schedule_independent_two_threads : ∃ c : Config, ∃ s,
    c.process.trace = [(1, 0), (0, 0), (0, 1), (1, 1)] ∧
    interleaved Instr.args twoThreads .new [0, 1, 1, 0] = some s ∧ s.shared = c.process.memory ∧
    ∀ t i, (s.values t)[i]? = c.process.value t i := by
  obtain ⟨acts, c, h, hc, htrace⟩ := run_twoThreads
  obtain ⟨s, hs⟩ := schedule_independent h hc (raceFree_twoThreads _) count_twoThreads
  exact ⟨c, s, htrace, hs⟩

theorem race_free_deterministic_two_threads : ∃ c : Config, ∃ s,
    c.process.trace = [(1, 0), (0, 0), (0, 1), (1, 1)] ∧
    interleaved Instr.args twoThreads .new [0, 1, 1, 0] = some s ∧ c.process.memory = s.shared ∧
    ∀ t i, c.process.value t i = (s.values t)[i]? := by
  obtain ⟨acts, c, h, hc, htrace⟩ := run_twoThreads
  have hsome : (interleaved Instr.args twoThreads .new [0, 1, 1, 0]).isSome := by decide +kernel
  obtain ⟨s, hs⟩ := Option.isSome_iff_exists.mp hsome
  exact ⟨c, s, htrace, hs, race_free_deterministic hs count_twoThreads (raceFree_twoThreads _) h hc⟩

end AtomicSim
