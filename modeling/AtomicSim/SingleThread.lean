import AtomicSim.Sequential

namespace AtomicSim

open Reorder (InPlace Replays)

section Pipelined

variable {prog : List Instr} {value : ℕ → Option Value} {memory : Memory}
variable {p p' q : Process} {c : ThunkInner} {a : Instr} {i : ℕ}

/-- The values found so far are among the given ones. -/
def Process.Below (p : Process) (value : ℕ → Option Value) : Prop :=
  ∀ i v, p.value 0 i = some v → value i = some v

theorem Process.Below.mono (h : p.Below value) (hq : q.Extends p) : q.Below value :=
  fun i v hv => h i v (hq.value hv)

def Decodes (prog : List Instr) (p : Process) : Prop :=
  ∀ i th, (p.flows 0).decoded[i]? = some th → ∃ a : Instr, prog[i]? = some a ∧
    th = a.args.thunk 0 i

theorem Decodes.mono (h : Decodes prog p) (hq : q.Extends p) : Decodes prog q :=
  fun i th hd => h i th (hq.getElem? hd)

theorem Decodes.lt_length (h : Decodes prog p) (hp : p.WF) (hv : p.value 0 i ≠ none) :
    i < prog.length := by
  obtain ⟨v, hv⟩ := Option.ne_none_iff_exists'.mp hv
  obtain ⟨a, ha, -⟩ := h i _ (List.getElem?_eq_getElem (hp.decoded_of_value hv))
  exact (List.getElem?_eq_some_iff.mp ha).1

theorem get_of_tryGet (hB : p.Below value) {d : Thunk} (hd : d.Before (a.args.thunk 0 i))
    {v : Value} (h : d.tryGet p = some v) : d.get value = some v := by
  cases d with
  | constant w => exact h
  | cell t j =>
    have ht : t = 0 := hd.1
    subst ht
    rw [Thunk.get, if_pos rfl]
    exact hB j v h

theorem Instr.address_mem_deps {address : Thunk} {layout : Layout}
    (h : a.args.address = some (address, layout)) : address ∈ a.args.deps := by
  cases a <;> cases h <;> exact List.mem_cons_self

theorem range_of_range (hB : p.Below value)
    (hd : ∀ d ∈ a.args.deps, d.Before (a.args.thunk 0 i)) {r : Range ℕ}
    (h : (a.args.thunk 0 i).range p = some r) : a.range value = some r := by
  simp only [ThunkInner.range, ThunkArgs.thunk] at h
  cases ha : a.args.address with
  | none =>
    rw [ha] at h
    cases h
  | some al =>
    simp only [ha, Option.map_eq_some_iff] at h
    obtain ⟨x, hx, rfl⟩ := h
    have hget := get_of_tryGet hB (hd _ (Instr.address_mem_deps ha)) hx
    simp only [Instr.range, ha, Option.bind_some, hget, Option.map_some]

theorem call_eq (hB : p.Below value) (hd : ∀ d ∈ a.args.deps, d.Before (a.args.thunk 0 i))
    {args : List Value} (h : a.args.deps.mapM (Thunk.tryGet p) = some args) (m : Memory) :
    a.call value m = a.args.compute m args := by
  have hargs : a.args.deps.mapM (Thunk.get value) = some args := by
    rw [← h]
    refine mapM_congr fun d hda => ?_
    have hsome : d.tryGet p ≠ none := by
      intro hn
      rw [mapM_eq_none_iff.mpr ⟨d, hda, hn⟩] at h
      cases h
    obtain ⟨v, hv⟩ := Option.ne_none_iff_exists'.mp hsome
    rw [hv, get_of_tryGet hB (hd d hda) hv]
  rw [Instr.call, hargs, Option.bind_some]

theorem range_of_overlaps {r : Range ℕ} (h : (a.bytes value).Overlaps r) :
    a.range value = some (a.bytes value) := by
  cases hr : a.range value with
  | some s =>
    rw [Instr.bytes, hr]
    rfl
  | none =>
    rw [Instr.bytes, hr] at h
    obtain ⟨x, hx, -⟩ := Range.overlaps_iff_exists.mp h
    exact absurd hx.2 (Nat.not_lt_zero x)

theorem isMemory_of_range_eq_some {r : Range ℕ} (hr : a.range value = some r) (t : ThreadId) :
    (a.args.thunk t i).isMemory := by
  rw [ThunkInner.isMemory, Option.isSome_iff_ne_none]
  intro hnone
  rw [Instr.range, show a.args.address = none from hnone] at hr
  cases hr

theorem aliased_of_overlaps (hreg : Regular prog value) (hd : OperandsEarlier prog) (hq : q.WF)
    (hdec : Decodes prog q) (hB : q.Below value) (hc : c.threadid = 0) {b : ThunkInner}
    (hb : b ∈ q.before c) (ho : b.Overlaps q c) : q.Aliased c := by
  -- every access of the pipeline has the range that the given values say
  have hrange : ∀ {d : ThunkInner} {r : Range ℕ}, d ∈ q.before c → d.range q = some r →
      ∃ e ∈ prog, e.range value = some r := by
    intro d r hd' hr
    rw [Process.mem_before, hc] at hd'
    obtain ⟨e, he, hde⟩ := hdec _ _ (hq.getElem?_of_mem hd'.1)
    rw [hde] at hr
    exact ⟨e, List.mem_of_getElem? he,
      range_of_range hB (hd _ (List.getElem?_eq_some_iff.mp he).1 e he) hr⟩
  obtain ⟨r, hr, s, hs, hrs⟩ := ho
  refine ⟨s, hs, ?_⟩
  rcases Process.exists_mem_held hb hr with hheld | ⟨r', hr', hov⟩
  · exact ⟨r, hheld, hrs⟩
  · obtain ⟨d, hdmem, hdr⟩ := Process.exists_mem_of_mem_held hr'
    obtain ⟨e, he, her⟩ := hrange hdmem hdr
    obtain ⟨f, hf, hfr⟩ := hrange hb hr
    have heq := hreg.ranges e he f hf r' her r hfr
    exact ⟨r', hr', heq.resolve_right (not_not.mpr hov) ▸ hrs⟩

/-- A thunk in its turn has every earlier thunk that it conflicts with resolved, or else it
would have been passed over. -/
theorem value_ne_none_of_conflict (hreg : Regular prog value) (hd : OperandsEarlier prog)
    (hq : q.WF) (hdec : Decodes prog q) (hB : q.Below value) (hc : c.threadid = 0)
    (he : Eligible (fun _ _ => True) q c) {j : ℕ} (hj : j < c.seq)
    (hconf : Conflict prog value j c.seq) : q.value 0 j ≠ none := by
  intro hn
  obtain ⟨b, hb, a, ha, ho⟩ := hconf
  have hcmem := he.mem
  rw [hc] at hcmem
  have hcdec := hq.getElem?_of_mem hcmem
  have hbdec := List.getElem?_eq_getElem (hj.trans (List.getElem?_eq_some_iff.mp hcdec).1)
  obtain ⟨a', ha', hca⟩ := hdec _ _ hcdec
  obtain ⟨b', hb', hbth⟩ := hdec _ _ hbdec
  cases Option.some.inj (ha'.symm.trans ha)
  cases Option.some.inj (hb'.symm.trans hb)
  have hbmem : b.args.thunk 0 j ∈ q.before c := by
    rw [Process.mem_before, hc, ← hbth]
    refine ⟨hq.unresolved hbdec hn, ?_⟩
    rw [(hq.numbered hbdec).2]
    exact hj
  -- both are accesses, and the loop knew both ranges when it reached `c`
  have hbr := range_of_overlaps ho
  have har := range_of_overlaps (Range.overlaps_comm.mp ho)
  obtain ⟨r, hr⟩ := Option.isSome_iff_exists.mp
    (he.known _ hbmem (isMemory_of_range_eq_some hbr 0))
  obtain ⟨hs, hfree⟩ := he.clear (by rw [hca]; exact isMemory_of_range_eq_some har 0)
  obtain ⟨s, hs⟩ := Option.isSome_iff_exists.mp hs
  have hrange : ∀ {i : ℕ} {e : Instr} {r : Range ℕ}, prog[i]? = some e →
      (e.args.thunk 0 i).range q = some r → e.range value = some r := fun hi hr =>
    range_of_range hB (hd _ (List.getElem?_eq_some_iff.mp hi).1 _ hi) hr
  have hrb : r = b.bytes value := Option.some.inj ((hrange hb hr).symm.trans hbr)
  have hsa : s = a.bytes value := Option.some.inj ((hrange ha (hca ▸ hs)).symm.trans har)
  exact hfree (aliased_of_overlaps hreg hd hq hdec hB hc hbmem
    ⟨r, hr, s, hs, by rw [hrb, hsa]; exact ho⟩)

/-- The resolved thunks, in the order of their resolution, keep conflicts in place and
replay to the memory, as far as their values are the given ones. They are, if the given
values are those of sequential execution. -/
structure Pipelined (prog : List Instr) (value : ℕ → Option Value) (memory : Memory)
    (p : Process) : Prop where
  threads : p.threads = [0]
  decodes : Decodes prog p
  order : ∃ l : List ℕ, l.Nodup ∧ (∀ i, i ∈ l ↔ p.value 0 i ≠ none) ∧
    (p.Below value → InPlace (Conflict prog value) l ∧
      Replays (action prog value) value memory l p.memory)
  below : (∃ m, Replays (action prog value) value memory (List.range prog.length) m) →
    p.Below value

theorem Pipelined.same (h : Pipelined prog value memory p) (ht : q.threads = p.threads)
    (hdec : Decodes prog q) (hv : q.value = p.value) (hm : q.memory = p.memory) :
    Pipelined prog value memory q where
  threads := ht.trans h.threads
  decodes := hdec
  order := by
    obtain ⟨l, hn, hl, hrep⟩ := h.order
    refine ⟨l, hn, fun i => ?_, fun hB => ?_⟩
    · rw [hv]
      exact hl i
    · rw [hm]
      refine hrep fun i v hvi => hB i v ?_
      rwa [hv]
  below hex i v hvi := h.below hex i v (by rwa [hv] at hvi)

theorem value_eq_of_replays (hreg : Regular prog value) {l : List ℕ} {m m₁ m₂ : Memory} {v : Value}
    (hin : InPlace (Conflict prog value) (l ++ [i])) (hn : (l ++ [i]).Nodup)
    (hlt : ∀ j ∈ l ++ [i], j < prog.length)
    (hl : Replays (action prog value) value memory l m)
    (hv : action prog value i m = some (v, m₁))
    (hseq : Replays (action prog value) value memory (List.range prog.length) m₂) :
    value i = some v := by
  -- complete the order of resolution to one of the whole program, which then replays too
  let rest := (List.range prog.length).filter fun j => j ∉ l ++ [i]
  have hsorted : rest.Pairwise (· < ·) := List.pairwise_lt_range.filter _
  have hnodup : (l ++ [i] ++ rest).Nodup := by
    refine List.nodup_append.mpr ⟨hn, List.nodup_range.filter _, fun j hj k hk hjk => ?_⟩
    have hk' := (List.mem_filter.mp hk).2
    rw [decide_eq_true_eq] at hk'
    exact hk' (hjk ▸ hj)
  have hperm : (l ++ [i] ++ rest).Perm (List.range prog.length) := by
    refine (List.perm_ext_iff_of_nodup hnodup List.nodup_range).mpr fun j => ?_
    rw [List.mem_append, List.mem_filter, List.mem_range, decide_eq_true_eq]
    by_cases hj : j ∈ l ++ [i]
    · simp only [hj, true_or, true_iff]
      exact hlt j hj
    · simp [hj]
  have hrep := (Reorder.replays_perm hperm (List.pairwise_lt_range.imp le_of_lt)
    ((hin.pairwise_append hsorted hnodup).imp fun h hji => commutes_action hreg (h hji))).mp hseq
  rw [List.append_assoc, Reorder.replays_append] at hrep
  obtain ⟨m', hl', hrest⟩ := hrep
  cases hl.unique hl'
  obtain ⟨w, m'', hw, hwi, -⟩ := Reorder.replays_cons.mp hrest
  cases Option.some.inj (hv.symm.trans hw)
  exact hwi

/-- The thunk that is resolved comes after what it conflicts with. -/
theorem inPlace_append (hreg : Regular prog value) (hd : OperandsEarlier prog) (hq : q.WF)
    (hqp : q.Extends p) (hdec : Decodes prog p) (hB : p.Below value) (hc : c.threadid = 0)
    (he : Eligible (fun _ _ => True) q c) {l : List ℕ} (hl : ∀ i, i ∈ l ↔ p.value 0 i ≠ none)
    (hin : InPlace (Conflict prog value) l) : InPlace (Conflict prog value) (l ++ [c.seq]) := by
  refine hin.append_singleton fun j hj hconf => (hl j).mpr ?_
  have hne := value_ne_none_of_conflict hreg hd hq (hdec.mono hqp) (hB.mono hqp) hc he hj hconf
  exact fun hp => hne (hqp.value_none hp)

theorem Pipelined.resolve (h : Pipelined prog value memory p) (hreg : Regular prog value)
    (hd : OperandsEarlier prog) (hp : p.WF) (hq : q.WF) (hqp : q.Extends p)
    (hc : c.threadid = 0) (he : Eligible (fun _ _ => True) q c) (hs : Stepped p c p' true) :
    Pipelined prog value memory p' := by
  have hcdec := hqp.getElem? (hq.getElem?_of_mem he.mem)
  cases hs with
  | @resolved args v m hargs hv hcomp _ =>
    have hext : p.Extends (p.resolve c v m) := Process.extends_resolve hv v m
    have hwf := Process.wf_resolve hp hcdec hv v m
    rw [hc] at hcdec hv
    obtain ⟨a, ha, hca⟩ := h.decodes _ _ hcdec
    have hda := hd c.seq (List.getElem?_eq_some_iff.mp ha).1 a ha
    have hact : p.Below value → action prog value c.seq p.memory = some (v, m) := by
      intro hB
      rw [hca] at hargs hcomp
      rw [action, ha, Option.bind_some, call_eq hB hda hargs]
      exact hcomp
    have hval : (p.resolve c v m).value 0 c.seq = some v := by
      rw [Process.value_resolve, if_pos ⟨hc.symm, rfl⟩]
    have hdecodes : Decodes prog (p.resolve c v m) := by
      intro i th hth
      rw [Process.decoded_resolve] at hth
      exact h.decodes i th hth
    obtain ⟨l, hn, hl, hrep⟩ := h.order
    have hmem : ∀ i, i ∈ l ++ [c.seq] ↔ (p.resolve c v m).value 0 i ≠ none := by
      intro i
      rw [List.mem_append, List.mem_singleton, hl, Process.value_resolve, hc]
      by_cases hi : i = c.seq <;> simp [hi]
    have hnodup : (l ++ [c.seq]).Nodup := by
      refine List.nodup_append.mpr ⟨hn, List.nodup_singleton _, fun i hi j hj hij => ?_⟩
      rw [hij, List.mem_singleton.mp hj] at hi
      exact (hl _).mp hi hv
    have hin := fun hB => inPlace_append hreg hd hq hqp h.decodes hB hc he hl (hrep hB).1
    refine ⟨h.threads, hdecodes, ⟨l ++ [c.seq], hnodup, hmem, fun hB' => ?_⟩, fun hex i w hw => ?_⟩
    · have hB := hB'.mono hext
      refine ⟨hin hB, Reorder.replays_append.mpr ⟨p.memory, (hrep hB).2, ?_⟩⟩
      exact .cons (hact hB) (hB' _ _ hval) (.nil _)
    · -- only the value of `c` is new
      have hB := h.below hex
      obtain ⟨m₂, hseq⟩ := hex
      rw [Process.value_resolve] at hw
      split_ifs at hw with hi
      · cases hw
        rw [hi.2]
        exact value_eq_of_replays hreg (hin hB) hnodup
          (fun j hj => hdecodes.lt_length hwf ((hmem j).mp hj)) (hrep hB).2 (hact hB) hseq
      · exact hB i w hw

theorem Pipelined.retain (h : Pipelined prog value memory p) :
    Pipelined prog value memory (p.modify 0 DataFlow.retain) := by
  refine h.same rfl (fun i th hth => ?_) (Process.value_retain p 0) rfl
  rw [Process.decoded_retain] at hth
  exact h.decodes i th hth

theorem Pipelined.push (h : Pipelined prog value memory p) (hp : p.WF)
    (ha : prog[(p.flows 0).seq]? = some a) :
    Pipelined prog value memory
      (p.modify 0 fun f => f.push (a.args.thunk 0 (p.flows 0).seq)) := by
  have hmem : (0 : ThreadId) ∈ p.threads := by simp [h.threads]
  have hval := (Process.Decoded.push (c := a.args.thunk 0 (p.flows 0).seq) hmem rfl).value hp
  refine h.same rfl (fun i th hth => ?_) hval rfl
  rw [Process.flows_modify_self, DataFlow.push, List.getElem?_append] at hth
  split_ifs at hth with hi
  · exact h.decodes i th hth
  · obtain ⟨hi', rfl⟩ := List.getElem?_eq_some_iff.mp hth
    have hieq : i = (p.flows 0).seq := by
      rw [List.length_singleton] at hi'
      simp only [DataFlow.seq]
      omega
    subst hieq
    exact ⟨a, ha, by simp⟩

theorem Pipelined.preserves (hreg : Regular prog value) (hd : OperandsEarlier prog) :
    Preserves (fun _ _ => True) (Pipelined prog value memory) := by
  intro p p' c hp h he _ hs
  have hc : c.threadid = 0 := by
    by_contra hne
    have hmem := he.mem
    rw [hp.idle (by rw [h.threads]; simpa using hne)] at hmem
    cases hmem
  exact h.resolve hreg hd hp hp (.refl p) hc he hs

/-- What a run keeps, with the thunks that its last pass offered. -/
structure Move.Good (prog : List Instr) (value : ℕ → Option Value) (memory : Memory)
    (s : Process × List ThunkInner) : Prop where
  wf : s.1.WF
  inv : Pipelined prog value memory s.1
  offered : ∀ c ∈ s.2, c.threadid = 0 ∧ ∃ q : Process, q.WF ∧ q.Extends s.1 ∧
    Eligible (fun _ _ => True) q c

theorem Move.good_new (prog : List Instr) (value : ℕ → Option Value) (memory : Memory) :
    Good prog value memory ((Process.new memory).addThread, []) := by
  have hflow : (Process.new memory).addThread.flows 0 = DataFlow.new := by
    simp [Process.addThread, Process.new]
  have hval : ∀ i, (Process.new memory).addThread.value 0 i = none := by
    intro i
    rw [Process.value, hflow]
    rfl
  refine ⟨Process.Decoded.addThread.wf (Process.wf_new memory), ⟨rfl, ?_, ?_, ?_⟩,
    fun c hc => absurd hc List.not_mem_nil⟩
  · intro i th hth
    rw [hflow] at hth
    simp [DataFlow.new] at hth
  · exact ⟨[], List.nodup_nil, by simp [hval], fun _ => ⟨Reorder.inPlace_nil, .nil _⟩⟩
  · intro _ i v hv
    rw [hval] at hv
    cases hv

theorem Move.Good.mono {resolvable : List ThunkInner} (h : Good prog value memory (p, resolvable))
    (hpp' : p.Extends p') (hp' : p'.WF) (hinv : Pipelined prog value memory p') :
    Good prog value memory (p', resolvable) := by
  refine ⟨hp', hinv, fun c hc => ?_⟩
  obtain ⟨ht, q, hq, hqp, he⟩ := h.offered c hc
  exact ⟨ht, q, hq, hqp.trans hpp', he⟩

theorem Move.Good.pass (hreg : Regular prog value) (hd : OperandsEarlier prog) (hp : p.WF)
    (hinv : Pipelined prog value memory p) {resolvable : List ThunkInner} {b : Bool}
    (hs : p.stepPure 0 [] = some (p', resolvable, b)) :
    Good prog value memory (p', resolvable) := by
  obtain ⟨s, hl, rfl, rfl, -⟩ := stepPure_eq_some.mp hs
  have hloop := loopInv_scan (G := fun _ _ => True) hp hinv.retain []
  have hpres : Preserves (fun _ _ => True) (Pipelined prog value memory) :=
    Pipelined.preserves hreg hd
  obtain ⟨hwf, hinv'⟩ := hloop.loop hpres (fun _ _ => trivial) hl
  refine ⟨hwf, hinv', fun c hc => ?_⟩
  obtain ⟨ht, q, hq, -, he, hqs⟩ :=
    (hloop.eligible_of_mem_resolvable hpres (fun _ _ => trivial) hl hc).resolve_left nofun
  exact ⟨ht, q, hq, hqs, he⟩

theorem Move.Good.act (hreg : Regular prog value) (hd : OperandsEarlier prog)
    {s s' : Process × List ThunkInner} {move : Move} (h : Good prog value memory s)
    (ha : move.act prog s = some s') : Good prog value memory s' := by
  obtain ⟨p, resolvable⟩ := s
  have hp : p.WF := h.wf
  have hinv : Pipelined prog value memory p := h.inv
  cases move with
  | decode =>
    obtain ⟨a, hnext, hdec⟩ := Option.bind_eq_some_iff.mp ha
    obtain ⟨p', hp', rfl⟩ := Option.map_eq_some_iff.mp hdec
    have hdecoded := Process.decoded_of_decode hp'
    obtain ⟨-, rfl⟩ := decode_eq_some hp'
    exact h.mono (hdecoded.extends hp) (hdecoded.wf hp) (hinv.push hp hnext)
  | pass =>
    obtain ⟨⟨p', resolvable', b⟩, hstep, rfl⟩ := Option.map_eq_some_iff.mp ha
    exact Move.Good.pass hreg hd hp hinv hstep
  | resolve n =>
    simp only [Move.act] at ha
    cases hn : resolvable[n]? with
    | none =>
      rw [hn] at ha
      cases ha
    | some c =>
      simp only [hn] at ha
      split at ha
      · rename_i p' hstep
        cases ha
        have hs := stepped_of_step hstep
        obtain ⟨ht, q, hq, hqp, he⟩ := h.offered c (List.mem_of_getElem? hn)
        refine h.mono hs.extends ?_ (hinv.resolve hreg hd hp hq hqp ht he hs)
        cases hs with
        | resolved _ hv _ _ =>
          exact Process.wf_resolve hp (hqp.getElem? (hq.getElem?_of_mem he.mem)) hv _ _
      · cases ha

theorem Move.Good.foldlM (hreg : Regular prog value) (hd : OperandsEarlier prog)
    {moves : List Move} {s s' : Process × List ThunkInner} (h : Good prog value memory s)
    (hs : moves.foldlM (Move.act prog) s = some s') : Good prog value memory s' := by
  induction moves generalizing s with
  | nil =>
    cases hs
    exact h
  | cons move moves ih =>
    rw [List.foldlM_cons] at hs
    obtain ⟨s₁, hs₁, hs⟩ := Option.bind_eq_some_iff.mp hs
    exact ih (h.act hreg hd hs₁) hs

/-- Once every thunk is resolved with a value among the given ones, the given values replay
in program order. -/
theorem Pipelined.replays (h : Pipelined prog value memory p) (hp : p.WF)
    (hreg : Regular prog value) (hall : ∀ i < prog.length, p.value 0 i ≠ none)
    (hB : p.Below value) :
    Replays (action prog value) value memory (List.range prog.length) p.memory := by
  obtain ⟨l, hn, hl, hrep⟩ := h.order
  obtain ⟨hin, hrep⟩ := hrep hB
  have hperm : l.Perm (List.range prog.length) := by
    refine (List.perm_ext_iff_of_nodup hn List.nodup_range).mpr fun i => ?_
    rw [hl, List.mem_range]
    exact ⟨h.decodes.lt_length hp, hall i⟩
  exact (Reorder.replays_perm hperm (List.pairwise_lt_range.imp le_of_lt)
    ((hin.pairwise hn).imp fun h hji => commutes_action hreg (h hji))).mpr hrep

theorem exists_list_of_getElem? {α : Type*} {f : ℕ → Option α} {n : ℕ}
    (hsome : ∀ i < n, f i ≠ none) (hnone : ∀ i, n ≤ i → f i = none) :
    ∃ l : List α, l.length = n ∧ ∀ i, l[i]? = f i := by
  cases hl : (List.range n).mapM f with
  | none =>
    obtain ⟨i, hi, hn⟩ := mapM_eq_none_iff.mp hl
    exact absurd hn (hsome i (List.mem_range.mp hi))
  | some l =>
    have hmap := mapM_eq_some_iff.mp hl
    have hlen : l.length = n := by simpa using (congrArg List.length hmap).symm
    refine ⟨l, hlen, fun i => ?_⟩
    by_cases hi : i < n
    · have hget := congrArg (fun l => l[i]?) hmap
      simp only [List.getElem?_map, List.getElem?_range hi, Option.map_some] at hget
      cases hli : l[i]? with
      | none => exact absurd (hlen ▸ hi) (Nat.not_lt.mpr (List.getElem?_eq_none_iff.mp hli))
      | some v =>
        rw [hli] at hget
        exact (Option.some.inj hget).symm
    · rw [hnone i (Nat.not_lt.mp hi), List.getElem?_eq_none (hlen ▸ Nat.not_lt.mp hi)]

/-- A run that resolves every thunk, whatever the scheduler chooses, finds the values and
leaves the memory of sequential execution, if the accesses are regular there or in the run. -/
theorem sequential_equivalence {moves : List Move} {resolvable : List ThunkInner}
    (h : Move.run prog memory moves = some (p, resolvable)) (hd : OperandsEarlier prog)
    (hall : ∀ i < prog.length, p.value 0 i ≠ none)
    (hreg : Regular prog (p.value 0) ∨ ∃ vals m, sequential prog memory = some (vals, m) ∧
      Regular prog fun i => vals[i]?) :
    ∃ vals, sequential prog memory = some (vals, p.memory) ∧ ∀ i, p.value 0 i = vals[i]? := by
  have hgood : ∀ {value}, Regular prog value → Move.Good prog value memory (p, resolvable) :=
    fun hreg => (Move.good_new prog _ memory).foldlM hreg hd h
  rcases hreg with hreg | ⟨vals, m, hseq, hreg⟩
  · -- the values of the run replay in program order, so sequential execution finds them
    obtain ⟨hp, hinv, -⟩ := hgood hreg
    have hnone : ∀ i, prog.length ≤ i → p.value 0 i = none := by
      intro i hi
      by_contra hne
      exact Nat.not_lt.mpr hi (hinv.decodes.lt_length hp hne)
    obtain ⟨vals, hlen, hvals⟩ := exists_list_of_getElem? hall hnone
    refine ⟨vals, (sequential_eq_some hd).mpr ⟨hlen, ?_⟩, fun i => (hvals i).symm⟩
    rw [funext hvals]
    exact hinv.replays hp hreg hall fun _ _ => id
  · -- sequential execution succeeds, and every thunk of the run finds its value
    obtain ⟨hp, hinv, -⟩ := hgood hreg
    obtain ⟨hlen, hrep⟩ := (sequential_eq_some hd).mp hseq
    have hB := hinv.below ⟨m, hrep⟩
    have hmem : m = p.memory := hrep.unique (hinv.replays hp hreg hall hB)
    refine ⟨vals, hmem ▸ hseq, fun i => ?_⟩
    cases hv : p.value 0 i with
    | some v => exact (hB i v hv).symm
    | none =>
      have hi : prog.length ≤ i := Nat.not_lt.mp fun hi => hall i hi hv
      rw [List.getElem?_eq_none (hlen ▸ hi)]

end Pipelined

/-- The store through the loaded pointer overtakes the two accesses before it. -/
theorem sequential_equivalence_overtaking : ∃ prog moves p resolvable,
    Move.run prog .new moves = some (p, resolvable) ∧
    p.trace = [(0, 0), (0, 3), (0, 1), (0, 2), (0, 4), (0, 5)] ∧
    ∃ vals, sequential prog .new = some (vals, p.memory) ∧ ∀ i, p.value 0 i = vals[i]? := by
  let prog : List Instr := [.load (ptr 256) i64 .none, .store (ptr 128) i32 (int 1) .relaxed,
    .atomicrmw i32 (ptr 128) (int 2) .relaxed .add, .store (.cell 0 0) i32 (int 7) .relaxed,
    .cmpxchg i32 (ptr 128) (int 3) (int 4) .seqCst .relaxed, .thunk [.cell 0 2] List.head?]
  let moves : List Move := [.decode, .decode, .decode, .decode, .pass, .resolve 1, .decode,
    .decode, .resolve 0, .pass, .resolve 0, .pass, .resolve 0, .pass]
  have hd : OperandsEarlier prog := by decide
  have hrun : ∃ s ∈ Move.run prog .new moves,
      s.1.trace = [(0, 0), (0, 3), (0, 1), (0, 2), (0, 4), (0, 5)] ∧
      (∀ i < prog.length, s.1.value 0 i ≠ none) ∧ Regular prog (s.1.value 0) := by decide +kernel
  obtain ⟨⟨p, resolvable⟩, h, htrace, hall, hreg⟩ := hrun
  exact ⟨prog, moves, p, resolvable, h, htrace, sequential_equivalence h hd hall (.inl hreg)⟩

end AtomicSim
