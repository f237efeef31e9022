import AtomicSim.Runs
import AtomicSim.Flow

namespace AtomicSim

/-- Each event starts from the memory that the one before it left. -/
def Linked : Memory → List Event → Memory → Prop
  | m, [], m' => m = m'
  | m, e :: l, m' => e.before = m ∧ Linked e.after l m'

theorem linked_append {m m' : Memory} {l l' : List Event} :
    Linked m (l ++ l') m' ↔ ∃ n, Linked m l n ∧ Linked n l' m' := by
  induction l generalizing m with
  | nil => simp [Linked]
  | cons e l ih => simp only [List.cons_append, Linked, ih, and_assoc, exists_and_left]

/-- The trace leads from the first memory to the present one, lists no thunk twice, and each
value in it is what the closure computes from the final values of its operands. -/
structure Recorded (memory : Memory) (p : Process) : Prop where
  linked : Linked memory p.log p.memory
  nodup : p.trace.Nodup
  sound : ∀ t i v m m', Event.res t i v m m' ∈ p.log → ∃ c args,
    (p.flows t).decoded[i]? = some c ∧ c.deps.mapM (Thunk.tryGet p) = some args ∧
      c.compute m args = some (v, m')

theorem mapM_tryGet {p q : Process} (h : p.Extends q) {deps : List Thunk} {args : List Value}
    (hargs : deps.mapM (Thunk.tryGet p) = some args) :
    deps.mapM (Thunk.tryGet q) = some args := by
  rw [← hargs]
  refine mapM_congr fun d hd => ?_
  cases hp : d.tryGet p with
  | none =>
    rw [mapM_eq_none_iff.mpr ⟨d, hd, hp⟩] at hargs
    cases hargs
  | some v => exact h.tryGet hp

theorem Recorded.sound_mono {memory : Memory} {p q : Process} (h : Recorded memory p)
    (hq : p.Extends q) {t : ThreadId} {i : ℕ} {v : Value} {m m' : Memory}
    (he : Event.res t i v m m' ∈ p.log) : ∃ c args, (q.flows t).decoded[i]? = some c ∧
      c.deps.mapM (Thunk.tryGet q) = some args ∧ c.compute m args = some (v, m') := by
  obtain ⟨c, args, hc, hargs, hcomp⟩ := h.sound t i v m m' he
  exact ⟨c, args, hq.getElem? hc, mapM_tryGet hq hargs, hcomp⟩

theorem recorded_new (memory : Memory) : Recorded memory (.new memory) where
  linked := rfl
  nodup := List.nodup_nil
  sound := nofun

theorem invariant_recorded (memory : Memory) :
    Invariant (fun _ _ => True) (Recorded memory) where
  same {p q} hs h := by
    have hext : p.Extends q :=
      ⟨fun t => by rw [hs.decoded], fun hv => by rw [hs.value]; exact hv⟩
    refine ⟨?_, ?_, fun t i v m m' he => ?_⟩
    · rw [hs.log, hs.memory]
      exact h.linked
    · rw [Process.trace, hs.log]
      exact h.nodup
    · rw [hs.log] at he
      exact h.sound_mono hext he
  push hp ht hseq h :=
    ⟨h.linked, h.nodup, fun _ _ _ _ _ he =>
      h.sound_mono ((Process.Decoded.push ht hseq).extends hp) he⟩
  store {p n} hp h := by
    refine ⟨linked_append.mpr ⟨_, h.linked, rfl, rfl⟩, ?_, fun t i v m m' he => ?_⟩
    · simpa only [Process.trace, List.filterMap_append, List.filterMap_cons, List.filterMap_nil,
        Event.id, List.append_nil] using h.nodup
    · rcases List.mem_append.mp he with he | he
      · exact h.sound_mono ⟨fun _ => List.prefix_rfl, id⟩ he
      · cases List.mem_singleton.mp he
  resolve {p p' c} hp h he _ hs := by
    cases hs with
    | @resolved args v n hargs hv hcomp _ =>
      have hext := Process.extends_resolve hv v n
      refine ⟨linked_append.mpr ⟨_, h.linked, rfl, rfl⟩, ?_, fun t i w m m' hev => ?_⟩
      · -- a thunk that is resolved now has no value yet, so it is not in the trace
        rw [trace_resolve]
        refine List.nodup_append.mpr ⟨h.nodup, List.nodup_singleton _, fun x hx y hy hxy => ?_⟩
        rw [hxy, List.mem_singleton.mp hy, mem_trace hp] at hx
        exact hx hv
      · rcases List.mem_append.mp hev with hev | hev
        · exact h.sound_mono hext hev
        · cases List.mem_singleton.mp hev
          exact ⟨c, args, hext.getElem? (hp.getElem?_of_mem he.mem), mapM_tryGet hext hargs, hcomp⟩

/-- The number that the `w`-bit location at `a` holds. -/
def Memory.number (m : Memory) (a w : ℕ) : ℕ := (m.read a ⟨w, w⟩).asU128

namespace Process

/-- An `atomicrmw` thunk that adds to the `w`-bit location at `a`. -/
def IsAdd (p : Process) (a w : ℕ) (x : ThreadId × ℕ) : Prop :=
  ∃ layout address value atomicity, Layout.ofInt w = some layout ∧
    (p.flows x.1).decoded[x.2]? = some ((FlowCtx.atomicrmw layout address value atomicity
      COperationName.add.callScalarBinop).thunk x.1 x.2) ∧
    (address.tryGet p).map Value.asU64 = some a

/-- The number that an `atomicrmw` thunk has as its operand. -/
def operand (p : Process) (x : ThreadId × ℕ) : ℕ :=
  (((p.flows x.1).decoded[x.2]?.bind fun c => c.deps[1]?).bind (Thunk.tryGet p)).elim 0
    Value.asU128

open Classical in
noncomputable def adds (p : Process) (a w : ℕ) : List (ThreadId × ℕ) :=
  p.trace.filter fun x => p.IsAdd a w x

open Classical in
/-- The addition that an event resolves, if any. -/
noncomputable def addOf (p : Process) (a w : ℕ) (e : Event) : Option (ThreadId × ℕ) :=
  e.id.filter fun x => p.IsAdd a w x

theorem adds_eq (p : Process) (a w : ℕ) : p.adds a w = p.log.filterMap (p.addOf a w) := by
  rw [adds, trace, List.filter_filterMap]
  rfl

open Classical in
theorem addOf_eq_some {p : Process} {a w : ℕ} {e : Event} {x : ThreadId × ℕ} :
    p.addOf a w e = some x ↔ e.id = some x ∧ p.IsAdd a w x := by
  rw [addOf, Option.filter_eq_some_iff, decide_eq_true_eq]

/-- Nothing but these additions changes the bytes of the location. -/
def OnlyAdds (p : Process) (a w : ℕ) : Prop :=
  ∀ e ∈ p.log, (∀ x ∈ e.id, ¬ p.IsAdd a w x) →
    ∀ y, a ≤ y → y < a + w / 8 → e.after.byteAt y = e.before.byteAt y

end Process

section Widths

variable {w : ℕ}

theorem width_facts : ∀ w ∈ [8, 16, 32, 64, 128],
    w % 8 = 0 ∧ w ≠ 1 ∧ w ≤ 128 ∧ Layout.ofInt w = some ⟨w, w⟩ := by
  decide

theorem cmpxchgOutput_eq (hw : w ∈ [8, 16, 32, 64, 128]) :
    ∃ struct : Layout, FlowCtx.cmpxchgOutput ⟨w, w⟩ = some (struct, [0, (w : ℤ)]) ∧
      w + 1 ≤ struct.bits := by
  simp only [List.mem_cons, List.not_mem_nil, or_false] at hw
  rcases hw with rfl | rfl | rfl | rfl | rfl <;> exact ⟨_, rfl, by decide⟩

theorem cmpxchgExtract_eq {struct : Layout}
    (h : FlowCtx.cmpxchgOutput ⟨w, w⟩ = some (struct, [0, (w : ℤ)])) (v : Value) :
    FlowCtx.cmpxchgExtract ⟨w, w⟩ v 0 = v.extractBits 0 w ∧
      FlowCtx.cmpxchgExtract ⟨w, w⟩ v 1 = v.extractBits w 1 := by
  have hbool : Layout.ofInt 1 = some ⟨1, 8⟩ := by decide
  simp [FlowCtx.cmpxchgExtract, h, hbool]

theorem callScalarBinop_add {x y z : Value} (hw : x.bits ∈ [8, 16, 32, 64, 128])
    (h : COperationName.add.callScalarBinop x y = some z) :
    z = Value.new x.bits ((x.asU128 + y.asU128) % 2 ^ x.bits) := by
  simp only [COperationName.callScalarBinop, callScalarBinopUnsigned] at h
  rw [if_neg fun hb => (width_facts _ hw).2.1 hb.1] at h
  split_ifs at h with hb
  simp only [Value.unwrapInt, hb.2, if_true, Option.bind_eq_bind, Option.bind_some,
    Option.some.injEq] at h
  exact h.symm

end Widths

section Location

variable {p : Process} {a w : ℕ} {m m' : Memory}

theorem number_mod (hw : w ∈ [8, 16, 32, 64, 128]) : m.number a w % 2 ^ w = m.number a w := by
  have hbits : (m.read a ⟨w, w⟩).bits = w := rfl
  refine Nat.mod_eq_of_lt ?_
  have hlt := Value.asU128_lt (v := m.read a ⟨w, w⟩) (hbits.symm ▸ (width_facts w hw).1)
  rwa [hbits] at hlt

theorem number_congr (hw : w ∈ [8, 16, 32, 64, 128])
    (h : ∀ y, a ≤ y → y < a + w / 8 → m'.byteAt y = m.byteAt y) :
    m'.number a w = m.number a w := by
  have hbytes : (⟨w, w⟩ : Layout).bytes = w / 8 := by
    have hmod := (width_facts w hw).1
    simp only [Layout.bytes]
    omega
  rw [Memory.number, Memory.read_congr fun y h₁ h₂ => h y h₁ (hbytes ▸ h₂), Memory.number]

theorem number_write {v : Value} (hv : v.bits = w) :
    (m.write a v.imp).number a w = v.asU128 := by
  have hlen : v.imp.length = (⟨w, w⟩ : Layout).bytes := by rw [v.length_imp, hv, Layout.bytes]
  rw [Memory.number, Value.asU128, Memory.read_write_imp m a v ⟨w, w⟩ hlen, Value.asU128]

theorem number_of_isAdd (hw : w ∈ [8, 16, 32, 64, 128]) {memory : Memory}
    (h : Recorded memory p) {x : ThreadId × ℕ} {v : Value}
    (he : Event.res x.1 x.2 v m m' ∈ p.log) (hadd : p.IsAdd a w x) :
    v.asU128 = m.number a w ∧ m'.number a w = (m.number a w + p.operand x) % 2 ^ w := by
  obtain ⟨layout, address, value, atomicity, hlayout, hdec, haddr⟩ := hadd
  obtain ⟨hmod, -, hle, hofInt⟩ := width_facts w hw
  cases Option.some.inj (hofInt.symm.trans hlayout)
  obtain ⟨c, args, hc, hargs, hcomp⟩ := h.sound _ _ _ _ _ he
  cases Option.some.inj (hdec.symm.trans hc)
  obtain ⟨ptr, y, hptr, hy, rfl⟩ := mapM_pair hargs
  obtain ⟨ptr', hptr', ha⟩ := Option.map_eq_some_iff.mp haddr
  cases Option.some.inj (hptr.symm.trans hptr')
  -- the closure ran on `y`, which is the operand that the trace is judged by
  have hop : p.operand x = y.asU128 := by
    rw [Process.operand, hdec]
    show ((value.tryGet p).elim 0 Value.asU128) = _
    rw [hy]
    rfl
  have hcomp := (compute_atomicrmw address ⟨w, w⟩ atomicity m ptr value _ y).symm.trans hcomp
  obtain ⟨current, hload, hcomp⟩ := Option.bind_eq_some_iff.mp hcomp
  obtain ⟨new, hnew, hcomp⟩ := Option.bind_eq_some_iff.mp hcomp
  obtain ⟨n, hstore, hn⟩ := Option.map_eq_some_iff.mp hcomp
  cases hn
  rw [Memory.loadImpl_eq] at hload
  rw [Memory.storeImpl_eq] at hstore
  split_ifs at hload hstore
  cases hload
  cases hstore
  rw [ha] at hnew ⊢
  have hnew : new = Value.new w ((m.number a w + y.asU128) % 2 ^ w) := callScalarBinop_add hw hnew
  have hbits : new.bits = w := by rw [hnew]; rfl
  rw [number_write hbits, hop, hnew, Value.asU128_new hle, Nat.mod_mod]
  exact ⟨rfl, rfl⟩

/-- Along the trace the location collects the operands of the additions. -/
theorem number_of_linked (hw : w ∈ [8, 16, 32, 64, 128]) {memory : Memory}
    (h : Recorded memory p) (honly : p.OnlyAdds a w) {l : List Event} (hl : ∀ e ∈ l, e ∈ p.log)
    (hlink : Linked memory l m) : m.number a w = (memory.number a w +
      ((l.filterMap (p.addOf a w)).map p.operand).sum) % 2 ^ w := by
  -- from the back, as the last event decides the number that the memory holds
  induction l using List.reverseRecOn generalizing m with
  | nil =>
    cases hlink
    simp [number_mod hw]
  | append_singleton l e ih =>
    obtain ⟨n, hn, rfl, rfl⟩ := linked_append.mp hlink
    have ih := ih (fun e he => hl e (List.mem_append_left _ he)) hn
    have he := hl e (by simp)
    rw [List.filterMap_append, List.map_append, List.sum_append, ← Nat.add_assoc]
    cases hadd : p.addOf a w e with
    | none =>
      have hsame : e.after.number a w = e.before.number a w := by
        refine number_congr hw (honly e he fun x hx hadd' => ?_)
        rw [Process.addOf_eq_some.mpr ⟨hx, hadd'⟩] at hadd
        cases hadd
      simp [hadd, hsame, ih]
    | some x =>
      obtain ⟨hid, hadd'⟩ := Process.addOf_eq_some.mp hadd
      cases e with
      | store m m' => cases hid
      | res t i v m m' =>
        cases hid
        refine (number_of_isAdd hw h he hadd').2.trans ?_
        rw [show m.number a w = _ from ih]
        simp [hadd, Nat.mod_add_mod]

/-- The events before the `k`-th one that `f` selects. -/
theorem exists_of_getElem?_filterMap {α β : Type*} {f : α → Option β} {l : List α} {k : ℕ} {b : β}
    (h : (l.filterMap f)[k]? = some b) : ∃ l₁ e l₂, l = l₁ ++ e :: l₂ ∧ f e = some b ∧
      l₁.filterMap f = (l.filterMap f).take k := by
  obtain ⟨hk, hb⟩ := List.getElem?_eq_some_iff.mp h
  have hsplit : l.filterMap f =
      (l.filterMap f).take k ++ b :: (l.filterMap f).drop (k + 1) := by
    rw [← hb, List.getElem_cons_drop, List.take_append_drop]
  obtain ⟨l₁, l₂, rfl, h₁, h₂⟩ := List.filterMap_eq_append_iff.mp hsplit
  obtain ⟨l₃, e, l₄, rfl, h₃, he, -⟩ := List.filterMap_eq_cons_iff.mp h₂
  refine ⟨l₁ ++ l₃, e, l₄, by simp, he, ?_⟩
  rw [List.filterMap_append, List.filterMap_eq_nil_iff.mpr h₃, List.append_nil, h₁]

theorem mem_adds (hp : p.WF) {x : ThreadId × ℕ} :
    x ∈ p.adds a w ↔ p.IsAdd a w x ∧ p.value x.1 x.2 ≠ none := by
  classical
  rw [Process.adds, List.mem_filter, decide_eq_true_eq, mem_trace hp, and_comm]

/-- The `k`-th addition returns what the additions before it have left. -/
theorem value_of_getElem?_adds (hw : w ∈ [8, 16, 32, 64, 128]) {memory : Memory}
    (hp : p.WF) (h : Recorded memory p) (honly : p.OnlyAdds a w) {k : ℕ} {x : ThreadId × ℕ}
    (hx : (p.adds a w)[k]? = some x) : ∃ v, p.value x.1 x.2 = some v ∧
      v.asU128 = (memory.number a w + (((p.adds a w).take k).map p.operand).sum) % 2 ^ w := by
  rw [Process.adds_eq] at hx ⊢
  obtain ⟨l₁, e, l₂, hlog, he, htake⟩ := exists_of_getElem?_filterMap hx
  have hmem : e ∈ p.log := by simp [hlog]
  have hlink := h.linked
  rw [hlog, linked_append] at hlink
  obtain ⟨n, hn, hbefore, -⟩ := hlink
  have hsum := number_of_linked hw h honly
    (fun d hd => by rw [hlog]; exact List.mem_append_left _ hd) hn
  obtain ⟨hid, hadd⟩ := Process.addOf_eq_some.mp he
  cases e with
  | store m m' => cases hid
  | res t i v m m' =>
    cases hid
    cases hbefore
    refine ⟨v, hp.logged.mpr ⟨m, m', hmem⟩, ?_⟩
    rw [(number_of_isAdd hw h hmem hadd).1, ← htake]
    exact hsum

/-- A resolved `cmpxchg` returns the value it finds, sets the flag exactly when this is the
expected value, and stores the replacement exactly then. -/
theorem cmpxchg_result (hw : w ∈ [8, 16, 32, 64, 128]) {memory : Memory} (h : Recorded memory p)
    {t : ThreadId} {i : ℕ} {v : Value} (he : Event.res t i v m m' ∈ p.log)
    {address expected replacement : Thunk} {success failure : Ordering} {layout : Layout}
    (hlayout : Layout.ofInt w = some layout)
    (hdec : (p.flows t).decoded[i]? = some ((FlowCtx.cmpxchg layout address expected replacement
      success failure).thunk t i)) (haddr : (address.tryGet p).map Value.asU64 = some a) :
    ∃ old e r flag, m.loadImpl a layout = some old ∧ expected.tryGet p = some e ∧
      replacement.tryGet p = some r ∧ FlowCtx.cmpxchgExtract layout v 0 = some old ∧
      (FlowCtx.cmpxchgExtract layout v 1).bind Value.unwrapBool = some flag ∧
      (flag = true ↔ old = e) ∧ (flag = true → m.storeImpl a r = some m') ∧
      (flag = false → m' = m) := by
  obtain ⟨hmod, -, -, hofInt⟩ := width_facts w hw
  cases Option.some.inj (hofInt.symm.trans hlayout)
  obtain ⟨c, args, hc, hargs, hcomp⟩ := h.sound _ _ _ _ _ he
  cases Option.some.inj (hdec.symm.trans hc)
  obtain ⟨ptr, e, r, hptr, hexp, hrep, rfl⟩ := mapM_triple hargs
  obtain ⟨ptr', hptr', rfl⟩ := Option.map_eq_some_iff.mp haddr
  cases Option.some.inj (hptr.symm.trans hptr')
  have hcomp := (compute_cmpxchg address ⟨w, w⟩ m ptr expected replacement success failure
    e r).symm.trans hcomp
  obtain ⟨current, hload, hcomp⟩ := Option.bind_eq_some_iff.mp hcomp
  obtain ⟨n, hstore, hcomp⟩ := Option.bind_eq_some_iff.mp hcomp
  obtain ⟨o, ho, hcomp⟩ := Option.bind_eq_some_iff.mp hcomp
  obtain ⟨v', hagg, hv⟩ := Option.map_eq_some_iff.mp hcomp
  cases hv
  -- the result is the aggregate of the old value and the flag
  obtain ⟨struct, hout, hstruct⟩ := cmpxchgOutput_eq hw
  cases Option.some.inj (hout.symm.trans ho)
  have hbits : current.bits = w := Memory.bits_of_loadImpl hload
  obtain ⟨v', hagg', hold, hflag⟩ :=
    Value.aggregate_pair (hbits.symm ▸ hmod) (hbits.symm ▸ hstruct) (current == e)
  rw [hbits] at hagg' hold hflag
  cases Option.some.inj (hagg'.symm.trans hagg)
  refine ⟨current, e, r, current == e, hload, hexp, hrep, ?_, ?_, beq_iff_eq, ?_, ?_⟩
  · rw [(cmpxchgExtract_eq hout _).1, hold]
  · rw [(cmpxchgExtract_eq hout _).2, hflag, Option.bind_some, Value.unwrapBool_ofBool]
  · intro heq
    rwa [if_pos heq] at hstore
  · intro hne
    rw [hne, if_neg Bool.false_ne_true] at hstore
    exact (Option.some.inj hstore).symm

/-- In every run, from any memory and with any number of threads, a location that only
additions write to holds its first value plus the operands of the additions resolved so far,
the `k`-th of which returns what those before it have left; and every `cmpxchg` on the
location that is resolved reports truly whether it stored its replacement. -/
theorem no_lost_update {memory : Memory} {acts : List Action} {c : Config}
    (h : (Config.decoding (.new memory)).run acts = some c) {a w : ℕ}
    (hw : w ∈ [8, 16, 32, 64, 128]) :
    (c.process.OnlyAdds a w →
      (c.process.adds a w).Nodup ∧
      (∀ x, x ∈ c.process.adds a w ↔
        c.process.IsAdd a w x ∧ c.process.value x.1 x.2 ≠ none) ∧
      c.process.memory.number a w =
        (memory.number a w + ((c.process.adds a w).map c.process.operand).sum) % 2 ^ w ∧
      ∀ k x, (c.process.adds a w)[k]? = some x → ∃ v, c.process.value x.1 x.2 = some v ∧
        v.asU128 = (memory.number a w +
          (((c.process.adds a w).take k).map c.process.operand).sum) % 2 ^ w) ∧
    ∀ t i v m m', Event.res t i v m m' ∈ c.process.log →
      ∀ layout address expected replacement success failure, Layout.ofInt w = some layout →
      (c.process.flows t).decoded[i]? = some ((FlowCtx.cmpxchg layout address expected replacement
        success failure).thunk t i) →
      (address.tryGet c.process).map Value.asU64 = some a →
      ∃ old e r flag, m.loadImpl a layout = some old ∧ expected.tryGet c.process = some e ∧
        replacement.tryGet c.process = some r ∧ FlowCtx.cmpxchgExtract layout v 0 = some old ∧
        (FlowCtx.cmpxchgExtract layout v 1).bind Value.unwrapBool = some flag ∧
        (flag = true ↔ old = e) ∧ (flag = true → m.storeImpl a r = some m') ∧
        (flag = false → m' = m) := by
  have hgood := (invariant_recorded memory).run (Config.good_new (recorded_new memory)) h
    fun _ _ => trivial
  refine ⟨fun honly => ⟨?_, fun x => mem_adds hgood.wf, ?_, fun k x hx => ?_⟩, ?_⟩
  · classical exact hgood.inv.nodup.filter _
  · rw [Process.adds_eq]
    exact number_of_linked hw hgood.inv honly (fun _ => id) hgood.inv.linked
  · exact value_of_getElem?_adds hw hgood.wf hgood.inv honly hx
  · intro t i v m m' he layout address expected replacement success failure hlayout hdec haddr
    exact cmpxchg_result hw hgood.inv he hlayout hdec haddr

end Location

theorem invariant_extends (p : Process) : Invariant (fun _ _ => True) p.Extends where
  same {q r} hs h :=
    h.trans ⟨fun t => by rw [hs.decoded], fun hv => by rw [hs.value]; exact hv⟩
  push hp ht hseq h := h.trans ((Process.Decoded.push ht hseq).extends hp)
  store _ h := ⟨h.decoded, h.value⟩
  resolve _ h _ _ hs := h.trans hs.extends

/-- Two threads add to a location while a third thunk fails to exchange its value. -/
theorem no_lost_update_two_threads : ∃ acts c,
    (Config.decoding (.new .new)).run acts = some c ∧ c.process.OnlyAdds 128 32 ∧
    c.process.trace = [(1, 0), (1, 1), (0, 0)] ∧
    c.process.memory.number 128 32 = (Memory.new.number 128 32 +
      ((c.process.adds 128 32).map c.process.operand).sum) % 2 ^ 32 := by
  let add (n : ℕ) : ThunkArgs :=
    FlowCtx.atomicrmw ⟨32, 32⟩ (ptr 128) (int n) .relaxed COperationName.add.callScalarBinop
  let cmpxchg : ThunkArgs := FlowCtx.cmpxchg ⟨32, 32⟩ (ptr 128) (int 9) (int 0) .relaxed .relaxed
  let ds : List Decode := [.addThread, .addThread, (add 3).decode 0, (add 4).decode 1,
    cmpxchg.decode 1]
  let acts : List Action := [.pass, .choose 1, .pass, .choose 1, .pass, .choose 0]
  have hrun : ∃ p ∈ ds.foldlM Process.decode (.new .new), ∃ c ∈ (Config.decoding p).run acts,
      c.process.trace = [(1, 0), (1, 1), (0, 0)] ∧
      ∀ e ∈ c.process.log, e.id = some (0, 0) ∨ e.id = some (1, 0) ∨
        ∀ y < 4, e.after.byteAt (128 + y) = e.before.byteAt (128 + y) := by decide +kernel
  obtain ⟨p, hp, c, hc, htrace, hlog⟩ := hrun
  have hpre := run_decodes hp
  have h : (Config.decoding (.new .new)).run (ds.map .decode ++ acts) = some c :=
    (Config.run_append hpre).trans hc
  -- the run keeps what was decoded, so the two additions can be read off `p`
  have hwf : p.WF := ((invariant_recorded .new).run (Config.good_new (recorded_new .new)) hpre
    fun _ _ => trivial).wf
  have hgood : (Config.decoding p).Good (fun _ _ => True) p.Extends := ⟨hwf, .refl p, nofun⟩
  have hext : p.Extends c.process := ((invariant_extends p).run hgood hc fun _ _ => trivial).inv
  have hdecoded : (p.flows 0).decoded[0]? = some ((add 3).thunk 0 0) ∧
      (p.flows 1).decoded[0]? = some ((add 4).thunk 1 0) := by
    simp only [ds, Option.mem_def, List.foldlM_cons, List.foldlM_nil] at hp
    obtain ⟨p₁, h₁, hp⟩ := Option.bind_eq_some_iff.mp hp
    obtain ⟨p₂, h₂, hp⟩ := Option.bind_eq_some_iff.mp hp
    obtain ⟨p₃, h₃, hp⟩ := Option.bind_eq_some_iff.mp hp
    obtain ⟨p₄, h₄, hp⟩ := Option.bind_eq_some_iff.mp hp
    obtain ⟨p₅, h₅, hp⟩ := Option.bind_eq_some_iff.mp hp
    cases h₁
    cases h₂
    cases hp
    obtain ⟨-, rfl⟩ := decode_eq_some h₃
    obtain ⟨-, rfl⟩ := decode_eq_some h₄
    obtain ⟨-, rfl⟩ := decode_eq_some h₅
    exact ⟨rfl, rfl⟩
  have haddr : (Value.new 64 128).asU64 = 128 := by decide
  have hadd : ∀ x, x = (0, 0) ∨ x = (1, 0) → c.process.IsAdd 128 32 x := by
    rintro x (rfl | rfl)
    · exact ⟨⟨32, 32⟩, ptr 128, int 3, .relaxed, by decide, hext.getElem? hdecoded.1,
        congrArg some haddr⟩
    · exact ⟨⟨32, 32⟩, ptr 128, int 4, .relaxed, by decide, hext.getElem? hdecoded.2,
        congrArg some haddr⟩
  have honly : c.process.OnlyAdds 128 32 := by
    intro e he hnot y hy hlt
    rcases hlog e he with hid | hid | hsame
    · exact absurd (hadd _ (.inl rfl)) (hnot _ hid)
    · exact absurd (hadd _ (.inr rfl)) (hnot _ hid)
    · obtain ⟨z, rfl⟩ := Nat.exists_eq_add_of_le hy
      exact hsame z (by omega)
  exact ⟨_, c, h, honly, htrace, ((no_lost_update h (by decide)).1 honly).2.2.1⟩

end AtomicSim
