import AtomicSim.Lib.Fueled
import AtomicSim.Native.Calls

namespace AtomicSim

/-- `as_bytes` of a string. -/
def bytesOf (s : String) : List Byte := s.toByteArray.data.toList.map UInt8.toBitVec

/-- `String::from_utf8`. -/
def stringOf (bytes : List Byte) : Option String :=
  String.fromUTF8? ⟨(bytes.map UInt8.ofBitVec).toArray⟩

theorem stringOf_bytesOf (s : String) : stringOf (bytesOf s) = some s := by
  have hbytes : (bytesOf s).map UInt8.ofBitVec = s.toByteArray.data.toList := by
    simp [bytesOf, Function.comp_def]
  rw [stringOf, hbytes, Array.toArray_toList, String.fromUTF8?, dif_pos s.isValidUTF8]
  rfl

namespace FlowCtx

/-- The loop of `strlen` and `memchr`: the bytes behind `base` are loaded one by one. -/
def scan (base : ℕ) (stop : ℕ → Bool) (found : ℕ → Task) (missed : Task) : ℕ → ℕ → Task
  | 0, _ => missed
  | n + 1, i =>
    match addU64 base i with
    | none => .panic .unwrap
    | some ptr =>
      load ptr (.fromBytes 1 1) fun v =>
      match v.unwrapInt 8 with
      | none => .panic .unwrap
      | some c => if stop (c % 2 ^ 8) then found i else scan base stop found missed n (i + 1)

/-- The counter of the loop is a `u64`, too. -/
def strlen (string : ℕ) (k : ℕ → Task) : Task :=
  scan string (fun c => c == 0) k (.panic .unwrap) (2 ^ 64) 0

def getString (string : ℕ) (k : String → Task) : Task :=
  strlen string fun len =>
  match Layout.fromBytesU64 len 1 with
  | none => .panic .unwrap
  | some layout =>
    load string layout fun v =>
    match stringOf v.imp with
    | none => .panic .unwrap
    | some s => k s

def string (string : String) (k : ℕ → Task) : Task :=
  let cstr := bytesOf string ++ [0]
  match Layout.fromBytesU64 cstr.length 1 with
  | none => .panic .unwrap
  | some layout =>
    alloc layout fun res =>
    match Value.fromBytes cstr layout.bits with
    | none => .panic .unwrap
    | some value => store res value (k res)

end FlowCtx

/-- `memchr` in `native/libc.rs`. -/
def memchr : Func :=
  nativeFn "memchr" (.three .addr .u32 .addr) fun (ptr, value, num) k =>
    FlowCtx.scan ptr (fun c => c == value) (fun i => k (Process.addr (ptr + i)))
      (k (Process.addr 0)) num 0

namespace Memory

theorem unwrapInt_read (m : Memory) (x : ℕ) :
    (m.read x (.fromBytes 1 1)).unwrapInt 8 = some (m.byteAt x).toNat := by
  have himp : (m.read x (.fromBytes 1 1)).imp = [m.byteAt x] := by
    simp [Memory.read, MemoryInner.read, Memory.byteAt, Layout.fromBytes, Layout.bytes]
  have hbits : (m.read x (.fromBytes 1 1)).bits = 8 := rfl
  rw [Value.unwrapInt, if_pos hbits, Value.asU128, himp]
  simp [LittleEndian.toNat]

theorem exists_byteAt_eq_zero (m : Memory) (p : ℕ) : ∃ i, m.byteAt (p + i) = 0 := by
  obtain ⟨n, hn⟩ : ∃ n, ∀ e ∈ m.inner.cells.map, e.1 ≤ n :=
    Prog.Runs.exists_bound _ (fun _ _ _ => le_trans) fun e _ => ⟨e.1, le_rfl⟩
  refine ⟨n, ?_⟩
  have hlookup : m.inner.cells.lookup (p + n) = none := by
    rw [RangeMap.lookup, Option.map_eq_none_iff, List.find?_eq_none]
    intro e he hc
    have hstop := (of_decide_eq_true hc).2
    have hle := hn e he
    simp only [RangeMap.entryRange] at hstop
    omega
  simp only [Memory.byteAt, MemoryInner.byteAt, hlookup]

/-- What may become of a memory: blocks are allocated, and stores stay clear of the range. -/
inductive Later (r : Range ℕ) (m : Memory) : Memory → Prop
  | refl : Later r m m
  | alloc {n n' : Memory} {layout : Layout} {ptr : ℕ} : Later r m n →
      n.alloc layout = some (ptr, n') → Later r m n'
  | store {n n' : Memory} {ptr : ℕ} {value : Value} : Later r m n →
      ¬ (⟨ptr, ptr + value.imp.length⟩ : Range ℕ).Overlaps r →
      n.storeImpl ptr value = some n' → Later r m n'

theorem Later.byteAt {r : Range ℕ} {m n : Memory} (h : Later r m n) {x : ℕ} (hx : r.Contains x) :
    n.byteAt x = m.byteAt x := by
  induction h with
  | refl => rfl
  | alloc _ ha ih => rw [byteAt_alloc ha, ih]
  | @store n n' ptr value _ hdisj hs ih =>
    rw [Memory.storeImpl_eq] at hs
    split_ifs at hs
    rw [← Option.some.inj hs, Memory.byteAt_write, if_neg, ih]
    intro hcov
    exact hdisj (Range.overlaps_iff_exists.mpr ⟨x, hcov, hx⟩)

end Memory

namespace Machine

section Gathered

variable {t : ThreadId} {m : Memory} {s : Machine} {base : ℕ} {stop : ℕ → Bool}
  {found : ℕ → Task} {missed : Task}

theorem Gathered.scan_step {n i : ℕ}
    (h : Alone t m (FlowCtx.scan base stop found missed (n + 1) i) s)
    (hfit : base + i + 1 < 2 ^ 64) :
    ∃ s', Leads s s' ∧ Alone t m (if stop (m.byteAt (base + i)).toNat then found i
      else FlowCtx.scan base stop found missed n (i + 1)) s' := by
  have hadd : addU64 base i = some (base + i) := if_pos (by omega)
  simp only [FlowCtx.scan, hadd] at h
  obtain ⟨s', hs', h'⟩ := h.load (by rwa [Layout.bytes_fromBytes])
    (m.debug_read _ 1)
  have hlt : (m.byteAt (base + i)).toNat < 2 ^ 8 := BitVec.isLt _
  simp only [Memory.unwrapInt_read, Nat.mod_eq_of_lt hlt] at h'
  exact ⟨s', hs', h'⟩

theorem Gathered.scan_go {d n i : ℕ}
    (h : Alone t m (FlowCtx.scan base stop found missed (d + n) i) s)
    (hfit : base + i + d < 2 ^ 64)
    (hgo : ∀ j < d, stop (m.byteAt (base + (i + j))).toNat = false) :
    ∃ s', Leads s s' ∧ Alone t m (FlowCtx.scan base stop found missed n (i + d)) s' := by
  induction d generalizing s i with
  | zero =>
    rw [Nat.zero_add] at h
    exact ⟨s, .refl, h⟩
  | succ d ih =>
    -- one turn, and then the induction hypothesis at the next index
    rw [Nat.add_right_comm] at h
    obtain ⟨s₁, hs₁, h₁⟩ := h.scan_step (by omega)
    have h0 := hgo 0 (Nat.succ_pos d)
    rw [Nat.add_zero] at h0
    rw [h0, if_neg Bool.false_ne_true] at h₁
    obtain ⟨s₂, hs₂, h₂⟩ := ih h₁ (by omega) fun j hj => by
      rw [Nat.add_assoc i, Nat.add_comm 1]
      exact hgo (j + 1) (Nat.succ_lt_succ hj)
    refine ⟨s₂, hs₁.trans hs₂, ?_⟩
    rwa [Nat.add_assoc i, Nat.add_comm 1] at h₂

theorem Gathered.scan_found {n i : ℕ}
    (h : Alone t m (FlowCtx.scan base stop found missed n 0) s) (hi : i < n)
    (hfit : base + i + 1 < 2 ^ 64) (hstop : stop (m.byteAt (base + i)).toNat = true)
    (hgo : ∀ j < i, stop (m.byteAt (base + j)).toNat = false) :
    ∃ s', Leads s s' ∧ Alone t m (found i) s' := by
  obtain ⟨n, rfl⟩ : ∃ l, n = i + (l + 1) := ⟨n - i - 1, by omega⟩
  obtain ⟨s₁, hs₁, h₁⟩ := h.scan_go (by omega) fun j hj => by
    rw [Nat.zero_add]
    exact hgo j hj
  rw [Nat.zero_add] at h₁
  obtain ⟨s₂, hs₂, h₂⟩ := h₁.scan_step hfit
  rw [hstop, if_pos rfl] at h₂
  exact ⟨s₂, hs₁.trans hs₂, h₂⟩

theorem Gathered.scan_missed {n : ℕ}
    (h : Alone t m (FlowCtx.scan base stop found missed n 0) s) (hfit : base + n < 2 ^ 64)
    (hgo : ∀ j < n, stop (m.byteAt (base + j)).toNat = false) :
    ∃ s', Leads s s' ∧ Alone t m missed s' := by
  obtain ⟨s₁, hs₁, h₁⟩ := Gathered.scan_go (d := n) (n := 0) h hfit fun j hj => by
    rw [Nat.zero_add]
    exact hgo j hj
  exact ⟨s₁, hs₁, h₁⟩

theorem Gathered.scan_overflow {n i : ℕ}
    (h : Alone t m (FlowCtx.scan base stop found missed n 0) s) (hi : i < n)
    (hend : base + i + 1 = 2 ^ 64)
    (hgo : ∀ j < i, stop (m.byteAt (base + j)).toNat = false) :
    ∃ s', Leads s s' ∧ s'.Stuck t := by
  obtain ⟨n, rfl⟩ : ∃ l, n = i + (l + 1) := ⟨n - i - 1, by omega⟩
  obtain ⟨s₁, hs₁, h₁⟩ := h.scan_go (by omega) fun j hj => by
    rw [Nat.zero_add]
    exact hgo j hj
  have hadd : addU64 base i = some (base + i) := if_pos (by omega)
  rw [Nat.zero_add] at h₁
  simp only [FlowCtx.scan, hadd] at h₁
  obtain ⟨s₂, hs₂, hnone⟩ := h₁.load_overflow (by omega) (by
    rw [Layout.bytes_fromBytes]
    omega)
  exact ⟨s₂, hs₁.trans hs₂, hnone⟩

theorem Gathered.strlen {p i : ℕ} {k : ℕ → Task} (h : Alone t m (FlowCtx.strlen p k) s)
    (hfit : p + i + 1 < 2 ^ 64) (hnul : m.byteAt (p + i) = 0)
    (hne : ∀ j < i, m.byteAt (p + j) ≠ 0) : ∃ s', Leads s s' ∧ Alone t m (k i) s' := by
  refine h.scan_found (by omega) hfit (by rw [hnul]; rfl) fun j hj => ?_
  rw [beq_eq_false_iff_ne]
  intro hz
  exact hne j hj (BitVec.eq_of_toNat_eq hz)

theorem Gathered.strlen_overflow {p : ℕ} {k : ℕ → Task} (h : Alone t m (FlowCtx.strlen p k) s)
    (hp : p < 2 ^ 64) (hne : ∀ j, p + j + 1 < 2 ^ 64 → m.byteAt (p + j) ≠ 0) :
    ∃ s', Leads s s' ∧ s'.Stuck t := by
  have hend : p + (2 ^ 64 - 1 - p) + 1 = 2 ^ 64 := by omega
  refine h.scan_overflow (by omega) hend fun j hj => ?_
  rw [beq_eq_false_iff_ne]
  intro hz
  exact hne j (by omega) (BitVec.eq_of_toNat_eq hz)

theorem Gathered.getString {p : ℕ} {str : String} {k : String → Task}
    (h : Alone t m (FlowCtx.getString p k) s) (hno : 0 ∉ bytesOf str)
    (hlen : (bytesOf str).length < 2 ^ 61) (hfit : p + (bytesOf str).length + 1 < 2 ^ 64)
    (hbytes : ∀ i < (bytesOf str).length, m.byteAt (p + i) = (bytesOf str).getD i 0)
    (hnul : m.byteAt (p + (bytesOf str).length) = 0) :
    ∃ s', Leads s s' ∧ Alone t m (k str) s' := by
  have hne : ∀ j < (bytesOf str).length, m.byteAt (p + j) ≠ 0 := by
    intro j hj hz
    rw [hbytes j hj, List.getD_eq_getElem _ _ hj] at hz
    exact hno (hz ▸ List.getElem_mem hj)
  obtain ⟨s₁, hs₁, h₁⟩ := h.strlen hfit hnul hne
  rw [Layout.fromBytesU64_eq (by omega)] at h₁
  obtain ⟨s₂, hs₂, h₂⟩ := h₁.load (by rw [Layout.bytes_fromBytes]; omega) (m.debug_read p _)
  have himp : (m.read p (.fromBytes (bytesOf str).length 1)).imp = bytesOf str := by
    simp only [Memory.read, MemoryInner.read, Layout.bytes_fromBytes]
    refine List.ext_getElem (by simp) fun i hi hi' => ?_
    rw [List.getElem_map, List.getElem_range]
    exact (hbytes i hi').trans (List.getD_eq_getElem _ _ hi')
  simp only [himp, stringOf_bytesOf] at h₂
  exact ⟨s₂, hs₁.trans hs₂, h₂⟩

theorem Gathered.string {str : String} {k : ℕ → Task} (h : Alone t m (FlowCtx.string str k) s)
    (hlen : (bytesOf str).length + 1 < 2 ^ 61)
    (hfit : m.inner.next + ((bytesOf str).length + 1) + heapGuard < 2 ^ 64) :
    ∃ s' m', Leads s s' ∧ Alone t m' (k m.inner.next) s' ∧
      ∀ i ≤ (bytesOf str).length, m'.byteAt (m.inner.next + i) = (bytesOf str ++ [0]).getD i 0 := by
  let cstr := bytesOf str ++ [0]
  let layout := Layout.fromBytes cstr.length 1
  have hcstr : cstr.length = (bytesOf str).length + 1 := by simp [cstr]
  have hbytes : layout.bytes = cstr.length := Layout.bytes_fromBytes _
  have halign : layout.byteAlign = 1 := by
    show (1 * 8 + 7) / 8 = 1
    rfl
  have hround : roundUp m.inner.next layout.byteAlign = m.inner.next := by
    rw [halign, roundUp]
    omega
  have hbits : layout.bits = cstr.length * 8 := rfl
  have hfits : layout.Fits := by
    constructor
    · omega
    · show 1 * 8 + 7 < 2 ^ 64
      omega
  have hpow : isPowerOfTwo layout.byteAlign := by
    rw [halign]
    decide
  obtain ⟨n, halloc, -⟩ := m.exists_alloc hfits hpow (by
    rw [hround, hbytes, hcstr]
    exact hfit)
  rw [hround] at halloc
  rw [FlowCtx.string] at h
  have hlayout : Layout.fromBytesU64 (bytesOf str ++ [0]).length 1 = some layout :=
    Layout.fromBytesU64_eq (show cstr.length * 8 < 2 ^ 64 by omega)
  simp only [hlayout] at h
  obtain ⟨s₁, hs₁, h₁⟩ := h.alloc halloc (by omega)
  let value : Value := ⟨layout.bits, cstr, by rw [hbits]; omega⟩
  have hvalue : Value.fromBytes (bytesOf str ++ [0]) layout.bits = some value := dif_pos _
  simp only [hvalue] at h₁
  -- the bytes and the zero behind them go to the block in one store
  obtain ⟨s₂, hs₂, h₂⟩ := h₁.store (by
    show m.inner.next + cstr.length < 2 ^ 64
    omega) ((COperation.isSome_debug _).mpr (.inr (Nat.mul_mod_left _ 8)))
  refine ⟨s₂, _, hs₁.trans hs₂, h₂, fun i hi => ?_⟩
  rw [Memory.byteAt_write, if_pos, Nat.add_sub_cancel_left]
  show m.inner.next ≤ m.inner.next + i ∧ m.inner.next + i < m.inner.next + cstr.length
  omega

end Gathered

/-- `strlen` returns the index of the first zero byte, if the load of that byte ends below
`2 ^ 64`, and panics otherwise; a string with room in the memory is read back as it was written,
whatever is allocated and whatever is stored elsewhere in the meantime. -/
theorem strlen_getString (m : Memory) :
    (∀ p < 2 ^ 64, ∃ i, m.byteAt (p + i) = 0 ∧ (∀ j < i, m.byteAt (p + j) ≠ 0) ∧
      ∀ {t : ThreadId} {s : Machine} {k : ℕ → Task}, Alone t m (FlowCtx.strlen p k) s →
        (p + i + 1 < 2 ^ 64 → ∃ s', Leads s s' ∧ Alone t m (k i) s') ∧
        (2 ^ 64 ≤ p + i + 1 → ∃ s', Leads s s' ∧ s'.Stuck t)) ∧
    ∀ {str : String} {t : ThreadId} {s : Machine} {k : ℕ → Task}, 0 ∉ bytesOf str →
      (bytesOf str).length + 1 < 2 ^ 61 →
      m.inner.next + ((bytesOf str).length + 1) + heapGuard < 2 ^ 64 →
      Alone t m (FlowCtx.string str k) s →
      ∃ s' m' p, Leads s s' ∧ Alone t m' (k p) s' ∧
        ∀ n, Memory.Later ⟨p, p + ((bytesOf str).length + 1)⟩ m' n →
          ∀ {u : ThreadId} {s : Machine} {k : String → Task}, Alone u n (FlowCtx.getString p k) s →
            ∃ s', Leads s s' ∧ Alone u n (k str) s' := by
  constructor
  · intro p hp
    have hex := m.exists_byteAt_eq_zero p
    refine ⟨Nat.find hex, Nat.find_spec hex, fun j => Nat.find_min hex, fun h => ⟨?_, ?_⟩⟩
    · intro hfit
      exact h.strlen hfit (Nat.find_spec hex) fun j => Nat.find_min hex
    · intro hover
      exact h.strlen_overflow hp fun j hj => Nat.find_min hex (by omega)
  · intro str t s k hno hlen hfit h
    obtain ⟨s', m', hs', h', hbytes⟩ := h.string hlen hfit
    refine ⟨s', m', _, hs', h', fun n hn u s₁ k₁ h₁ => ?_⟩
    have hlater : ∀ i ≤ (bytesOf str).length,
        n.byteAt (m.inner.next + i) = (bytesOf str ++ [0]).getD i 0 := by
      intro i hi
      have hin : (⟨m.inner.next, m.inner.next + ((bytesOf str).length + 1)⟩ : Range ℕ).Contains
          (m.inner.next + i) := by
        constructor
        · exact Nat.le_add_right _ _
        · show m.inner.next + i < m.inner.next + ((bytesOf str).length + 1)
          omega
      rw [hn.byteAt hin, hbytes i hi]
    refine h₁.getString hno (by omega) (by omega) (fun i hi => ?_) ?_
    · rw [hlater i hi.le]
      simp [List.getElem?_append_left hi]
    · rw [hlater _ le_rfl]
      simp

/-- A string of two bytes, and the empty string. -/
theorem strlen_getString_hi :
    (∃ s', Leads (started .new (FlowCtx.strlen 128 .send)) s' ∧ Alone 0 .new (.send 0) s') ∧
    ∃ s' m' p, Leads (started .new (FlowCtx.string "hi" .send)) s' ∧ Alone 0 m' (.send p) s' ∧
      ∃ s', Leads (started m' (FlowCtx.getString p fun str => .send str.length)) s' ∧
        Alone 0 m' (.send 2) s' := by
  obtain ⟨hstrlen, hstring⟩ := strlen_getString .new
  constructor
  · obtain ⟨i, -, hne, hrun⟩ := hstrlen 128 (by decide)
    obtain rfl : i = 0 := Nat.eq_zero_of_not_pos fun hi => hne 0 hi (by decide)
    exact (hrun (alone_started .new (FlowCtx.strlen 128 .send))).1 (by decide)
  · have hhi : 0 ∉ bytesOf "hi" := by decide
    obtain ⟨s', m', p, hs', h', hget⟩ := hstring hhi (by decide) (by decide)
      (alone_started .new (FlowCtx.string "hi" .send))
    exact ⟨s', m', p, hs', h', hget m' .refl
      (alone_started m' (FlowCtx.getString p fun str => .send str.length))⟩

/-- The last byte of the address space cannot be loaded, and a memory that is full has no room
for a string. -/
theorem strlen_getString_fails :
    (Memory.new.byteAt (2 ^ 64 - 1) = 0 ∧
      ∃ s', Leads (started .new (FlowCtx.strlen (2 ^ 64 - 1) .send)) s' ∧ s'.Stuck 0) ∧
    ∃ h : Heap, Heap.Reachable h ∧ ∃ m : Memory, m.inner = h.memory ∧
      ∃ s', Leads (started m (FlowCtx.string "" .send)) s' ∧ s'.Stuck 0 := by
  constructor
  · refine ⟨by decide, ?_⟩
    exact (alone_started .new (FlowCtx.strlen (2 ^ 64 - 1) .send)).strlen_overflow (by decide)
      fun j hj => by omega
  · let block : HeapOp := .alloc ⟨2 ^ 64 - 8, 8⟩
    have hrun : ∃ h ∈ Heap.new.run [block, block, block, block, block, block, block,
        .alloc ⟨(2 ^ 61 - 1274) * 8, 8⟩], (h.memory.alloc ⟨8, 8⟩).isNone := by decide +kernel
    obtain ⟨h, hh, hnone⟩ := hrun
    have hr : Heap.Reachable h := Heap.Reachable.new.run hh
    let m : Memory := ⟨h.memory, hr.inv.holds.wf⟩
    have halloc : m.alloc ⟨8, 8⟩ = none :=
      Memory.alloc_eq_none (m := m) (Option.isNone_iff_eq_none.mp hnone)
    have hlayout : Layout.fromBytesU64 (bytesOf "" ++ [0]).length 1 = some ⟨8, 8⟩ := by decide
    refine ⟨h, hr, m, rfl, ?_⟩
    have hstart := alone_started m (FlowCtx.string "" .send)
    generalize started m (FlowCtx.string "" .send) = s at hstart ⊢
    rw [FlowCtx.string] at hstart
    simp only [hlayout] at hstart
    exact hstart.alloc_overflow halloc

/-- The answer of `memchr` in C for the byte `c`. -/
def FirstByte (m : Memory) (ptr num c r : ℕ) : Prop :=
  (∃ i < num, (m.byteAt (ptr + i)).toNat = c ∧ (∀ j < i, (m.byteAt (ptr + j)).toNat ≠ c) ∧
    r = ptr + i) ∨
  (∀ i < num, (m.byteAt (ptr + i)).toNat ≠ c) ∧ r = 0

theorem exists_firstByte (m : Memory) (ptr num c : ℕ) : ∃ r, FirstByte m ptr num c r := by
  by_cases hex : ∃ i, i < num ∧ (m.byteAt (ptr + i)).toNat = c
  · refine ⟨ptr + Nat.find hex, .inl ⟨Nat.find hex, (Nat.find_spec hex).1, (Nat.find_spec hex).2,
      fun j hj hc => ?_, rfl⟩⟩
    exact Nat.find_min hex hj ⟨hj.trans (Nat.find_spec hex).1, hc⟩
  · exact ⟨0, .inr ⟨fun i hi hc => hex ⟨i, hi, hc⟩, rfl⟩⟩

theorem Gathered.memchr {t : ThreadId} {m : Memory} {s : Machine} {ptr value num r : ℕ}
    {k : Value → Task} {x y z : Thunk}
    (h : Alone t m (memchr.callImp [x, y, z] fun d => .await d k) s)
    (hv : s.Operands [x, y, z] [Process.addr ptr, Value.new 32 value, Process.addr num])
    (hvalue : value < 2 ^ 32) (hfit : ptr + num < 2 ^ 64) (hr : FirstByte m ptr num value r) :
    ∃ s', Leads s s' ∧ Alone t m (k (Process.addr r)) s' := by
  obtain ⟨s₁, hs₁, h₁⟩ := h.nativeFn (n := 3) hv rfl (by decide)
    (NativeInputs.fromThunks_three (NativeInput.fromThunk_addr (by omega) x)
      (NativeInput.fromThunk_uint (by omega) hvalue y) (NativeInput.fromThunk_addr (by omega) z))
  have hscan : ∃ s₂, Leads s₁ s₂ ∧
      Alone t m (FlowCtx.constant (Process.addr r) fun d => .await d k) s₂ := by
    rcases hr with ⟨i, hi, hc, hne, rfl⟩ | ⟨hne, rfl⟩
    · refine h₁.scan_found hi (by omega) (beq_iff_eq.mpr hc) fun j hj => ?_
      exact beq_eq_false_iff_ne.mpr (hne j hj)
    · exact h₁.scan_missed hfit fun j hj => beq_eq_false_iff_ne.mpr (hne j hj)
  obtain ⟨s₂, hs₂, h₂⟩ := hscan
  obtain ⟨s₃, hs₃, h₃⟩ := h₂.compute rfl rfl rfl (Process.debug_addr r)
  exact ⟨s₃, (hs₁.trans hs₂).trans hs₃, h₃⟩

/-- What `memchr` returns is C's answer exactly if the argument is a byte already, or none of
the bytes equals it modulo 256, or the first that does is at the address zero. -/
theorem memchr_firstByte_iff (m : Memory) (ptr value num : ℕ) (hvalue : value < 2 ^ 32)
    (hfit : ptr + num < 2 ^ 64) :
    ∃ r, (∀ {t : ThreadId} {s : Machine} {k : Value → Task} {x y z : Thunk},
        Alone t m (memchr.callImp [x, y, z] fun d => .await d k) s →
        s.Operands [x, y, z] [Process.addr ptr, Value.new 32 value, Process.addr num] →
        ∃ s', Leads s s' ∧ Alone t m (k (Process.addr r)) s') ∧
      (FirstByte m ptr num (value % 256) r ↔
        value < 256 ∨ (∀ i < num, (m.byteAt (ptr + i)).toNat ≠ value % 256) ∨
          ptr = 0 ∧ 0 < num ∧ (m.byteAt 0).toNat = value % 256) := by
  obtain ⟨r, hr⟩ := exists_firstByte m ptr num value
  refine ⟨r, fun h hv => h.memchr hv hvalue hfit hr, ?_⟩
  by_cases hbyte : value < 256
  · rw [Nat.mod_eq_of_lt hbyte]
    exact iff_of_true hr (.inl hbyte)
  have hne : ∀ i, (m.byteAt i).toNat ≠ value := fun i => by
    have hlt := (m.byteAt i).isLt
    omega
  -- no byte is as large as the argument, and so the code finds none
  obtain rfl : r = 0 := by
    rcases hr with ⟨i, -, hc, -⟩ | ⟨-, h0⟩
    · exact absurd hc (hne _)
    · exact h0
  constructor
  · rintro (⟨i, hi, hc, -, h0⟩ | ⟨hall, -⟩)
    · obtain ⟨rfl, rfl⟩ : ptr = 0 ∧ i = 0 := by omega
      exact .inr (.inr ⟨rfl, hi, hc⟩)
    · exact .inr (.inl hall)
  · rintro (hlt | hall | ⟨rfl, hpos, hc⟩)
    · exact absurd hlt hbyte
    · exact .inr ⟨hall, rfl⟩
    · exact .inl ⟨0, hpos, hc, nofun, rfl⟩

/-- The call for the byte zero among four that were never stored, by its number and by 256. -/
def memchrCall (value : ℕ) : Task :=
  memchr.callImp [.constant (Process.addr 128), .constant (Value.new 32 value),
    .constant (Process.addr 4)] fun d => .await d fun v => .send v.asU64

theorem operands_memchrCall (value : ℕ) : (started .new (memchrCall value)).Operands
    [.constant (Process.addr 128), .constant (Value.new 32 value), .constant (Process.addr 4)]
    [Process.addr 128, Value.new 32 value, Process.addr 4] :=
  .cons rfl (.cons rfl (.cons rfl .nil))

theorem memchr_firstByte_iff_zero :
    ∃ s', Leads (started .new (memchrCall 0)) s' ∧ Alone 0 .new (.send 128) s' := by
  obtain ⟨r, hrun, hiff⟩ := memchr_firstByte_iff .new 128 0 4 (by decide) (by decide)
  obtain ⟨i, -, -, hne, rfl⟩ | ⟨hne, -⟩ := hiff.mpr (.inl (by decide))
  · obtain rfl : i = 0 := Nat.eq_zero_of_not_pos fun hi => hne 0 hi (by decide)
    have hsent := hrun (alone_started .new (memchrCall 0)) (operands_memchrCall 0)
    simpa only [Value.asU64_addr (show 128 + 0 < 2 ^ 64 by decide)] using hsent
  · exact absurd rfl (hne 0 (by decide))

/-- The argument 256 stands for the byte zero, but the code answers that there is none. -/
theorem memchr_fails :
    (∃ s', Leads (started .new (memchrCall 256)) s' ∧ Alone 0 .new (.send 0) s') ∧
    FirstByte .new 128 4 (256 % 256) 128 ∧ ¬ FirstByte .new 128 4 (256 % 256) 0 := by
  have hnone : FirstByte .new 128 4 256 0 := by
    refine .inr ⟨fun i _ => ?_, rfl⟩
    have hlt := (Memory.new.byteAt (128 + i)).isLt
    omega
  have hsent := (alone_started .new (memchrCall 256)).memchr (operands_memchrCall 256) (by decide)
    (by decide) hnone
  simp only [Value.asU64_addr (show 0 < 2 ^ 64 by decide)] at hsent
  refine ⟨hsent, .inl ⟨0, by decide, by decide, nofun, rfl⟩, ?_⟩
  rintro (⟨i, -, -, -, h0⟩ | ⟨hne, -⟩)
  · omega
  · exact hne 0 (by decide) (by decide)

end Machine
end AtomicSim
