import Mathlib.Tactic.Ring
import AtomicSim.Native.Calls

namespace AtomicSim

def llvmMemcpyP0i8P0i8I64 : Func :=
  nativeFn "llvm.memcpy.p0i8.p0i8.i64" (.four .addr .addr .addr .bool)
    fun (dst, src, cnt, _volatile) k => FlowCtx.memcpy dst src cnt (k Value.ofUnit)

def llvmMemmoveP0i8P0i8I64 : Func :=
  nativeFn "llvm.memmove.p0i8.p0i8.i64" (.three .addr .addr .addr)
    fun (dst, src, cnt) k => FlowCtx.memcpy dst src cnt (k Value.ofUnit)

/-- `u128` shift to the left, which panics on a shift amount of 128 or more. -/
def shlU128 (x s : ℕ) : Option ℕ := if s < 128 then some (x * 2 ^ s % 2 ^ 128) else none

def fshlI64 (a b s : ℕ) : Option ℕ := do
  let high ← shlU128 a 64
  let x ← shlU128 (high ||| b) s
  some (x / 2 ^ 64 % 2 ^ 64)

def llvmFshlI64 : Func :=
  nativeComp "llvm.fshl.i64" (.three .u64 .u64 .u64) fun x =>
    (fshlI64 x.1 x.2.1 x.2.2).map (Value.new 64)

/-- The high 64 bits of `a` and `b` side by side, shifted to the left by `s` modulo 64. -/
def funnelShiftLeft (a b s : BitVec 64) : BitVec 64 :=
  ((a ++ b) <<< (s.toNat % 64)).extractLsb' 64 64

theorem toNat_append_shift (a b : BitVec 64) (r : ℕ) :
    (((a ++ b) <<< r).extractLsb' 64 64).toNat =
      (a.toNat * 2 ^ 64 + b.toNat) * 2 ^ r % 2 ^ 128 / 2 ^ 64 := by
  have happend : (a ++ b).toNat = a.toNat * 2 ^ 64 + b.toNat := by
    rw [BitVec.toNat_append, ← Nat.shiftLeft_add_eq_or_of_lt b.isLt, Nat.shiftLeft_eq]
  rw [BitVec.extractLsb'_toNat, BitVec.toNat_shiftLeft, happend, Nat.shiftLeft_eq,
    Nat.shiftRight_eq_div_pow]
  apply Nat.mod_eq_of_lt
  omega

theorem funnelShiftLeft_self (a s : BitVec 64) : funnelShiftLeft a a s = a.rotateLeft s.toNat := by
  apply BitVec.eq_of_getElem_eq
  intro i hi
  have hmod : s.toNat % 64 < 64 := Nat.mod_lt _ (by omega)
  rw [funnelShiftLeft, BitVec.getElem_extractLsb', BitVec.getLsbD_shiftLeft, BitVec.getLsbD_append,
    BitVec.getElem_rotateLeft]
  have hlow : 64 + i < 64 + 64 := by omega
  have hge : ¬ 64 + i < s.toNat % 64 := by omega
  simp only [hlow, hge, decide_true, decide_false, Bool.not_false, Bool.true_and]
  split_ifs with h₁ h₂ h₂
  · rw [BitVec.getLsbD_eq_getElem h₁]
    congr 1
    omega
  · omega
  · omega
  · rw [BitVec.getLsbD_eq_getElem (by omega)]
    congr 1
    omega

theorem shlU128_eq {x s : ℕ} (h : s < 128) : shlU128 x s = some (x * 2 ^ s % 2 ^ 128) := if_pos h

theorem or_shl_64 {a b : ℕ} (ha : a < 2 ^ 64) (hb : b < 2 ^ 64) :
    a * 2 ^ 64 % 2 ^ 128 ||| b = a * 2 ^ 64 + b := by
  have hlt : a * 2 ^ 64 < 2 ^ 128 := by omega
  rw [Nat.mod_eq_of_lt hlt, ← Nat.shiftLeft_eq, Nat.shiftLeft_add_eq_or_of_lt hb]

theorem fshlI64_eq {a b s : ℕ} (ha : a < 2 ^ 64) (hb : b < 2 ^ 64) :
    fshlI64 a b s =
      if s < 128 then some ((a * 2 ^ 64 + b) * 2 ^ s % 2 ^ 128 / 2 ^ 64) else none := by
  have hlt : (a * 2 ^ 64 + b) * 2 ^ s % 2 ^ 128 / 2 ^ 64 < 2 ^ 64 := by omega
  rw [fshlI64, shlU128_eq (by omega), Option.bind_eq_bind, Option.bind_some, or_shl_64 ha hb,
    shlU128]
  split_ifs
  · simp only [Option.bind_some, Nat.mod_eq_of_lt hlt]
  · rfl

/-- Shifted left by a whole width `p * q` and by `q` more, the high half of `a` and `b` is what
is left of `b`; shifted by `q` alone, it has the high part of `b` below `a`. -/
theorem shifted_eq_iff {a b p q : ℕ} (hq : 0 < q) (hb : b < p * q) :
    b * q % (p * q) = (a * q + b / p) % (p * q) ↔ a % p = b := by
  have hp : 0 < p := Nat.pos_of_ne_zero fun hp => by simp [hp] at hb
  have hdiv : b / p < q := Nat.div_lt_of_lt_mul hb
  have hleft : b * q % (p * q) = b % p * q := Nat.mul_mod_mul_right q b p
  have hright : (a * q + b / p) % (p * q) = a % p * q + b / p := by
    have hquot : (a * q + b / p) / q = a := by
      rw [Nat.add_comm, Nat.add_mul_div_right _ _ hq, Nat.div_eq_of_lt hdiv, Nat.zero_add]
    rw [mul_comm p q, Nat.mod_mul, Nat.mul_add_mod_of_lt hdiv, hquot, mul_comm q, Nat.add_comm]
  rw [hleft, hright]
  constructor
  · intro h
    have hzero : b / p = 0 := by
      have hmod := congrArg (· % q) h
      simpa [Nat.mul_mod_left, Nat.mul_add_mod_of_lt hdiv] using hmod.symm
    have hlt : b < p := (Nat.div_eq_zero_iff_lt hp).mp hzero
    rw [hzero, Nat.add_zero, Nat.mod_eq_of_lt hlt] at h
    exact (Nat.eq_of_mul_eq_mul_right hq h).symm
  · intro h
    have hlt : b < p := h ▸ Nat.mod_lt a hp
    rw [Nat.div_eq_of_lt hlt, Nat.mod_eq_of_lt hlt, h, Nat.add_zero]

theorem fshlI64_lt {a b s n : ℕ} (h : fshlI64 a b s = some n) : n < 2 ^ 64 := by
  simp only [fshlI64, Option.bind_eq_bind, Option.bind_eq_some_iff, Option.some.injEq] at h
  obtain ⟨_, _, _, _, rfl⟩ := h
  omega

theorem fshlI64_eq_iff (a b s : BitVec 64) :
    fshlI64 a.toNat b.toNat s.toNat = some (funnelShiftLeft a b s).toNat ↔
      s.toNat < 64 ∨ s.toNat < 128 ∧ a.toNat % 2 ^ (128 - s.toNat) = b.toNat := by
  have hspec : (funnelShiftLeft a b s).toNat =
      (a.toNat * 2 ^ 64 + b.toNat) * 2 ^ (s.toNat % 64) % 2 ^ 128 / 2 ^ 64 :=
    toNat_append_shift a b _
  rw [fshlI64_eq a.isLt b.isLt, hspec]
  generalize s.toNat = n
  have ha := a.isLt
  have hb := b.isLt
  generalize a.toNat = a at ha
  generalize b.toNat = b at hb
  by_cases h64 : n < 64
  · have h128 : n < 128 := by omega
    simp [h64, h128, Nat.mod_eq_of_lt h64]
  by_cases h128 : n < 128
  · -- `n = 64 + r`, so that all of `a` leaves the high half
    obtain ⟨r, hr, rfl⟩ : ∃ r < 64, n = 64 + r := ⟨n - 64, by omega, by omega⟩
    have hmod : (64 + r) % 64 = r := by omega
    have hsub : 128 - (64 + r) = 64 - r := by omega
    have hsplit : 2 ^ (64 - r) * 2 ^ r = 2 ^ 64 := by
      rw [← Nat.pow_add, Nat.sub_add_cancel hr.le]
    have hhalf : ∀ x, x % 2 ^ 128 / 2 ^ 64 = x / 2 ^ 64 % 2 ^ 64 := fun x =>
      Nat.mod_mul_right_div_self x (2 ^ 64) (2 ^ 64)
    have hprod : (a * 2 ^ 64 + b) * 2 ^ r = b * 2 ^ r + a * 2 ^ r * 2 ^ 64 := by ring
    have hleft : (a * 2 ^ 64 + b) * 2 ^ (64 + r) % 2 ^ 128 / 2 ^ 64 = b * 2 ^ r % 2 ^ 64 := by
      rw [hhalf, Nat.pow_add, mul_left_comm, Nat.mul_div_cancel_left _ (by omega), hprod,
        Nat.add_mul_mod_self_right]
    have hright : (a * 2 ^ 64 + b) * 2 ^ r % 2 ^ 128 / 2 ^ 64 =
        (a * 2 ^ r + b / 2 ^ (64 - r)) % 2 ^ 64 := by
      have hlow : b * 2 ^ r / 2 ^ 64 = b / 2 ^ (64 - r) := by
        rw [← hsplit, Nat.mul_div_mul_right _ _ (Nat.two_pow_pos r)]
      rw [hhalf, hprod, Nat.add_mul_div_right _ _ (by omega), hlow, Nat.add_comm]
    have hiff := shifted_eq_iff (a := a) (Nat.two_pow_pos r) (hsplit ▸ hb)
    rw [hsplit] at hiff
    rw [if_pos h128, hmod, hsub, Option.some.injEq, hleft, hright, hiff]
    simp [h64, h128]
  · simp [h64, h128]

/-- The builtin returns the funnel shift exactly on shift amounts below 64, and on those below
128 for which `b` is what `a` keeps of its low bits; on others it returns another number or
panics. -/
theorem llvmFshlI64_eq_iff (x y z : Thunk) (a b s : BitVec 64) :
    ∃ c : ThunkArgs, c.deps = [x, y, z] ∧ (∀ k, llvmFshlI64.callImp [x, y, z] k = .thunk c k) ∧
      funnelShiftLeft a a s = a.rotateLeft s.toNat ∧
      ∀ memory : Memory, c.compute memory
          [Value.new 64 a.toNat, Value.new 64 b.toNat, Value.new 64 s.toNat] =
            some (Value.new 64 (funnelShiftLeft a b s).toNat, memory) ↔
        s.toNat < 64 ∨ s.toNat < 128 ∧ a.toNat % 2 ^ (128 - s.toNat) = b.toNat := by
  refine ⟨_, rfl, fun k => rfl, funnelShiftLeft_self a s, fun memory => ?_⟩
  rw [← fshlI64_eq_iff]
  have hread := fun (a : BitVec 64) (x : Thunk) => NativeInput.fromThunk_uint (by omega) a.isLt x
  have hargs := NativeInputs.fromThunks_three (hread a x) (hread b y) (hread s z)
  rw [compute_nativeComp hargs memory]
  constructor
  · intro h
    obtain ⟨v, hv, he⟩ := Option.map_eq_some_iff.mp h
    obtain ⟨n, hn, rfl⟩ := Option.map_eq_some_iff.mp hv
    have heq : Process.addr n = Process.addr (funnelShiftLeft a b s).toNat :=
      congrArg Prod.fst he
    have hnum := congrArg Value.asU64 heq
    rw [Value.asU64_addr (fshlI64_lt hn), Value.asU64_addr (BitVec.isLt _)] at hnum
    rw [hn, hnum]
  · intro h
    rw [h]
    rfl

/-- A rotation by 65 loses the bit that comes round, and one by 128 panics. -/
theorem llvmFshlI64_fails : ∃ c : ThunkArgs,
    (∀ k, llvmFshlI64.callImp [.cell 0 0, .cell 0 1, .cell 0 2] k = .thunk c k) ∧
    (c.compute .new [Value.new 64 (2 ^ 63), Value.new 64 (2 ^ 63), Value.new 64 65]).map Prod.fst =
      some (Value.new 64 0) ∧
    (BitVec.ofNat 64 (2 ^ 63)).rotateLeft 65 = 1 ∧
    (c.compute .new [Value.new 64 1, Value.new 64 1, Value.new 64 128]).map Prod.fst = none :=
  ⟨_, fun _ => rfl, by decide +kernel, by decide, by decide +kernel⟩

namespace Machine

/-- The call of thread `t` has returned, and the bytes are where they belong. -/
structure Moved (s s' : Machine) (t : ThreadId) (dst src len : ℕ) : Prop where
  returned : s'.control t = .ret
  succeeded : s'.failure = none
  copied : ∀ i < len, s'.process.memory.byteAt (dst + i) = s.process.memory.byteAt (src + i)
  kept : ∀ x, ¬ (dst ≤ x ∧ x < dst + len) →
    s'.process.memory.byteAt x = s.process.memory.byteAt x

theorem Gathered.llvmMemcpy {t : ThreadId} {m : Memory} {s : Machine} {dst src len : ℕ} {b : Bool}
    {x y z w : Thunk}
    (h : Alone t m (llvmMemcpyP0i8P0i8I64.callImp [x, y, z, w] fun _ => .ret) s)
    (hv : s.Operands [x, y, z, w]
      [Process.addr dst, Process.addr src, Process.addr len, Value.ofBool b])
    (hsrc : src + len < 2 ^ 64) (hdst : dst + len < 2 ^ 64) (hlen : len * 8 < 2 ^ 64) :
    ∃ s', Leads s s' ∧ Moved s s' t dst src len := by
  obtain ⟨s₁, hs₁, h₁⟩ := h.nativeFn (n := 4) hv rfl (by decide)
    (NativeInputs.fromThunks_four (NativeInput.fromThunk_addr (by omega) x)
      (NativeInput.fromThunk_addr (by omega) y) (NativeInput.fromThunk_addr (by omega) z)
      (NativeInput.fromThunk_bool w b))
  obtain ⟨s₂, m', hs₂, h₂, -, hcopy⟩ := h₁.memcpy hsrc hdst hlen
  obtain ⟨s₃, i, hs₃, -, h₃⟩ := h₂.decode (by simp) nofun
  refine ⟨s₃, (hs₁.trans hs₂).trans hs₃, h₃.control, h₃.failure, fun i hi => ?_, fun x hx => ?_⟩
  · rw [h₃.process.memory, h.process.memory, hcopy, if_pos (by omega), Nat.add_sub_cancel_left]
  · rw [h₃.process.memory, h.process.memory, hcopy, if_neg hx]

theorem doomed_memmove {s : Machine} {t : ThreadId} {x y z w : Thunk}
    (hs : s.control t = llvmMemmoveP0i8P0i8I64.callImp [x, y, z, w] fun _ => .ret) :
    Doomed (.argumentMismatch llvmMemmoveP0i8P0i8I64.name) (s.control t) := by
  rw [hs]
  exact doomed_fromThunksLoop (n := 3) rfl (Nat.lt_succ_self 3) rfl (by decide)

/-- The builtin has no place for the fourth operand: whatever the memory, the operands and what
other threads do, a call with four operands does not return. -/
theorem llvmMemmove_not_moved {s : Machine} (h : s.WF) {t : ThreadId} {x y z w : Thunk}
    (hs : s.control t = llvmMemmoveP0i8P0i8I64.callImp [x, y, z, w] fun _ => .ret)
    (dst src len : ℕ) : ¬ ∃ as s', s.run as = some s' ∧ Moved s s' t dst src len := by
  rintro ⟨as, s', hr, hm⟩
  have hend := (doomed_memmove hs).run h hr
  rw [hm.returned] at hend
  cases hend

/-- The move of four bytes from 160 to 128. -/
def memmoveCall : Task :=
  llvmMemmoveP0i8P0i8I64.callImp [.constant (Process.addr 128), .constant (Process.addr 160),
    .constant (Process.addr 4), .constant (Value.ofBool false)] fun _ => .ret

theorem wf_memmoveCall : (started .new memmoveCall).WF := by
  apply wf_started
  refine ⟨trivial, fun _ => ⟨trivial, fun _ => ⟨trivial, fun _ => trivial⟩⟩⟩

theorem llvmMemmove_not_moved_start :
    ¬ ∃ as s', (started .new memmoveCall).run as = some s' ∧
      Moved (started .new memmoveCall) s' 0 128 160 4 :=
  llvmMemmove_not_moved wf_memmoveCall (alone_started .new memmoveCall).control 128 160 4

/-- The call panics over its fourth operand, and so the bytes do not move. -/
theorem llvmMemmove_mismatch :
    (∃ s, (started .new memmoveCall).run [.poll 0, .poll 0, .poll 0, .poll 0] = some s ∧
      s.failure = some (.argumentMismatch "llvm.memmove.p0i8.p0i8.i64")) ∧
    ¬ ∃ as s', (started .new memmoveCall).run as = some s' ∧
      Moved (started .new memmoveCall) s' 0 128 160 4 := by
  constructor
  · have hrun : ∃ s ∈ (started .new memmoveCall).run [.poll 0, .poll 0, .poll 0, .poll 0],
        s.failure = some (.argumentMismatch "llvm.memmove.p0i8.p0i8.i64") := by decide +kernel
    exact hrun
  · rintro ⟨as, s', hr, hm⟩
    have hend := (doomed_memmove (alone_started .new memmoveCall).control).run wf_memmoveCall hr
    rw [hm.returned] at hend
    cases hend

end Machine
end AtomicSim
