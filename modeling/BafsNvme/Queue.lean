import BafsNvme.RetireCursor
import Mathlib.Data.BitVec

/-! The command, completion and queue structures of `common/queue.h`, with the bit
macros of `common/bafs_utils.h` that read them. -/

namespace BafsNvme

abbrev Dword := BitVec 32

/-- `_BIT_MASK` -/
def bitMask (numBits : Nat) : BitVec 64 := (1#64 <<< numBits) - 1#64

/-- `_RBIT_MASK` -/
def rbitMask (high low : Nat) : BitVec 64 := bitMask (high + 1) - bitMask low

/-- `_RDBITS` -/
def rdBits (val : BitVec 64) (high low : Nat) : BitVec 64 := (val &&& rbitMask high low) >>> low

theorem rdBits_toNat (val : BitVec 64) {high low : Nat} (order : low ≤ high) (bound : high < 63) :
    (rdBits val high low).toNat = val.toNat / 2 ^ low % 2 ^ (high + 1 - low) := by
  have lower : 2 ^ low < 2 ^ 64 := Nat.pow_lt_pow_right (by norm_num) (by omega)
  have upper : 2 ^ (high + 1) < 2 ^ 64 := Nat.pow_lt_pow_right (by norm_num) (by omega)
  have mask (n : Nat) (small : 2 ^ n < 2 ^ 64) : (bitMask n).toNat = 2 ^ n - 1 := by
    have one : (1#64 <<< n).toNat = 2 ^ n := by
      rw [BitVec.toNat_shiftLeft, BitVec.toNat_ofNat, Nat.one_mod_two_pow (by norm_num),
        Nat.one_shiftLeft]
      exact Nat.mod_eq_of_lt small
    have positive : 1 ≤ 2 ^ n := Nat.one_le_two_pow
    rw [bitMask, BitVec.toNat_sub_of_le (by rw [BitVec.le_def, one]; exact positive), one]
    rfl
  have range : (rbitMask high low).toNat = (2 ^ (high + 1 - low) - 1) <<< low := by
    have below : 2 ^ low ≤ 2 ^ (high + 1) := Nat.pow_le_pow_right (by norm_num) (by omega)
    have positive : 1 ≤ 2 ^ low := Nat.one_le_two_pow
    rw [rbitMask, BitVec.toNat_sub_of_le, mask _ lower, mask _ upper, Nat.shiftLeft_eq, Nat.sub_mul,
      ← Nat.pow_add, Nat.sub_add_cancel (by omega), Nat.one_mul]
    · rw [Nat.sub_sub_sub_cancel_right positive]
    · rw [BitVec.le_def, mask _ lower, mask _ upper]
      exact Nat.sub_le_sub_right below 1
  rw [rdBits, BitVec.toNat_ushiftRight, BitVec.toNat_and, range, Nat.shiftRight_and_distrib,
    Nat.shiftLeft_shiftRight, Nat.and_two_pow_sub_one_eq_mod, Nat.shiftRight_eq_div_pow]

theorem shift_or_toNat {high low : Dword} {shift : Nat} (fits : high.toNat * 2 ^ shift < 2 ^ 32)
    (below : low.toNat < 2 ^ shift) :
    (high <<< shift ||| low).toNat = high.toNat * 2 ^ shift + low.toNat := by
  have whole : high.toNat <<< shift % 2 ^ 32 = high.toNat <<< shift := by
    rw [Nat.shiftLeft_eq]
    exact Nat.mod_eq_of_lt fits
  rw [BitVec.toNat_or, BitVec.toNat_shiftLeft, whole, ← Nat.shiftLeft_add_eq_or_of_lt below,
    Nat.shiftLeft_eq]

/-- The indices of `dword[]` are literals of these two types. -/
instance cmdIndex : NeZero 16 := ⟨by decide⟩

instance cplIndex : NeZero 4 := ⟨by decide⟩

structure Cmd where
  dword : Fin 16 → Dword
  deriving DecidableEq

structure Cpl where
  dword : Fin 4 → Dword
  deriving DecidableEq

namespace Cmd

def set (cmd : Cmd) (i : Fin 16) (value : Dword) : Cmd :=
  { cmd with dword := Function.update cmd.dword i value }

/-- `dword[0] >> 16`, as every caller recovers the CID and as the SQ cleanup reads it. -/
def cid (cmd : Cmd) : Nat := (cmd.dword 0 >>> 16).toNat

/-- `dword[0] |= (uint32_t)(cid << 16)` -/
def withCid (cmd : Cmd) (cid : Nat) : Cmd :=
  cmd.set 0 (cmd.dword 0 ||| BitVec.ofNat 32 (cid <<< 16))

theorem cid_lt (cmd : Cmd) : cmd.cid < 2 ^ 16 := by
  have bound := (cmd.dword 0).isLt
  rw [cid, BitVec.toNat_ushiftRight, Nat.shiftRight_eq_div_pow]
  omega

theorem withCid_cid {cmd : Cmd} {cid : Nat} (fresh : cmd.cid = 0) (bound : cid < 2 ^ 16) :
    (cmd.withCid cid).cid = cid := by
  have shifted : cid <<< 16 % 2 ^ 32 = cid <<< 16 := by
    rw [Nat.shiftLeft_eq]
    exact Nat.mod_eq_of_lt (by omega)
  rw [Cmd.cid, BitVec.toNat_ushiftRight] at fresh
  simp only [Cmd.cid, withCid, set, Function.update_self, BitVec.toNat_ushiftRight,
    BitVec.toNat_or, BitVec.toNat_ofNat, shifted, Nat.shiftRight_or_distrib, fresh,
    Nat.zero_or, Nat.shiftLeft_shiftRight]

end Cmd

inductive AdminCmdOpcode where
  | DEL_IO_SQ
  | CRT_IO_SQ
  | DEL_IO_CQ
  | CRT_IO_CQ
  | SET_FEAT
  | DEV_SELF_TEST
  deriving DecidableEq

def AdminCmdOpcode.code : AdminCmdOpcode → Dword
  | DEL_IO_SQ => 0x0#32
  | CRT_IO_SQ => 0x1#32
  | DEL_IO_CQ => 0x4#32
  | CRT_IO_CQ => 0x5#32
  | SET_FEAT => 0x9#32
  | DEV_SELF_TEST => 0x14#32

def clearCmd : Cmd := ⟨fun _ => 0#32⟩

/-- A command as the callers build it: `clear_cmd` and an opcode leave the CID field 0. -/
abbrev FreshCmd := { cmd : Cmd // cmd.cid = 0 }

def devSelfTestCmd : FreshCmd :=
  ⟨(clearCmd.set 0 AdminCmdOpcode.DEV_SELF_TEST.code).set 10 0x01#32, by decide⟩

namespace Cpl

/-- `dword[3] & 0x0000ffff` -/
def cid (cpl : Cpl) : Nat := (cpl.dword 3 &&& 0x0000ffff#32).toNat

/-- `!!((dword[3] >> 16) & 0x1)` -/
def phase (cpl : Cpl) : Bool := (cpl.dword 3 >>> 16) &&& 0x1#32 != 0#32

def status (cpl : Cpl) : Nat := (cpl.dword 3 >>> 17).toNat

def zero : Cpl := ⟨fun _ => 0#32⟩

theorem zero_phase : zero.phase = false := by decide

def answer (cid : Nat) (phase : Bool) (status : Nat) : Cpl where
  dword := Function.update (fun _ => 0#32) 3
    (BitVec.ofNat 32 (cid + 2 ^ 16 * (phase.toNat + 2 * status)))

theorem answer_fields {cid status : Nat} (phase : Bool) (cidBound : cid < 2 ^ 16)
    (statusBound : status < 2 ^ 15) :
    (answer cid phase status).cid = cid ∧ (answer cid phase status).phase = phase := by
  have bit := Bool.toNat_lt phase
  have whole : (cid + 2 ^ 16 * (phase.toNat + 2 * status)) % 2 ^ 32 =
      cid + 2 ^ 16 * (phase.toNat + 2 * status) := Nat.mod_eq_of_lt (by omega)
  have low : (65535 : Nat) = 2 ^ 16 - 1 := by norm_num
  constructor
  · simp only [answer, Cpl.cid, Function.update_self, BitVec.toNat_and, BitVec.toNat_ofNat, whole]
    rw [Nat.mod_eq_of_lt (by norm_num : 65535 < 2 ^ 32), low, Nat.and_two_pow_sub_one_eq_mod]
    omega
  · have upper : (cid + 2 ^ 16 * (phase.toNat + 2 * status)) / 2 ^ 16 =
        phase.toNat + 2 * status := by omega
    have field : ((answer cid phase status).dword 3 >>> 16 &&& 0x1#32).toNat = phase.toNat := by
      simp only [answer, Function.update_self, BitVec.toNat_and, BitVec.toNat_ushiftRight,
        BitVec.toNat_ofNat, whole, Nat.shiftRight_eq_div_pow, upper]
      rw [Nat.mod_eq_of_lt (by norm_num : 1 < 2 ^ 32), Nat.and_one_is_mod]
      omega
    cases phase with
    | false =>
        have zero : (answer cid false status).dword 3 >>> 16 &&& 0x1#32 = 0#32 :=
          BitVec.eq_of_toNat_eq (by simpa using field)
        simp [Cpl.phase, zero]
    | true =>
        have one : (answer cid true status).dword 3 >>> 16 &&& 0x1#32 = 1#32 :=
          BitVec.eq_of_toNat_eq (by simpa using field)
        simp [Cpl.phase, one]

theorem answer_status {cid status : Nat} (phase : Bool) (cidBound : cid < 2 ^ 16)
    (statusBound : status < 2 ^ 15) : (answer cid phase status).status = status := by
  have bit := Bool.toNat_lt phase
  have whole : (cid + 2 ^ 16 * (phase.toNat + 2 * status)) % 2 ^ 32 =
      cid + 2 ^ 16 * (phase.toNat + 2 * status) := Nat.mod_eq_of_lt (by omega)
  simp only [answer, Cpl.status, Function.update_self, BitVec.toNat_ushiftRight, BitVec.toNat_ofNat,
    whole, Nat.shiftRight_eq_div_pow]
  omega

end Cpl

/-- `struct queue` of one admin ring: the memory behind `addr` is the entries, `db` is the
value last written to the doorbell, and a flag stands for each byte of `mark` and `cid`.
The inherited cursor holds `head`, `phase` and `mark`. -/
structure Ring (α : Type) extends RetireCursor where
  es : Nat
  qs : Nat
  tail : Nat
  db : Option Nat
  addr : Nat → α
  cid : Nat → Bool

structure AdminRings where
  cq : Ring Cpl
  sq : Ring Cmd

def MAX_CMD : Nat := 65536

end BafsNvme
