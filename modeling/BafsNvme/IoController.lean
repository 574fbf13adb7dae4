import BafsNvme.Queue
import Mathlib.Tactic

/-! The Create and Delete I/O queue commands as `kernel/nvme/admin.c` packs them, and a
controller that decodes them into its queue tables. -/

namespace BafsNvme

/-- `(high << 16) | low` -/
def packDword (high low : Nat) : Dword := (BitVec.ofNat 32 high <<< 16) ||| BitVec.ofNat 32 low

def crtIoCqCmd (addr : BitVec 64) (qs i : Nat) : Cmd :=
  ((((clearCmd.set 0 AdminCmdOpcode.CRT_IO_CQ.code).set 6 (addr.setWidth 32)).set 7
    ((addr >>> 32).setWidth 32)).set 10 (packDword (qs - 1) (i + 1))).set 11 0x01#32

def crtIoSqCmd (addr : BitVec 64) (qs i : Nat) : Cmd :=
  ((((clearCmd.set 0 AdminCmdOpcode.CRT_IO_SQ.code).set 6 (addr.setWidth 32)).set 7
    ((addr >>> 32).setWidth 32)).set 10 (packDword (qs - 1) (i + 1))).set 11 (packDword (i + 1) 0x01)

def delIoSqCmd (i : Nat) : Cmd :=
  (clearCmd.set 0 AdminCmdOpcode.DEL_IO_SQ.code).set 10 (BitVec.ofNat 32 (i + 1))

def delIoCqCmd (i : Nat) : Cmd :=
  (clearCmd.set 0 AdminCmdOpcode.DEL_IO_CQ.code).set 10 (BitVec.ofNat 32 (i + 1))

namespace Cmd

def opcode (cmd : Cmd) : Dword := cmd.dword 0 &&& 0xff#32

def qid (cmd : Cmd) : Nat := (cmd.dword 10 &&& 0xffff#32).toNat

def qsize (cmd : Cmd) : Nat := (cmd.dword 10 >>> 16).toNat

def cqid (cmd : Cmd) : Nat := (cmd.dword 11 >>> 16).toNat

def prp1 (cmd : Cmd) : BitVec 64 := cmd.dword 7 ++ cmd.dword 6

end Cmd

structure IoCq where
  addr : BitVec 64
  size : Nat
  deriving DecidableEq

structure IoSq where
  addr : BitVec 64
  size : Nat
  cqid : Nat
  deriving DecidableEq

structure IoController where
  cqs : Nat → Option IoCq
  sqs : Nat → Option IoSq

/-- What the controller grants, all zero-based. -/
structure IoLimits where
  mqes : Nat
  ncqa : Nat
  nsqa : Nat

namespace IoController

def empty : IoController := ⟨fun _ => none, fun _ => none⟩

def Accepts (limits : IoLimits) (ctl : IoController) (cmd : Cmd) : Prop :=
  if cmd.opcode = AdminCmdOpcode.CRT_IO_CQ.code then
    1 ≤ cmd.qid ∧ cmd.qid ≤ limits.ncqa + 1 ∧ ctl.cqs cmd.qid = none ∧ cmd.qsize ≤ limits.mqes
  else if cmd.opcode = AdminCmdOpcode.CRT_IO_SQ.code then
    1 ≤ cmd.qid ∧ cmd.qid ≤ limits.nsqa + 1 ∧ ctl.sqs cmd.qid = none ∧
      cmd.qsize ≤ limits.mqes ∧ (ctl.cqs cmd.cqid).isSome = true
  else if cmd.opcode = AdminCmdOpcode.DEL_IO_SQ.code then (ctl.sqs cmd.qid).isSome = true
  else if cmd.opcode = AdminCmdOpcode.DEL_IO_CQ.code then
    (ctl.cqs cmd.qid).isSome = true ∧ ∀ q sq, ctl.sqs q = some sq → sq.cqid ≠ cmd.qid
  else True

def execute (ctl : IoController) (cmd : Cmd) : IoController :=
  if cmd.opcode = AdminCmdOpcode.CRT_IO_CQ.code then
    { ctl with cqs := Function.update ctl.cqs cmd.qid (some ⟨cmd.prp1, cmd.qsize + 1⟩) }
  else if cmd.opcode = AdminCmdOpcode.CRT_IO_SQ.code then
    { ctl with sqs := Function.update ctl.sqs cmd.qid (some ⟨cmd.prp1, cmd.qsize + 1, cmd.cqid⟩) }
  else if cmd.opcode = AdminCmdOpcode.DEL_IO_SQ.code then
    { ctl with sqs := Function.update ctl.sqs cmd.qid none }
  else if cmd.opcode = AdminCmdOpcode.DEL_IO_CQ.code then
    { ctl with cqs := Function.update ctl.cqs cmd.qid none }
  else ctl

/-- The controller completes a command with `status` and performs it on success only. -/
def answer (ctl : IoController) (cmd : Cmd) (status : Nat) : IoController :=
  if status = 0 then ctl.execute cmd else ctl

end IoController

theorem packDword_low {high low : Nat} (lowBound : low < 2 ^ 16) :
    (packDword high low &&& 0xffff#32).toNat = low := by
  have mask : (65535 : Nat) = 2 ^ 16 - 1 := by norm_num
  have word : low % 2 ^ 32 = low := Nat.mod_eq_of_lt (by omega)
  have shifted : (high % 2 ^ 32) <<< 16 % 2 ^ 32 % 2 ^ 16 = 0 := by
    rw [Nat.shiftLeft_eq]
    omega
  rw [packDword, BitVec.toNat_and, BitVec.toNat_or, BitVec.toNat_shiftLeft, BitVec.toNat_ofNat,
    BitVec.toNat_ofNat, BitVec.toNat_ofNat, Nat.mod_eq_of_lt (by norm_num : 65535 < 2 ^ 32),
    word, mask, Nat.and_two_pow_sub_one_eq_mod, Nat.or_mod_two_pow, shifted, Nat.zero_or]
  exact Nat.mod_eq_of_lt lowBound

theorem packDword_toNat {high low : Nat} (highBound : high < 2 ^ 16) (lowBound : low < 2 ^ 16) :
    (packDword high low).toNat = high * 2 ^ 16 + low := by
  have highWord : (BitVec.ofNat 32 high).toNat = high := by
    rw [BitVec.toNat_ofNat]
    exact Nat.mod_eq_of_lt (by omega)
  have lowWord : (BitVec.ofNat 32 low).toNat = low := by
    rw [BitVec.toNat_ofNat]
    exact Nat.mod_eq_of_lt (by omega)
  rw [packDword, shift_or_toNat (by rw [highWord]; omega) (by rw [lowWord]; exact lowBound), highWord,
    lowWord]

theorem packDword_high {high low : Nat} (highBound : high < 2 ^ 16) (lowBound : low < 2 ^ 16) :
    (packDword high low >>> 16).toNat = high := by
  rw [BitVec.toNat_ushiftRight, packDword_toNat highBound lowBound, Nat.shiftRight_eq_div_pow]
  omega

theorem halves_append (addr : BitVec 64) :
    ((addr >>> 32).setWidth 32 ++ addr.setWidth 32 : BitVec 64) = addr := by
  apply BitVec.eq_of_getLsbD_eq
  intro i bound
  have joined := BitVec.getLsbD_append (x := (addr >>> 32).setWidth 32) (y := addr.setWidth 32)
    (i := i)
  refine joined.trans ?_
  by_cases low : i < 32
  · simp [low]
  · have back : 32 + (i - 32) = i := by omega
    have inside : i - 32 < 32 := by omega
    simp [low, back, inside]

theorem crtIoCqCmd_fields (addr : BitVec 64) {qs i : Nat} (size : qs ≤ 4096) (slot : i + 1 < 2 ^ 16) :
    (crtIoCqCmd addr qs i).opcode = AdminCmdOpcode.CRT_IO_CQ.code ∧
      (crtIoCqCmd addr qs i).qid = i + 1 ∧ (crtIoCqCmd addr qs i).qsize = qs - 1 ∧
      (crtIoCqCmd addr qs i).prp1 = addr :=
  ⟨by simp [crtIoCqCmd, Cmd.opcode, Cmd.set, AdminCmdOpcode.code], packDword_low slot,
    packDword_high (by omega) slot, halves_append addr⟩

theorem crtIoSqCmd_fields (addr : BitVec 64) {qs i : Nat} (size : qs ≤ 4096) (slot : i + 1 < 2 ^ 16) :
    (crtIoSqCmd addr qs i).opcode = AdminCmdOpcode.CRT_IO_SQ.code ∧
      (crtIoSqCmd addr qs i).qid = i + 1 ∧ (crtIoSqCmd addr qs i).qsize = qs - 1 ∧
      (crtIoSqCmd addr qs i).prp1 = addr ∧ (crtIoSqCmd addr qs i).cqid = i + 1 :=
  ⟨by simp [crtIoSqCmd, Cmd.opcode, Cmd.set, AdminCmdOpcode.code], packDword_low slot,
    packDword_high (by omega) slot, halves_append addr, packDword_high slot (by norm_num)⟩

theorem low_half {low : Nat} (bound : low < 2 ^ 16) :
    (BitVec.ofNat 32 low &&& 0xffff#32).toNat = low := by
  have packed : packDword 0 low = BitVec.ofNat 32 low := by simp [packDword]
  rw [← packed]
  exact packDword_low bound

theorem delIoSqCmd_fields {i : Nat} (slot : i + 1 < 2 ^ 16) :
    (delIoSqCmd i).opcode = AdminCmdOpcode.DEL_IO_SQ.code ∧ (delIoSqCmd i).qid = i + 1 :=
  ⟨by simp [delIoSqCmd, Cmd.opcode, Cmd.set, AdminCmdOpcode.code], low_half slot⟩

theorem delIoCqCmd_fields {i : Nat} (slot : i + 1 < 2 ^ 16) :
    (delIoCqCmd i).opcode = AdminCmdOpcode.DEL_IO_CQ.code ∧ (delIoCqCmd i).qid = i + 1 :=
  ⟨by simp [delIoCqCmd, Cmd.opcode, Cmd.set, AdminCmdOpcode.code], low_half slot⟩

/-! What the controller does with each command the driver packs. -/

namespace IoController

variable {limits : IoLimits} {ctl : IoController} {addr : BitVec 64} {qs i : Nat}

theorem execute_crtIoCq (positive : 0 < qs) (size : qs ≤ 4096) (slot : i + 1 < 2 ^ 16) :
    ctl.execute (crtIoCqCmd addr qs i) =
      { ctl with cqs := Function.update ctl.cqs (i + 1) (some ⟨addr, qs⟩) } := by
  obtain ⟨code, qid, qsize, prp⟩ := crtIoCqCmd_fields addr size slot
  have whole : qs - 1 + 1 = qs := by omega
  simp only [execute, code, qid, qsize, prp, whole, if_true]

theorem execute_crtIoSq (positive : 0 < qs) (size : qs ≤ 4096) (slot : i + 1 < 2 ^ 16) :
    ctl.execute (crtIoSqCmd addr qs i) =
      { ctl with sqs := Function.update ctl.sqs (i + 1) (some ⟨addr, qs, i + 1⟩) } := by
  obtain ⟨code, qid, qsize, prp, cqid⟩ := crtIoSqCmd_fields addr size slot
  have whole : qs - 1 + 1 = qs := by omega
  have other : AdminCmdOpcode.CRT_IO_SQ.code ≠ AdminCmdOpcode.CRT_IO_CQ.code := by decide
  simp only [execute, code, qid, qsize, prp, cqid, whole, if_neg other, if_true]

theorem execute_delIoSq (slot : i + 1 < 2 ^ 16) :
    ctl.execute (delIoSqCmd i) = { ctl with sqs := Function.update ctl.sqs (i + 1) none } := by
  obtain ⟨code, qid⟩ := delIoSqCmd_fields slot
  have first : AdminCmdOpcode.DEL_IO_SQ.code ≠ AdminCmdOpcode.CRT_IO_CQ.code := by decide
  have second : AdminCmdOpcode.DEL_IO_SQ.code ≠ AdminCmdOpcode.CRT_IO_SQ.code := by decide
  simp only [execute, code, qid, if_neg first, if_neg second, if_true]

theorem execute_delIoCq (slot : i + 1 < 2 ^ 16) :
    ctl.execute (delIoCqCmd i) = { ctl with cqs := Function.update ctl.cqs (i + 1) none } := by
  obtain ⟨code, qid⟩ := delIoCqCmd_fields slot
  have first : AdminCmdOpcode.DEL_IO_CQ.code ≠ AdminCmdOpcode.CRT_IO_CQ.code := by decide
  have second : AdminCmdOpcode.DEL_IO_CQ.code ≠ AdminCmdOpcode.CRT_IO_SQ.code := by decide
  have third : AdminCmdOpcode.DEL_IO_CQ.code ≠ AdminCmdOpcode.DEL_IO_SQ.code := by decide
  simp only [execute, code, qid, if_neg first, if_neg second, if_neg third, if_true]

theorem accepts_crtIoCq (size : qs ≤ 4096) (slot : i + 1 < 2 ^ 16) :
    ctl.Accepts limits (crtIoCqCmd addr qs i) ↔
      i ≤ limits.ncqa ∧ ctl.cqs (i + 1) = none ∧ qs - 1 ≤ limits.mqes := by
  obtain ⟨code, qid, qsize, _⟩ := crtIoCqCmd_fields addr size slot
  simp only [Accepts, code, qid, qsize, if_true, Nat.le_add_left, true_and,
    Nat.add_le_add_iff_right]

theorem accepts_crtIoSq (size : qs ≤ 4096) (slot : i + 1 < 2 ^ 16) :
    ctl.Accepts limits (crtIoSqCmd addr qs i) ↔
      i ≤ limits.nsqa ∧ ctl.sqs (i + 1) = none ∧ qs - 1 ≤ limits.mqes ∧
        (ctl.cqs (i + 1)).isSome = true := by
  obtain ⟨code, qid, qsize, _, cqid⟩ := crtIoSqCmd_fields addr size slot
  have other : AdminCmdOpcode.CRT_IO_SQ.code ≠ AdminCmdOpcode.CRT_IO_CQ.code := by decide
  simp only [Accepts, code, qid, qsize, cqid, if_neg other, if_true, Nat.le_add_left, true_and,
    Nat.add_le_add_iff_right]

theorem accepts_delIoSq (slot : i + 1 < 2 ^ 16) :
    ctl.Accepts limits (delIoSqCmd i) ↔ (ctl.sqs (i + 1)).isSome = true := by
  obtain ⟨code, qid⟩ := delIoSqCmd_fields slot
  have first : AdminCmdOpcode.DEL_IO_SQ.code ≠ AdminCmdOpcode.CRT_IO_CQ.code := by decide
  have second : AdminCmdOpcode.DEL_IO_SQ.code ≠ AdminCmdOpcode.CRT_IO_SQ.code := by decide
  simp only [Accepts, code, qid, if_neg first, if_neg second, if_true]

theorem accepts_delIoCq (slot : i + 1 < 2 ^ 16) :
    ctl.Accepts limits (delIoCqCmd i) ↔
      (ctl.cqs (i + 1)).isSome = true ∧ ∀ q sq, ctl.sqs q = some sq → sq.cqid ≠ i + 1 := by
  obtain ⟨code, qid⟩ := delIoCqCmd_fields slot
  have first : AdminCmdOpcode.DEL_IO_CQ.code ≠ AdminCmdOpcode.CRT_IO_CQ.code := by decide
  have second : AdminCmdOpcode.DEL_IO_CQ.code ≠ AdminCmdOpcode.CRT_IO_SQ.code := by decide
  have third : AdminCmdOpcode.DEL_IO_CQ.code ≠ AdminCmdOpcode.DEL_IO_SQ.code := by decide
  simp only [Accepts, code, qid, if_neg first, if_neg second, if_neg third, if_true]

theorem answer_success (ctl : IoController) (cmd : Cmd) : ctl.answer cmd 0 = ctl.execute cmd :=
  if_pos rfl

theorem answer_failure (ctl : IoController) (cmd : Cmd) {status : Nat} (failed : status ≠ 0) :
    ctl.answer cmd status = ctl :=
  if_neg failed

theorem answer_far (ctl : IoController) (cmd : Cmd) (status : Nat) {q : Nat} (far : 2 ^ 16 ≤ q) :
    (ctl.answer cmd status).cqs q = ctl.cqs q := by
  have field : cmd.qid < 2 ^ 16 := by
    have mask : (65535 : Nat) = 2 ^ 16 - 1 := by norm_num
    rw [Cmd.qid, BitVec.toNat_and, BitVec.toNat_ofNat, Nat.mod_eq_of_lt (by norm_num : 65535 < 2 ^ 32),
      mask, Nat.and_two_pow_sub_one_eq_mod]
    exact Nat.mod_lt _ (by norm_num)
  have other : q ≠ cmd.qid := by omega
  simp only [answer, execute]
  split
  · split_ifs <;> simp [other]
  · rfl

theorem answer_delIoCq_sqs {ctl : IoController} {i status : Nat} (slot : i + 1 < 2 ^ 16) :
    (ctl.answer (delIoCqCmd i) status).sqs = ctl.sqs := by
  rw [answer]
  split
  · rw [execute_delIoCq slot]
  · rfl

theorem answer_delIoSq_cqs {ctl : IoController} {i status : Nat} (slot : i + 1 < 2 ^ 16) :
    (ctl.answer (delIoSqCmd i) status).cqs = ctl.cqs := by
  rw [answer]
  split
  · rw [execute_delIoSq slot]
  · rfl

end IoController

end BafsNvme
