import BafsNvme.QueuePairs

/-! What `admin_init` writes to the controller's registers, read back field by field. -/

namespace BafsNvme

structure NvmeRegs where
  intms : Dword
  intmc : Dword
  cc : Dword
  aqa : Dword
  asq : Fin 2 → Dword
  acq : Fin 2 → Dword

structure CapFields where
  maxQueueSize : Nat
  dstrd : Dword
  timeout : Dword
  pageSize : Dword

def ilog2 (n : Nat) : Dword := BitVec.ofNat 32 n.log2

def mpsmin (cap1 : Dword) : Dword := (rdBits (cap1.setWidth 64) (51 - 32) (48 - 32)).setWidth 32

def adminInitFields (cap0 cap1 : Dword) : CapFields where
  maxQueueSize := maxQueueSize cap0
  dstrd := (rdBits (cap1.setWidth 64) (35 - 32) (32 - 32)).setWidth 32
  timeout := (rdBits (cap0.setWidth 64) 31 24).setWidth 32
  pageSize := 1#32 <<< (12#32 + mpsmin cap1)

/-- The register writes, in their order; the controller's answers in CSTS come in between. -/
def adminInitRegs (cap1 : Dword) (aqp : AdminRings) (cqDmaAddr sqDmaAddr : BitVec 64)
    (regs : NvmeRegs) : NvmeRegs :=
  let queueSize := aqp.sq.qs
  let cqes := ilog2 aqp.cq.es
  let sqes := ilog2 aqp.sq.es
  let regs := { regs with cc := regs.cc &&& ~~~1#32 }
  let regs := { regs with aqa := packDword (queueSize - 1) (queueSize - 1) }
  let regs := { regs with acq := ![cqDmaAddr.setWidth 32, (cqDmaAddr >>> 32).setWidth 32] }
  let regs := { regs with asq := ![sqDmaAddr.setWidth 32, (sqDmaAddr >>> 32).setWidth 32] }
  let regs := { regs with
    cc := cqes <<< 20 ||| sqes <<< 16 ||| mpsmin cap1 <<< 7 ||| 0x0001#32 }
  { regs with intms := 0xffffffff#32, intmc := 0x0#32 }

def bitField {w : Nat} (register : BitVec w) (high low : Nat) : Nat :=
  register.toNat / 2 ^ low % 2 ^ (high + 1 - low)

def capWords (cap : BitVec 64) : Fin 2 → Dword := ![cap.setWidth 32, (cap >>> 32).setWidth 32]

structure QueuesDecode (cap : BitVec 64) (aqp : AdminRings) (cqDmaAddr sqDmaAddr : BitVec 64)
    (regs : NvmeRegs) : Prop where
  size : aqp.sq.qs = min (bitField cap 15 0 + 1) 4096 ∧ aqp.cq.qs = aqp.sq.qs
  asqs : bitField regs.aqa 11 0 + 1 = aqp.sq.qs
  acqs : bitField regs.aqa 27 16 + 1 = aqp.cq.qs
  reserved : bitField regs.aqa 15 12 = 0 ∧ bitField regs.aqa 31 28 = 0
  asq : regs.asq 1 ++ regs.asq 0 = sqDmaAddr
  acq : regs.acq 1 ++ regs.acq 0 = cqDmaAddr

structure ConfigDecodes (cap : BitVec 64) (aqp : AdminRings) (fields : CapFields) (regs : NvmeRegs) :
    Prop where
  iosqes : 2 ^ bitField regs.cc 19 16 = aqp.sq.es
  iocqes : 2 ^ bitField regs.cc 23 20 = aqp.cq.es
  mps : 2 ^ (12 + bitField regs.cc 10 7) = fields.pageSize.toNat
  mpsmin : fields.pageSize.toNat = 2 ^ (12 + bitField cap 51 48)
  en : bitField regs.cc 0 0 = 1
  css : bitField regs.cc 6 4 = 0
  ams : bitField regs.cc 13 11 = 0
  shn : bitField regs.cc 15 14 = 0
  reserved : bitField regs.cc 3 1 = 0 ∧ bitField regs.cc 31 24 = 0

theorem mqes_field (cap : BitVec 64) : mqes (capWords cap 0) = bitField cap 15 0 := by
  have half : capWords cap 0 = cap.setWidth 32 := rfl
  rw [mqes, half, BitVec.toNat_setWidth, bitField]
  omega

theorem mpsmin_field (cap : BitVec 64) : (mpsmin (capWords cap 1)).toNat = bitField cap 51 48 := by
  have word : (capWords cap 1).toNat = cap.toNat / 2 ^ 32 % 2 ^ 32 := by
    have half : capWords cap 1 = (cap >>> 32).setWidth 32 := rfl
    rw [half, BitVec.toNat_setWidth, BitVec.toNat_ushiftRight, Nat.shiftRight_eq_div_pow]
  rw [mpsmin, BitVec.toNat_setWidth, rdBits_toNat _ (by norm_num) (by norm_num),
    BitVec.toNat_setWidth, word, bitField]
  omega

theorem aqa_fields {last : Nat} (most : last < 4096) :
    bitField (packDword last last) 11 0 = last ∧ bitField (packDword last last) 27 16 = last ∧
      bitField (packDword last last) 15 12 = 0 ∧ bitField (packDword last last) 31 28 = 0 := by
  have aqa : (packDword last last).toNat = last * 2 ^ 16 + last :=
    packDword_toNat (by omega) (by omega)
  refine ⟨?_, ?_, ?_, ?_⟩
  · rw [bitField, aqa]
    omega
  · have upper : (last * 2 ^ 16 + last) / 2 ^ 16 = last := by omega
    rw [bitField, aqa, upper]
    exact Nat.mod_eq_of_lt most
  · have between : (last * 2 ^ 16 + last) / 2 ^ 12 = last * 2 ^ 4 := by omega
    rw [bitField, aqa, between]
    exact Nat.mul_mod_left ..
  · have above : (last * 2 ^ 16 + last) / 2 ^ 28 = 0 := by omega
    rw [bitField, aqa, above, Nat.zero_mod]

theorem cc_toNat {m : Dword} (small : m.toNat < 16) :
    (ilog2 16 <<< 20 ||| ilog2 64 <<< 16 ||| m <<< 7 ||| 0x0001#32).toNat =
      4 * 2 ^ 20 + (6 * 2 ^ 16 + (m.toNat * 2 ^ 7 + 1)) := by
  have cqes : (ilog2 16).toNat = 4 := by decide
  have sqes : (ilog2 64).toNat = 6 := by decide
  have one : (0x0001#32).toNat = 1 := by decide
  have page : (m <<< 7 ||| 0x0001#32).toNat = m.toNat * 2 ^ 7 + 1 := by
    rw [shift_or_toNat (by omega) (by rw [one]; norm_num), one]
  have sq : (ilog2 64 <<< 16 ||| (m <<< 7 ||| 0x0001#32)).toNat =
      6 * 2 ^ 16 + (m.toNat * 2 ^ 7 + 1) := by
    rw [shift_or_toNat (by rw [sqes]; norm_num) (by rw [page]; omega), sqes, page]
  rw [BitVec.or_assoc, BitVec.or_assoc, shift_or_toNat (by rw [cqes]; norm_num) (by rw [sq]; omega),
    cqes, sq]

theorem pageSize_toNat {m : Dword} (small : m.toNat < 16) :
    (1#32 <<< (12#32 + m)).toNat = 2 ^ (12 + m.toNat) := by
  have shift : (12#32 + m).toNat = 12 + m.toNat := by
    rw [BitVec.toNat_add]
    exact Nat.mod_eq_of_lt (by simp only [BitVec.toNat_ofNat]; omega)
  have fits : 2 ^ (12 + m.toNat) < 2 ^ 32 := Nat.pow_lt_pow_right (by norm_num) (by omega)
  rw [BitVec.shiftLeft_eq', BitVec.toNat_shiftLeft, shift, BitVec.toNat_ofNat,
    Nat.one_mod_two_pow (by norm_num), Nat.one_shiftLeft]
  exact Nat.mod_eq_of_lt fits

section Decode

variable (cap cqDmaAddr sqDmaAddr : BitVec 64) (cqAddr : Nat → Cpl) (sqAddr : Nat → Cmd)
  (regs : NvmeRegs)

theorem queues_decode :
    let aqp := adminInitRings (initQueueSize (capWords cap 0)) cqAddr sqAddr
    QueuesDecode cap aqp cqDmaAddr sqDmaAddr
      (adminInitRegs (capWords cap 1) aqp cqDmaAddr sqDmaAddr regs) := by
  intro aqp
  let written := adminInitRegs (capWords cap 1) aqp cqDmaAddr sqDmaAddr regs
  have ring : aqp.sq.qs = initQueueSize (capWords cap 0) ∧ aqp.cq.qs = aqp.sq.qs := ⟨rfl, rfl⟩
  have aqa : written.aqa = packDword (aqp.sq.qs - 1) (aqp.sq.qs - 1) := rfl
  obtain ⟨positive, most⟩ := initQueueSize_bounds (capWords cap 0)
  obtain ⟨sqField, cqField, between, above⟩ :=
    aqa_fields (show aqp.sq.qs - 1 < 4096 by rw [ring.1]; omega)
  constructor
  · have size : aqp.sq.qs = min (bitField cap 15 0 + 1) 4096 := by
      rw [ring.1, initQueueSize_eq, mqes_field]
    exact ⟨size, ring.2⟩
  · rw [aqa, sqField, ring.1]
    exact Nat.sub_add_cancel positive
  · rw [aqa, cqField, ring.2, ring.1]
    exact Nat.sub_add_cancel positive
  · rw [aqa]
    exact ⟨between, above⟩
  · exact halves_append sqDmaAddr
  · exact halves_append cqDmaAddr

theorem config_decodes :
    let aqp := adminInitRings (initQueueSize (capWords cap 0)) cqAddr sqAddr
    ConfigDecodes cap aqp (adminInitFields (capWords cap 0) (capWords cap 1))
      (adminInitRegs (capWords cap 1) aqp cqDmaAddr sqDmaAddr regs) := by
  intro aqp
  let written := adminInitRegs (capWords cap 1) aqp cqDmaAddr sqDmaAddr regs
  let fields := adminInitFields (capWords cap 0) (capWords cap 1)
  have small : (mpsmin (capWords cap 1)).toNat < 16 := by
    rw [mpsmin_field, bitField]
    exact Nat.mod_lt _ (by norm_num)
  have cc : written.cc.toNat = 4 * 2 ^ 20 + (6 * 2 ^ 16 +
      ((mpsmin (capWords cap 1)).toNat * 2 ^ 7 + 1)) := cc_toNat small
  have page : fields.pageSize.toNat = 2 ^ (12 + (mpsmin (capWords cap 1)).toNat) :=
    pageSize_toNat small
  have mps : bitField written.cc 10 7 = (mpsmin (capWords cap 1)).toNat := by
    rw [bitField, cc]
    omega
  have sqes : bitField written.cc 19 16 = 6 := by
    rw [bitField, cc]
    omega
  have cqes : bitField written.cc 23 20 = 4 := by
    rw [bitField, cc]
    omega
  constructor
  · rw [sqes]
    rfl
  · rw [cqes]
    rfl
  · rw [mps, page]
  · rw [page, mpsmin_field]
  · rw [bitField, cc]
    omega
  · rw [bitField, cc]
    omega
  · rw [bitField, cc]
    omega
  · rw [bitField, cc]
    omega
  · rw [bitField, bitField, cc]
    omega

end Decode

/-- The registers decode to what the driver works with, for every CAP and all ring addresses. -/
theorem registers_decode (cap cqDmaAddr sqDmaAddr : BitVec 64) (cqAddr : Nat → Cpl)
    (sqAddr : Nat → Cmd) (regs : NvmeRegs) :
    let aqp := adminInitRings (initQueueSize (capWords cap 0)) cqAddr sqAddr
    let fields := adminInitFields (capWords cap 0) (capWords cap 1)
    let written := adminInitRegs (capWords cap 1) aqp cqDmaAddr sqDmaAddr regs
    QueuesDecode cap aqp cqDmaAddr sqDmaAddr written ∧ ConfigDecodes cap aqp fields written :=
  ⟨queues_decode cap cqDmaAddr sqDmaAddr cqAddr sqAddr regs,
    config_decodes cap cqDmaAddr sqDmaAddr cqAddr sqAddr regs⟩

end BafsNvme
