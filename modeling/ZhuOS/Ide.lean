import ZhuOS.Lib.Bytes
import ZhuOS.Machine

/-!
# `device/ide.c`: reading and writing sectors

The disk returns the last sector written. A transfer goes in chunks of at most
256 sectors; the sector count register takes eight bits, and zero stands for
256.
-/

namespace ZhuOS

open ByteMem

def max_lba : Nat := 80 * 1024 * 1024 / 512 - 1

/-- Selecting a sector checks the start of the chunk alone. -/
def selectSector (lba : Nat) : Except Fault Unit := ASSERT (lba ≤ max_lba)

/-- `size_in_byte` of `read_from_sector` and `write2sector`. -/
def sizeInByte (secCnt : Nat) : Nat :=
  if secCnt % 256 = 0 then 256 * 512 else secCnt % 256 * 512

def secsOp (secCnt secsDone : Nat) : Nat :=
  if secsDone + 256 ≤ secCnt then 256 else secCnt - secsDone

/-- The loop of `ide_read`, `chunks` rounds of it. -/
def readChunks (disk : Bytes) (lba secCnt : Nat) :
    (chunks secsDone : Nat) → Bytes → Except Fault Bytes
  | 0, _, buf => return buf
  | chunks + 1, secsDone, buf => do
    let n := secsOp secCnt secsDone
    selectSector (u32 (lba + secsDone))
    readChunks disk lba secCnt chunks (secsDone + n)
      (blit buf (secsDone * 512) disk (u32 (lba + secsDone) * 512) (sizeInByte n))

/-- `ide_read`: `secCnt` sectors from `lba` on, over `buf`. -/
def ideRead (disk : Bytes) (lba : Nat) (buf : Bytes) (secCnt : Nat) : Except Fault Bytes := do
  ASSERT (lba ≤ max_lba)
  ASSERT (0 < secCnt)
  readChunks disk lba secCnt ((secCnt + 255) / 256) 0 buf

/-- The loop of `ide_write`. -/
def writeChunks (buf : Bytes) (lba secCnt : Nat) :
    (chunks secsDone : Nat) → Bytes → Except Fault Bytes
  | 0, _, disk => return disk
  | chunks + 1, secsDone, disk => do
    let n := secsOp secCnt secsDone
    selectSector (u32 (lba + secsDone))
    writeChunks buf lba secCnt chunks (secsDone + n)
      (blit disk (u32 (lba + secsDone) * 512) buf (secsDone * 512) (sizeInByte n))

/-- `ide_write`: `secCnt` sectors of `buf` from `lba` on; the disk as it is then. -/
def ideWrite (disk : Bytes) (lba : Nat) (buf : Bytes) (secCnt : Nat) : Except Fault Bytes := do
  ASSERT (lba ≤ max_lba)
  ASSERT (0 < secCnt)
  writeChunks buf lba secCnt ((secCnt + 255) / 256) 0 disk

variable {disk buf : Bytes} {lba secCnt : Nat}

theorem sizeInByte_eq {n : Nat} (h : 0 < n) (h' : n ≤ 256) : sizeInByte n = n * 512 := by
  unfold sizeInByte
  split <;> omega

theorem readChunks_ok (chunks secsDone : Nat) {buf' : Bytes} (hle : secsDone ≤ secCnt)
    (hchunks : chunks = (secCnt - secsDone + 255) / 256) (hlt : lba + secsDone < 2 ^ 32)
    (h : readChunks disk lba secCnt chunks secsDone buf = .ok buf') :
    secCnt ≤ max secsDone (max_lba + 256) ∧
    buf' = blit buf (secsDone * 512) disk ((lba + secsDone) * 512) ((secCnt - secsDone) * 512) := by
  induction chunks generalizing secsDone buf with
  | zero =>
    refine ⟨by omega, ?_⟩
    rw [show secCnt - secsDone = 0 by omega, Nat.zero_mul, blit_none]
    cases h
    rfl
  | succ chunks ih =>
    simp only [readChunks, bind_ok, selectSector] at h
    obtain ⟨_, hsel, h⟩ := h
    have hsel := ASSERT_ok hsel
    have hn : 0 < secsOp secCnt secsDone ∧ secsOp secCnt secsDone ≤ 256 ∧
        secsDone + secsOp secCnt secsDone ≤ secCnt ∧
        chunks = (secCnt - (secsDone + secsOp secCnt secsDone) + 255) / 256 := by
      unfold secsOp
      split <;> omega
    rw [u32_eq hlt] at hsel h
    generalize secsOp secCnt secsDone = n at hn h
    obtain ⟨hmax, hlast⟩ :=
      ih (secsDone + n) (by omega) hn.2.2.2 (by unfold max_lba at hsel; omega) h
    refine ⟨by omega, ?_⟩
    rw [hlast, sizeInByte_eq hn.1 hn.2.1,
      show (secsDone + n) * 512 = secsDone * 512 + n * 512 by omega,
      show (lba + (secsDone + n)) * 512 = (lba + secsDone) * 512 + n * 512 by omega, blit_blit,
      ← Nat.add_mul, show n + (secCnt - (secsDone + n)) = secCnt - secsDone by omega]

/-- A read that returns has copied all its sectors. -/
theorem ideRead_ok {buf' : Bytes} (h : ideRead disk lba buf secCnt = .ok buf') :
    lba ≤ max_lba ∧ (0 < secCnt ∧ secCnt ≤ max_lba + 256) ∧
      buf' = blit buf 0 disk (lba * 512) (secCnt * 512) := by
  simp only [ideRead, bind_ok] at h
  obtain ⟨_, hlba, _, hcnt, h⟩ := h
  have hlba := ASSERT_ok hlba
  obtain ⟨hmax, hread⟩ :=
    readChunks_ok _ 0 (Nat.zero_le _) rfl (by unfold max_lba at hlba; omega) h
  exact ⟨hlba, ⟨ASSERT_ok hcnt, by simpa using hmax⟩, by simpa using hread⟩

/-- A few sectors go in one chunk. -/
theorem ideRead_few (hcnt : 0 < secCnt) (hfew : secCnt < 256) (hlba : lba ≤ max_lba) :
    ideRead disk lba buf secCnt = .ok (blit buf 0 disk (lba * 512) (secCnt * 512)) := by
  have hone : (secCnt + 255) / 256 = 1 := by omega
  have hn : secsOp secCnt 0 = secCnt := by unfold secsOp; split <;> omega
  have hu : u32 (lba + 0) = lba := u32_eq (by unfold max_lba at hlba; omega)
  simp only [ideRead, ASSERT_true hlba, ASSERT_true hcnt, ok_bind, hone, readChunks, hn, hu,
    selectSector, sizeInByte_eq hcnt (by omega), Nat.zero_mul]
  rfl

theorem ideWrite_few (hcnt : 0 < secCnt) (hfew : secCnt < 256) (hlba : lba ≤ max_lba) :
    ideWrite disk lba buf secCnt = .ok (blit disk (lba * 512) buf 0 (secCnt * 512)) := by
  have hone : (secCnt + 255) / 256 = 1 := by omega
  have hn : secsOp secCnt 0 = secCnt := by unfold secsOp; split <;> omega
  have hu : u32 (lba + 0) = lba := u32_eq (by unfold max_lba at hlba; omega)
  simp only [ideWrite, ASSERT_true hlba, ASSERT_true hcnt, ok_bind, hone, writeChunks, hn, hu,
    selectSector, sizeInByte_eq hcnt (by omega), Nat.zero_mul]
  rfl

theorem ideRead_one (hlba : lba ≤ max_lba) :
    ideRead disk lba buf 1 = .ok (blit buf 0 disk (lba * 512) 512) :=
  ideRead_few (by decide) (by decide) hlba

theorem ideWrite_one (hlba : lba ≤ max_lba) :
    ideWrite disk lba buf 1 = .ok (blit disk (lba * 512) buf 0 512) :=
  ideWrite_few (by decide) (by decide) hlba

end ZhuOS
