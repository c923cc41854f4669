import ZhuOS.Ide

/-!
# `device/ide.c`: the registers

What `ide_read` and `ide_write` write into the registers of a channel, and what its two drives
make of it: a command moves as many sectors as the count register says, 256 if it is zero, the
first being the one whose number is in the address registers.
-/

namespace ZhuOS.Ata

open ByteMem

def BIT_DEV_MBS : UInt8 := 0xa0
def BIT_DEV_LBA : UInt8 := 0x40
def BIT_DEV_DEV : UInt8 := 0x10

/-- The registers that the driver writes. -/
inductive Reg
  | sectCnt
  | lbaL
  | lbaM
  | lbaH
  | dev
  deriving DecidableEq

inductive Command
  | readSector
  | writeSector
  deriving DecidableEq

/-- The bytes that still go through the data register. -/
structure Transfer where
  command : Command
  slave : Bool
  /-- where the next byte is on the drive -/
  next : Nat
  left : Nat

/-- The transfer behind `len` more bytes. -/
def Transfer.moved (t : Transfer) (len : Nat) : Option Transfer :=
  if t.left = len then none else some { t with next := t.next + len, left := t.left - len }

/-- The registers of a channel and its drives, the slave and the other one. -/
structure Channel where
  regs : Reg → UInt8
  drives : Bool → Bytes
  transfer : Option Transfer

namespace Channel

def outb (ch : Channel) (reg : Reg) (v : UInt8) : Channel :=
  { ch with regs := Function.update ch.regs reg v }

/-- The 28 bits in the address registers and the device register. -/
def address (ch : Channel) : Nat :=
  (ch.regs .lbaL).toNat + (ch.regs .lbaM).toNat * 2 ^ 8 + (ch.regs .lbaH).toNat * 2 ^ 16 +
    (ch.regs .dev &&& 0x0f).toNat * 2 ^ 24

def sectors (ch : Channel) : Nat :=
  if ch.regs .sectCnt = 0 then 256 else (ch.regs .sectCnt).toNat

/-- `cmd_out`: the drive begins the transfer. -/
def cmdOut (ch : Channel) (command : Command) : Channel :=
  let slave := ch.regs .dev &&& BIT_DEV_DEV ≠ 0
  { ch with transfer := some ⟨command, slave, ch.address * 512, ch.sectors * 512⟩ }

/-- `busy_wait`: `DRQ` is set as long as there is a transfer. -/
def busyWait (ch : Channel) : Bool := ch.transfer.isSome

/-- `insw`: the drive has no words behind those of its transfer. -/
def insw (ch : Channel) (buf : Bytes) (at_ words : Nat) : Except Fault (Channel × Bytes) :=
  match ch.transfer with
  | some t =>
    if t.command = .readSector ∧ words * 2 ≤ t.left then
      return ({ ch with transfer := t.moved (words * 2) },
        blit buf at_ (ch.drives t.slave) t.next (words * 2))
    else .error .stuck
  | none => .error .stuck

/-- `outsw` -/
def outsw (ch : Channel) (buf : Bytes) (at_ words : Nat) : Except Fault Channel :=
  match ch.transfer with
  | some t =>
    if t.command = .writeSector ∧ words * 2 ≤ t.left then
      return { ch with
        drives := Function.update ch.drives t.slave
          (blit (ch.drives t.slave) t.next buf at_ (words * 2))
        transfer := t.moved (words * 2) }
    else .error .stuck
  | none => .error .stuck

end Channel

def selectDisk (ch : Channel) (devNo : UInt8) : Channel :=
  let regDevice := BIT_DEV_MBS ||| BIT_DEV_LBA
  ch.outb .dev (if devNo = 1 then regDevice ||| BIT_DEV_DEV else regDevice)

def selectSector (ch : Channel) (devNo : UInt8) (lba : Nat) (secCnt : UInt8) :
    Except Fault Channel := do
  ASSERT (lba ≤ max_lba)
  let ch := ch.outb .sectCnt secCnt
  let ch := ch.outb .lbaL (UInt8.ofNat lba)
  let ch := ch.outb .lbaM (UInt8.ofNat (lba >>> 8))
  let ch := ch.outb .lbaH (UInt8.ofNat (lba >>> 16))
  return ch.outb .dev (BIT_DEV_MBS ||| BIT_DEV_LBA ||| (if devNo = 1 then BIT_DEV_DEV else 0) |||
    UInt8.ofNat (lba >>> 24))

/-- `size_in_byte` -/
def sizeInByte (secCnt : UInt8) : Nat := if secCnt = 0 then 256 * 512 else secCnt.toNat * 512

def readFromSector (ch : Channel) (buf : Bytes) (at_ : Nat) (secCnt : UInt8) :
    Except Fault (Channel × Bytes) :=
  ch.insw buf at_ (sizeInByte secCnt / 2)

def write2sector (ch : Channel) (buf : Bytes) (at_ : Nat) (secCnt : UInt8) :
    Except Fault Channel :=
  ch.outsw buf at_ (sizeInByte secCnt / 2)

def secsOp (secCnt secsDone : Nat) : Nat :=
  if u32 (secsDone + 256) ≤ secCnt then 256 else secCnt - secsDone

/-- A round of the loop of `ide_read`. -/
def readRound (devNo : UInt8) (lba secCnt secsDone : Nat) :
    Channel × Bytes → Except Fault (Channel × Bytes)
  | (ch, buf) => do
  let n := secsOp secCnt secsDone
  let ch ← selectSector ch devNo (u32 (lba + secsDone)) (UInt8.ofNat n)
  let ch := ch.cmdOut .readSector
  ASSERT (ch.busyWait = true)
  readFromSector ch buf (u32 (secsDone * 512)) (UInt8.ofNat n)

/-- A round of the loop of `ide_write`. -/
def writeRound (devNo : UInt8) (lba secCnt : Nat) (buf : Bytes) (secsDone : Nat) (ch : Channel) :
    Except Fault Channel := do
  let n := secsOp secCnt secsDone
  let ch ← selectSector ch devNo (u32 (lba + secsDone)) (UInt8.ofNat n)
  let ch := ch.cmdOut .writeSector
  ASSERT (ch.busyWait = true)
  write2sector ch buf (u32 (secsDone * 512)) (UInt8.ofNat n)

/-- The loop of both, a number of rounds at most. -/
def chunkLoop {σ : Type} (round : Nat → σ → Except Fault σ) (secCnt : Nat) :
    (rounds secsDone : Nat) → σ → Except Fault σ
  | 0, _, _ => .error .stuck
  | rounds + 1, secsDone, s =>
    if secsDone < secCnt then do
      let s ← round secsDone s
      chunkLoop round secCnt rounds (u32 (secsDone + secsOp secCnt secsDone)) s
    else return s

/-- `ide_read`: a round moves one sector at least. -/
def ideRead (ch : Channel) (devNo : UInt8) (lba : Nat) (buf : Bytes) (secCnt : Nat) :
    Except Fault (Channel × Bytes) := do
  ASSERT (lba ≤ max_lba)
  ASSERT (0 < secCnt)
  chunkLoop (readRound devNo lba secCnt) secCnt (secCnt + 1) 0 (selectDisk ch devNo, buf)

def ideWrite (ch : Channel) (devNo : UInt8) (lba : Nat) (buf : Bytes) (secCnt : Nat) :
    Except Fault Channel := do
  ASSERT (lba ≤ max_lba)
  ASSERT (0 < secCnt)
  chunkLoop (writeRound devNo lba secCnt buf) secCnt (secCnt + 1) 0 (selectDisk ch devNo)

variable {ch : Channel} {devNo : UInt8} {lba secCnt secsDone : Nat} {buf : Bytes}

/-- The device register tells the drive, and its low half the highest bits of the address. -/
theorem dev_bits : ∀ (slave : Bool) (high : Fin 16),
    let dev := BIT_DEV_MBS ||| BIT_DEV_LBA ||| (if slave then BIT_DEV_DEV else 0) |||
      UInt8.ofNat high
    (dev &&& 0x0f).toNat = high ∧ decide (dev &&& BIT_DEV_DEV ≠ 0) = slave := by
  decide +kernel

/-- The drive is told the sector and the count. -/
theorem selectSector_ok (ch : Channel) (devNo : UInt8) (hlba : lba ≤ max_lba) (n : UInt8) :
    ∃ ch', selectSector ch devNo lba n = .ok ch' ∧ ch'.drives = ch.drives ∧
      ch'.address = lba ∧ ch'.regs .sectCnt = n ∧
      decide (ch'.regs .dev &&& BIT_DEV_DEV ≠ 0) = decide (devNo = 1) := by
  have hlow : lba < 2 ^ 28 := by unfold max_lba at hlba; omega
  have hhigh : lba >>> 24 < 16 := by rw [Nat.shiftRight_eq_div_pow]; omega
  obtain ⟨haddress, hdev⟩ := dev_bits (decide (devNo = 1)) ⟨lba >>> 24, hhigh⟩
  simp only [decide_eq_true_eq] at haddress hdev
  have hsum : ∀ high, high = lba >>> 24 → (UInt8.ofNat lba).toNat +
      (UInt8.ofNat (lba >>> 8)).toNat * 2 ^ 8 + (UInt8.ofNat (lba >>> 16)).toNat * 2 ^ 16 +
      high * 2 ^ 24 = lba := by
    rintro _ rfl
    simp only [UInt8.toNat_ofNat', Nat.shiftRight_eq_div_pow]
    omega
  simp only [selectSector, ASSERT_true hlba, ok_bind]
  refine ⟨_, rfl, rfl, ?_, rfl, hdev⟩
  exact hsum _ haddress

/-- Both sides take zero for 256. -/
theorem count_eq {n : Nat} (h : 0 < n) (h' : n ≤ 256) :
    (if UInt8.ofNat n = 0 then 256 else (UInt8.ofNat n).toNat) = n := by
  by_cases hfull : n = 256
  · subst hfull
    rfl
  · have hlt : (UInt8.ofNat n).toNat = n := by
      rw [UInt8.toNat_ofNat']
      omega
    have hne : UInt8.ofNat n ≠ 0 := by
      intro hzero
      rw [hzero] at hlt
      exact h.ne hlt
    rw [if_neg hne, hlt]

theorem sizeInByte_eq {n : Nat} (h : 0 < n) (h' : n ≤ 256) :
    sizeInByte (UInt8.ofNat n) / 2 * 2 = n * 512 := by
  have hsize : sizeInByte (UInt8.ofNat n) = n * 512 := by
    conv_rhs => rw [← count_eq h h']
    unfold sizeInByte
    split <;> rfl
  omega

/-- The command behind it begins the transfer of these sectors of that drive. -/
theorem command_ok (ch : Channel) (devNo : UInt8) (hlba : lba ≤ max_lba) {n : Nat} (h : 0 < n)
    (h' : n ≤ 256) (command : Command) :
    ∃ ch', selectSector ch devNo lba (UInt8.ofNat n) = .ok ch' ∧
      (ch'.cmdOut command).drives = ch.drives ∧ (ch'.cmdOut command).transfer =
        some ⟨command, decide (devNo = 1), lba * 512, n * 512⟩ := by
  obtain ⟨ch', hch', hdrives, haddress, hcount, hdev⟩ :=
    selectSector_ok ch devNo hlba (UInt8.ofNat n)
  refine ⟨ch', hch', hdrives, ?_⟩
  have hsectors : ch'.sectors = n := by rw [Channel.sectors, hcount, count_eq h h']
  simp only [Channel.cmdOut, hsectors, haddress, hdev]

theorem secsOp_ok (hlt : secsDone < secCnt) (hcnt : secCnt < 2 ^ 23) :
    0 < secsOp secCnt secsDone ∧ secsOp secCnt secsDone ≤ 256 ∧
      secsDone + secsOp secCnt secsDone ≤ secCnt ∧
      (secsOp secCnt secsDone = 256 ∨ secsDone + secsOp secCnt secsDone = secCnt) := by
  unfold secsOp
  rw [u32_eq (by omega)]
  split <;> omega

theorem Transfer.moved_all (t : Transfer) : t.moved t.left = none := if_pos rfl

/-- The round that begins behind `secsDone` sectors moves the next chunk into the buffer. -/
theorem readRound_ok (devNo : UInt8) (ch : Channel) (buf : Bytes)
    (hlba : lba + secsDone ≤ max_lba) (hlt : secsDone < secCnt) (hcnt : secCnt < 2 ^ 23) :
    ∃ ch', readRound devNo lba secCnt secsDone (ch, buf) = .ok (ch', blit buf (secsDone * 512)
        (ch.drives (devNo = 1)) ((lba + secsDone) * 512) (secsOp secCnt secsDone * 512)) ∧
      ch'.drives = ch.drives ∧ ch'.transfer = none := by
  obtain ⟨hpos, hle, -, -⟩ := secsOp_ok hlt hcnt
  obtain ⟨ch', hch', hdrives, htransfer⟩ := command_ok ch devNo hlba hpos hle .readSector
  have hready : (ch'.cmdOut .readSector).busyWait = true := by
    rw [Channel.busyWait, htransfer]
    rfl
  have hlba' : u32 (lba + secsDone) = lba + secsDone :=
    u32_eq (by unfold max_lba at hlba; omega)
  have hwords := sizeInByte_eq hpos hle
  simp only [readRound, hlba', u32_eq (show secsDone * 512 < 2 ^ 32 by omega), hch', ok_bind,
    ASSERT_true hready, readFromSector, Channel.insw, htransfer, hwords, le_refl, and_self,
    if_true, hdrives]
  refine ⟨_, rfl, rfl, ?_⟩
  dsimp only
  exact Transfer.moved_all _

/-- The round that begins behind `secsDone` sectors stores the next chunk of the buffer. -/
theorem writeRound_ok (devNo : UInt8) (ch : Channel) (buf : Bytes)
    (hlba : lba + secsDone ≤ max_lba) (hlt : secsDone < secCnt) (hcnt : secCnt < 2 ^ 23) :
    ∃ ch', writeRound devNo lba secCnt buf secsDone ch = .ok ch' ∧
      ch'.drives = Function.update ch.drives (devNo = 1) (blit (ch.drives (devNo = 1))
        ((lba + secsDone) * 512) buf (secsDone * 512) (secsOp secCnt secsDone * 512)) ∧
      ch'.transfer = none := by
  obtain ⟨hpos, hle, -, -⟩ := secsOp_ok hlt hcnt
  obtain ⟨ch', hch', hdrives, htransfer⟩ := command_ok ch devNo hlba hpos hle .writeSector
  have hready : (ch'.cmdOut .writeSector).busyWait = true := by
    rw [Channel.busyWait, htransfer]
    rfl
  have hlba' : u32 (lba + secsDone) = lba + secsDone :=
    u32_eq (by unfold max_lba at hlba; omega)
  have hwords := sizeInByte_eq hpos hle
  simp only [writeRound, hlba', u32_eq (show secsDone * 512 < 2 ^ 32 by omega), hch', ok_bind,
    ASSERT_true hready, write2sector, Channel.outsw, htransfer, hwords, le_refl, and_self,
    if_true, hdrives]
  refine ⟨_, rfl, rfl, ?_⟩
  dsimp only
  exact Transfer.moved_all _

/-- Every chunk begins at a sector that `select_sector` lets through. -/
def Starts (lba secCnt : Nat) : Prop := ∀ k, 256 * k < secCnt → lba + 256 * k ≤ max_lba

/-- What each round carries from one chunk to the next, the loop carries to the end. The
induction is on the rounds that are left; all chunks but the last have 256 sectors. -/
theorem chunkLoop_ok {σ : Type} {round : Nat → σ → Except Fault σ} (Inv : Nat → σ → Prop)
    (hcnt : secCnt < 2 ^ 23)
    (hround : ∀ k s, 256 * k < secCnt → Inv (256 * k) s →
      ∃ s', round (256 * k) s = .ok s' ∧ Inv (256 * k + secsOp secCnt (256 * k)) s')
    (rounds secsDone : Nat) (hwhole : secsDone % 256 = 0 ∨ secsDone = secCnt)
    (hle : secsDone ≤ secCnt) (hrounds : secCnt < secsDone + rounds) {s : σ}
    (h : Inv secsDone s) :
    ∃ s', chunkLoop round secCnt rounds secsDone s = .ok s' ∧ Inv secCnt s' := by
  induction rounds generalizing secsDone s with
  | zero => omega
  | succ rounds ih =>
    unfold chunkLoop
    by_cases hlt : secsDone < secCnt
    · obtain ⟨hpos, -, hle', hlast⟩ := secsOp_ok hlt hcnt
      obtain ⟨k, rfl⟩ : ∃ k, secsDone = 256 * k := ⟨secsDone / 256, by omega⟩
      obtain ⟨s', hs', hinv⟩ := hround k s hlt h
      rw [if_pos hlt, hs', ok_bind, u32_eq (by omega)]
      exact ih _ (by omega) hle' (by omega) hinv
    · rw [if_neg hlt]
      obtain rfl : secsDone = secCnt := by omega
      exact ⟨s, rfl, h⟩

theorem Starts.first (h : Starts lba secCnt) (hpos : 0 < secCnt) : lba ≤ max_lba := h 0 hpos

theorem ideRead_ok (ch : Channel) (devNo : UInt8) (buf : Bytes) (hpos : 0 < secCnt)
    (hcnt : secCnt < 2 ^ 23) (hstarts : Starts lba secCnt) :
    ∃ ch', ideRead ch devNo lba buf secCnt =
        .ok (ch', blit buf 0 (ch.drives (devNo = 1)) (lba * 512) (secCnt * 512)) ∧
      ch'.drives = ch.drives ∧ ch'.transfer = none := by
  let Inv : Nat → Channel × Bytes → Prop := fun secsDone s => s.1.drives = ch.drives ∧
    (0 < secsDone → s.1.transfer = none) ∧
    s.2 = blit buf 0 (ch.drives (devNo = 1)) (lba * 512) (secsDone * 512)
  have hstart : Inv 0 (selectDisk ch devNo, buf) :=
    ⟨rfl, fun h => absurd h (lt_irrefl 0), (blit_none ..).symm⟩
  have hround : ∀ k s, 256 * k < secCnt → Inv (256 * k) s →
      ∃ s', readRound devNo lba secCnt (256 * k) s = .ok s' ∧
        Inv (256 * k + secsOp secCnt (256 * k)) s' := by
    rintro k ⟨ch', buf'⟩ hlt ⟨hdrives, -, hbuf⟩
    change ch'.drives = ch.drives at hdrives
    obtain rfl : buf' = _ := hbuf
    obtain ⟨ch'', hch'', hdrives', htransfer⟩ := readRound_ok devNo ch' _ (hstarts k hlt) hlt hcnt
    refine ⟨_, hch'', hdrives'.trans hdrives, fun _ => htransfer, ?_⟩
    rw [hdrives, Nat.add_mul lba, Nat.add_mul (256 * k), ← blit_blit, Nat.zero_add]
  obtain ⟨⟨ch', buf'⟩, hrun, hdrives, htransfer, hbuf⟩ :=
    chunkLoop_ok Inv hcnt hround (secCnt + 1) 0 (.inl rfl) hpos.le (by omega) hstart
  obtain rfl : buf' = _ := hbuf
  refine ⟨ch', ?_, hdrives, htransfer hpos⟩
  simp only [ideRead, ASSERT_true (hstarts.first hpos), ASSERT_true hpos, ok_bind, hrun]

theorem ideWrite_ok (ch : Channel) (devNo : UInt8) (buf : Bytes) (hpos : 0 < secCnt)
    (hcnt : secCnt < 2 ^ 23) (hstarts : Starts lba secCnt) :
    ∃ ch', ideWrite ch devNo lba buf secCnt = .ok ch' ∧
      ch'.drives = Function.update ch.drives (devNo = 1)
        (blit (ch.drives (devNo = 1)) (lba * 512) buf 0 (secCnt * 512)) ∧
      ch'.transfer = none := by
  let Inv : Nat → Channel → Prop := fun secsDone s =>
    s.drives = Function.update ch.drives (devNo = 1)
      (blit (ch.drives (devNo = 1)) (lba * 512) buf 0 (secsDone * 512)) ∧
    (0 < secsDone → s.transfer = none)
  have hstart : Inv 0 (selectDisk ch devNo) := by
    refine ⟨?_, fun h => absurd h (lt_irrefl 0)⟩
    rw [Nat.zero_mul, blit_none, Function.update_eq_self]
    rfl
  have hround : ∀ k s, 256 * k < secCnt → Inv (256 * k) s →
      ∃ s', writeRound devNo lba secCnt buf (256 * k) s = .ok s' ∧
        Inv (256 * k + secsOp secCnt (256 * k)) s' := by
    rintro k ch' hlt ⟨hdrives, -⟩
    obtain ⟨ch'', hch'', hdrives', htransfer⟩ :=
      writeRound_ok devNo ch' buf (hstarts k hlt) hlt hcnt
    refine ⟨_, hch'', ?_, fun _ => htransfer⟩
    have hjoin := blit_blit (ch.drives (devNo = 1)) buf (lba * 512) 0 (256 * k * 512)
      (secsOp secCnt (256 * k) * 512)
    rw [Nat.zero_add, ← Nat.add_mul, ← Nat.add_mul] at hjoin
    rw [hdrives', hdrives, Function.update_self, Function.update_idem, hjoin]
  obtain ⟨ch', hrun, hdrives, htransfer⟩ :=
    chunkLoop_ok Inv hcnt hround (secCnt + 1) 0 (.inl rfl) hpos.le (by omega) hstart
  refine ⟨ch', ?_, hdrives, htransfer hpos⟩
  simp only [ideWrite, ASSERT_true (hstarts.first hpos), ASSERT_true hpos, ok_bind, hrun]

/-- `ide_read` fills the buffer with these sectors and `ide_write` stores them, and nothing else
of the buffer or a drive changes. -/
theorem ide_transfers (ch : Channel) (devNo : UInt8) (buf : Bytes) (hpos : 0 < secCnt)
    (hcnt : secCnt < 2 ^ 23) (hstarts : Starts lba secCnt) :
    (∃ ch' buf', ideRead ch devNo lba buf secCnt = .ok (ch', buf') ∧ ch'.drives = ch.drives ∧
      (∀ i < secCnt * 512, buf' i = ch.drives (devNo = 1) (lba * 512 + i)) ∧
      ∀ i, secCnt * 512 ≤ i → buf' i = buf i) ∧
    ∃ ch', ideWrite ch devNo lba buf secCnt = .ok ch' ∧
      (∀ i < secCnt * 512, ch'.drives (devNo = 1) (lba * 512 + i) = buf i) ∧
      (∀ a, a < lba * 512 ∨ (lba + secCnt) * 512 ≤ a →
        ch'.drives (devNo = 1) a = ch.drives (devNo = 1) a) ∧
      ch'.drives (devNo ≠ 1) = ch.drives (devNo ≠ 1) := by
  constructor
  · obtain ⟨ch', hread, hdrives, -⟩ := ideRead_ok ch devNo buf hpos hcnt hstarts
    refine ⟨ch', _, hread, hdrives, fun i hi => ?_, fun i hi => blit_out (by omega)⟩
    rw [blit_in (Nat.zero_le i) (by omega), Nat.sub_zero]
  · obtain ⟨ch', hwrite, hdrives, -⟩ := ideWrite_ok ch devNo buf hpos hcnt hstarts
    have hother : decide (devNo ≠ 1) ≠ decide (devNo = 1) := by simp
    refine ⟨ch', hwrite, fun i hi => ?_, fun a ha => ?_, ?_⟩
    · rw [hdrives, Function.update_self, blit_at hi, Nat.zero_add]
    · have hout : a < lba * 512 ∨ lba * 512 + secCnt * 512 ≤ a :=
        ha.imp_right fun h => Nat.add_mul lba .. ▸ h
      rw [hdrives, Function.update_self, blit_out hout]
    · rw [hdrives, Function.update_of_ne hother]

/-- Three hundred sectors of the slave go in two chunks. -/
theorem ide_transfers_two :
    (∃ ch' buf', ideRead ⟨fun _ => 0, fun _ a => UInt8.ofNat a, none⟩ 1 2048 (fun _ => 0) 300 =
        .ok (ch', buf') ∧ ch'.drives = (fun _ a => UInt8.ofNat a) ∧
      (∀ i < 300 * 512, buf' i = UInt8.ofNat (2048 * 512 + i)) ∧
      ∀ i, 300 * 512 ≤ i → buf' i = 0) ∧
    ∃ ch', ideWrite ⟨fun _ => 0, fun _ a => UInt8.ofNat a, none⟩ 1 2048 (fun _ => 0) 300 =
        .ok ch' ∧
      (∀ i < 300 * 512, ch'.drives (decide ((1 : UInt8) = 1)) (2048 * 512 + i) = 0) ∧
      (∀ a, a < 2048 * 512 ∨ (2048 + 300) * 512 ≤ a →
        ch'.drives (decide ((1 : UInt8) = 1)) a = UInt8.ofNat a) ∧
      ch'.drives (decide ((1 : UInt8) ≠ 1)) = fun a => UInt8.ofNat a :=
  ide_transfers ⟨fun _ => 0, fun _ a => UInt8.ofNat a, none⟩ 1 (fun _ => 0) (by decide) (by decide)
    fun k hk => by unfold max_lba; omega

/-! ## The sectors of the driver's other model -/

/-- The chunk `k` is full or the last one; `chunks` are left with it. -/
theorem chunk_cases {chunks : Nat} (k : Nat) (hlt : 256 * k < secCnt)
    (hchunks : (secCnt - 256 * k + 255) / 256 = chunks + 1) :
    (ZhuOS.secsOp secCnt (256 * k) = 256 ∧ 256 * (k + 1) < secCnt ∧
        (secCnt - 256 * (k + 1) + 255) / 256 = chunks) ∨
      (ZhuOS.secsOp secCnt (256 * k) = secCnt - 256 * k ∧ secCnt - 256 * k ≤ 256 ∧ chunks = 0) := by
  unfold ZhuOS.secsOp
  split <;> omega

/-- The induction is on the chunks that are left. -/
theorem readChunks_starts (disk : Bytes) (hstarts : Starts lba secCnt) (chunks k : Nat)
    (hlt : 256 * k < secCnt) (hchunks : (secCnt - 256 * k + 255) / 256 = chunks) (buf : Bytes) :
    readChunks disk lba secCnt chunks (256 * k) buf = .ok (blit buf (256 * k * 512) disk
      ((lba + 256 * k) * 512) ((secCnt - 256 * k) * 512)) := by
  induction chunks generalizing k buf with
  | zero => omega
  | succ chunks ih =>
    have hstart := hstarts k hlt
    have hu : u32 (lba + 256 * k) = lba + 256 * k := u32_eq (by unfold max_lba at hstart; omega)
    obtain ⟨hn, hnext, hrest⟩ | ⟨hn, hfew, rfl⟩ := chunk_cases k hlt hchunks
    · have hjoin := blit_blit buf disk (256 * k * 512) ((lba + 256 * k) * 512) (256 * 512)
        ((secCnt - 256 * (k + 1)) * 512)
      have hsecs : 256 + (secCnt - 256 * (k + 1)) = secCnt - 256 * k := by omega
      rw [← Nat.add_mul, ← Nat.add_mul, ← Nat.add_mul, Nat.add_assoc, hsecs] at hjoin
      simp only [readChunks, ZhuOS.selectSector, hn, hu, ASSERT_true hstart, ok_bind,
        ZhuOS.sizeInByte_eq (show 0 < 256 by decide) le_rfl]
      rw [show 256 * k + 256 = 256 * (k + 1) by omega] at hjoin ⊢
      rw [ih (k + 1) hnext hrest, hjoin]
    · simp only [readChunks, ZhuOS.selectSector, hn, hu, ASSERT_true hstart, ok_bind,
        ZhuOS.sizeInByte_eq (show 0 < secCnt - 256 * k by omega) hfew]
      rfl

theorem writeChunks_starts (buf : Bytes) (hstarts : Starts lba secCnt) (chunks k : Nat)
    (hlt : 256 * k < secCnt) (hchunks : (secCnt - 256 * k + 255) / 256 = chunks) (disk : Bytes) :
    writeChunks buf lba secCnt chunks (256 * k) disk = .ok (blit disk ((lba + 256 * k) * 512) buf
      (256 * k * 512) ((secCnt - 256 * k) * 512)) := by
  induction chunks generalizing k disk with
  | zero => omega
  | succ chunks ih =>
    have hstart := hstarts k hlt
    have hu : u32 (lba + 256 * k) = lba + 256 * k := u32_eq (by unfold max_lba at hstart; omega)
    obtain ⟨hn, hnext, hrest⟩ | ⟨hn, hfew, rfl⟩ := chunk_cases k hlt hchunks
    · have hjoin := blit_blit disk buf ((lba + 256 * k) * 512) (256 * k * 512) (256 * 512)
        ((secCnt - 256 * (k + 1)) * 512)
      have hsecs : 256 + (secCnt - 256 * (k + 1)) = secCnt - 256 * k := by omega
      rw [← Nat.add_mul, ← Nat.add_mul, ← Nat.add_mul, Nat.add_assoc, hsecs] at hjoin
      simp only [writeChunks, ZhuOS.selectSector, hn, hu, ASSERT_true hstart, ok_bind,
        ZhuOS.sizeInByte_eq (show 0 < 256 by decide) le_rfl]
      rw [show 256 * k + 256 = 256 * (k + 1) by omega] at hjoin ⊢
      rw [ih (k + 1) hnext hrest, hjoin]
    · simp only [writeChunks, ZhuOS.selectSector, hn, hu, ASSERT_true hstart, ok_bind,
        ZhuOS.sizeInByte_eq (show 0 < secCnt - 256 * k by omega) hfew]
      rfl

theorem ideRead_starts (disk buf : Bytes) (hpos : 0 < secCnt) (hstarts : Starts lba secCnt) :
    ZhuOS.ideRead disk lba buf secCnt = .ok (blit buf 0 disk (lba * 512) (secCnt * 512)) := by
  have hreads := readChunks_starts disk hstarts _ 0 hpos rfl buf
  simp only [Nat.mul_zero, Nat.zero_mul, Nat.add_zero, Nat.sub_zero] at hreads
  simp only [ZhuOS.ideRead, ASSERT_true (hstarts.first hpos), ASSERT_true hpos, ok_bind, hreads]

theorem ideWrite_starts (disk buf : Bytes) (hpos : 0 < secCnt) (hstarts : Starts lba secCnt) :
    ZhuOS.ideWrite disk lba buf secCnt = .ok (blit disk (lba * 512) buf 0 (secCnt * 512)) := by
  have hwrites := writeChunks_starts buf hstarts _ 0 hpos rfl disk
  simp only [Nat.mul_zero, Nat.zero_mul, Nat.add_zero, Nat.sub_zero] at hwrites
  simp only [ZhuOS.ideWrite, ASSERT_true (hstarts.first hpos), ASSERT_true hpos, ok_bind, hwrites]

/-- The registers carry out what the functions do with the sectors. -/
theorem ide_refines (ch : Channel) (devNo : UInt8) (buf : Bytes) (hpos : 0 < secCnt)
    (hcnt : secCnt < 2 ^ 23) (hstarts : Starts lba secCnt) :
    (∃ ch' buf', ideRead ch devNo lba buf secCnt = .ok (ch', buf') ∧ ch'.drives = ch.drives ∧
      ZhuOS.ideRead (ch.drives (devNo = 1)) lba buf secCnt = .ok buf') ∧
    ∃ ch' disk', ideWrite ch devNo lba buf secCnt = .ok ch' ∧
      ch'.drives = Function.update ch.drives (devNo = 1) disk' ∧
      ZhuOS.ideWrite (ch.drives (devNo = 1)) lba buf secCnt = .ok disk' := by
  obtain ⟨ch₁, hread, hsame, -⟩ := ideRead_ok ch devNo buf hpos hcnt hstarts
  obtain ⟨ch₂, hwrite, hstored, -⟩ := ideWrite_ok ch devNo buf hpos hcnt hstarts
  exact ⟨⟨ch₁, _, hread, hsame, ideRead_starts _ buf hpos hstarts⟩,
    ch₂, _, hwrite, hstored, ideWrite_starts _ buf hpos hstarts⟩

end ZhuOS.Ata
