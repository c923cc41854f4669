import ZhuOS.FileWrites
import ZhuOS.InodeThreads

/-!
# When `file_write` does what it should

The size is tested after a 32-bit addition, a file of a whole number of sectors is given one
block more than it needs, and `bitmap_scan` does not return from a full map.
-/

namespace ZhuOS

open ByteMem

variable {fs fs' : Fs} {disk disk' : Bytes} {part part' : Partition} {nd : Inode} {ref fd n : Nat}
  {buf : Bytes} {count : UInt32}

/-! ## Blocks spent -/

/-- `k` blocks were free and are not any more. -/
structure Spends (part part' : Partition) (k : Nat) : Prop where
  layout : DiskLayout part'
  card : part'.blockBitmap.free.card + k = part.blockBitmap.free.card

theorem Spends.none (hl : DiskLayout part) : Spends part part 0 := ⟨hl, rfl⟩

theorem Spends.trans {part'' : Partition} {j k : Nat} (h : Spends part part' j)
    (h' : Spends part' part'' k) : Spends part part'' (j + k) := by
  have hj := h.card
  have hk := h'.card
  exact ⟨h'.layout, by omega⟩

theorem claimBlock_spends {r : Option UInt32} (hl : DiskLayout part)
    (h : claimBlock disk part = .ok (r, disk', part')) : ∃ lba, r = some lba ∧
      Spends part part' 1 := by
  obtain ⟨lba, hr, hc⟩ := claimBlock_ok hl h
  exact ⟨lba, hr, hc.layout hl, hc.free_card⟩

theorem firstBlock_spends {s s' : NodeState} {found : Bool} (hl : DiskLayout s.part)
    (h : firstBlock s = .ok (found, s')) : found = true ∧ s'.inode.iSize = s.inode.iSize ∧
      Spends s.part s'.part (if s.inode.iSectors 0 = 0 then 1 else 0) := by
  unfold firstBlock at h
  by_cases hnew : s.inode.iSectors 0 = 0
  · rw [if_pos hnew] at h ⊢
    obtain ⟨⟨r, disk, part⟩, hc, h⟩ := bind_ok.mp h
    obtain ⟨lba, rfl, hspends⟩ := claimBlock_spends hl hc
    obtain ⟨-, -, h⟩ := bind_ok.mp h
    cases h
    exact ⟨rfl, rfl, hspends⟩
  · rw [if_neg hnew] at h ⊢
    cases h
    exact ⟨rfl, rfl, .none hl⟩

theorem claimBlocks_spends (left : Nat) {blockIdx : Nat} {w w' : Writer} {found : Bool}
    (hl : DiskLayout w.part) (h : claimBlocks left blockIdx w = .ok (found, w')) :
    found = true ∧ Spends w.part w'.part left := by
  induction left generalizing blockIdx w with
  | zero =>
    cases h
    exact ⟨rfl, .none hl⟩
  | succ left ih =>
    obtain ⟨⟨r, disk, part⟩, hc, h⟩ := bind_ok.mp h
    obtain ⟨lba, rfl, hone⟩ := claimBlock_spends hl hc
    dsimp only at h
    rw [Nat.add_comm]
    by_cases hdirect : blockIdx < 12
    · rw [if_pos hdirect] at h
      obtain ⟨-, -, h⟩ := bind_ok.mp h
      obtain ⟨hfound, hrest⟩ := ih hone.layout h
      exact ⟨hfound, hone.trans hrest⟩
    · rw [if_neg hdirect] at h
      obtain ⟨hfound, hrest⟩ := ih hone.layout h
      exact ⟨hfound, hone.trans hrest⟩

theorem claimBehindTable_spends {w w' : Writer} {table : UInt32} {has will : Nat} {found : Bool}
    (hl : DiskLayout w.part) (h : claimBehindTable w table has will = .ok (found, w')) :
    found = true ∧ Spends w.part w'.part (will - has) := by
  obtain ⟨⟨ok, w₁⟩, hc, h⟩ := bind_ok.mp h
  obtain ⟨rfl, hspends⟩ := claimBlocks_spends _ hl hc
  obtain ⟨disk, -, h⟩ := bind_ok.mp h
  cases h
  exact ⟨rfl, hspends⟩

/-- Each case spends the blocks between the two costs. -/
theorem writeBlocks_spends {s : NodeState} {w : Writer} {has will : Nat} {found : Bool}
    (hl : DiskLayout s.part) (h : writeBlocks s has will = .ok (found, w)) :
    found = true ∧ Spends s.part w.part (blockCost will - blockCost has) := by
  unfold writeBlocks at h
  by_cases hsame : will = has
  · rw [if_pos hsame] at h
    rw [hsame, Nat.sub_self]
    by_cases hdirect : has ≤ 12
    · rw [if_pos (hsame ▸ hdirect)] at h
      cases h
      exact ⟨rfl, .none hl⟩
    · rw [if_neg (hsame ▸ hdirect)] at h
      obtain ⟨-, -, h⟩ := bind_ok.mp h
      obtain ⟨blocks, -, h⟩ := bind_ok.mp h
      cases h
      exact ⟨rfl, .none hl⟩
  · rw [if_neg hsame] at h
    by_cases hdirect : will ≤ 12
    · have hcost : blockCost will - blockCost has = will - has := by
        unfold blockCost
        rw [if_neg (by omega)]
        split <;> omega
      rw [if_pos hdirect] at h
      rw [hcost]
      by_cases hfar : 13 < has
      · rw [if_pos hfar] at h
        cases h
      · rw [if_neg hfar] at h
        obtain ⟨-, -, h⟩ := bind_ok.mp h
        exact claimBlocks_spends _ hl h
    · rw [if_neg hdirect] at h
      by_cases hnew : has ≤ 12
      · have hcost : blockCost will - blockCost has = 1 + (will - has) := by
          unfold blockCost
          rw [if_pos (by omega), if_neg (by omega)]
          omega
        rw [if_pos hnew] at h
        rw [hcost]
        obtain ⟨⟨r, disk, part⟩, hc, h⟩ := bind_ok.mp h
        obtain ⟨lba, rfl, hone⟩ := claimBlock_spends hl hc
        obtain ⟨-, -, h⟩ := bind_ok.mp h
        obtain ⟨hfound, hrest⟩ := claimBehindTable_spends hone.layout h
        exact ⟨hfound, hone.trans hrest⟩
      · have hcost : blockCost will - blockCost has = will - has := by
          unfold blockCost
          rw [if_pos (by omega), if_pos (by omega)]
          omega
        rw [if_neg hnew] at h
        rw [hcost]
        obtain ⟨-, -, h⟩ := bind_ok.mp h
        obtain ⟨blocks, -, h⟩ := bind_ok.mp h
        exact claimBehindTable_spends hl h

/-- A write that comes back has found its blocks. -/
theorem writeNode_spends {s s' : NodeState} {src : Bytes} {r : Option WriteLoop}
    (hl : DiskLayout s.part) (h : writeNode s src count = .ok (r, s')) :
    (∃ l, r = some l) ∧ (s.inode.iSize + count).toNat / 512 + 1 ≤ 140 ∧
      (if s.inode.iSectors 0 = 0 then 1 else 0) +
        (blockCost ((s.inode.iSize + count).toNat / 512 + 1) -
          blockCost (s.inode.iSize.toNat / 512 + 1)) ≤ s.part.blockBitmap.free.card := by
  obtain ⟨⟨first, s₁⟩, hf, h⟩ := bind_ok.mp h
  obtain ⟨rfl, hsize, hone⟩ := firstBlock_spends hl hf
  obtain ⟨_, hmax, h⟩ := bind_ok.mp h
  obtain ⟨⟨found, w⟩, hw, h⟩ := bind_ok.mp h
  obtain ⟨rfl, hrest⟩ := writeBlocks_spends hone.layout hw
  obtain ⟨l, -, h⟩ := bind_ok.mp h
  obtain ⟨disk, -, h⟩ := bind_ok.mp h
  cases h
  have hmax := ASSERT_ok hmax
  have hcard := (hone.trans hrest).card
  simp only [hsize] at hmax hcard
  exact ⟨⟨l, rfl⟩, hmax, by omega⟩

/-! ## The call -/

/-- Both buffers are found. -/
def Buffers (fs : Fs) : Prop := fs.heap 0 = true ∧ fs.heap 1 = true

instance (fs : Fs) : Decidable (Buffers fs) := inferInstanceAs (Decidable (_ ∧ _))

/-- What a write returns that does not get to the blocks. -/
def Fs.bufferless (fs : Fs) (asked : Nat) : Fs := { fs with heap := fun k => fs.heap (k + asked) }

/-- `file_write` up to the blocks. -/
theorem fileWrite_eq (hfd : (fs.fileTable fd).fdInode = some ref)
    (hnode : fs.inodeAt ref = .ok nd) :
    fileWrite fs fd buf count =
      if 512 * 140 < nd.iSize + count then .ok (-1, fs)
      else if fs.heap 0 = false then .ok (-1, fs.bufferless 1)
      else if fs.heap 1 = false then .ok (-1, fs.bufferless 2)
      else do
        match ← writeNode ⟨fs.disk, fs.part, nd⟩ buf count with
        | (none, s) => return (-1, (fs.bufferless 2).setNode ref s)
        | (some l, s) => return (l.bytesWritten,
            ((fs.bufferless 2).setNode ref s).setPos fd (.ofNat l.fdPos)) := by
  simp only [fileWrite, hfd, hnode, ok_bind]
  by_cases hbig : 512 * 140 < nd.iSize + count
  · rw [if_pos hbig, if_pos hbig]
    rfl
  · rw [if_neg hbig, if_neg hbig]
    simp only [Fs.askMalloc, ZhuOS.askMalloc, decide_true, Bool.and_true, Nat.reduceLT,
      Nat.reduceAdd, Bool.not_eq_true, Fs.bufferless]
    by_cases h0 : fs.heap 0 = false
    · rw [if_pos h0, if_pos h0]
      rfl
    · rw [if_neg h0, if_neg h0]
      by_cases h1 : fs.heap 1 = false
      · rw [if_pos h1, if_pos h1]
        rfl
      · rw [if_neg h1]
        exact (if_neg h1).symm

theorem inodeAt_setNode {s : NodeState} (hnode : fs.inodeAt ref = .ok nd)
    (hlist : s.part.openInodes = fs.part.openInodes) :
    (fs.setNode ref s).inodeAt ref = .ok s.inode := by
  obtain ⟨o, ho, href, -⟩ := inodeAt_mem hnode
  have hlook : ∀ l : List OpenInode, o ∈ l →
      ∃ o', (setInode ref s.inode l).find? (·.ref = ref) = some o' ∧ o'.inode = s.inode := by
    intro l hl
    induction l with
    | nil => cases hl
    | cons a l ih =>
      by_cases ha : a.ref = ref
      · exact ⟨{ a with inode := s.inode }, by simp [setInode, ha], rfl⟩
      · have hmem : o ∈ l := by
          obtain rfl | hl := List.mem_cons.mp hl
          · exact absurd href ha
          · exact hl
        obtain ⟨o', hfind, hinode⟩ := ih hmem
        refine ⟨o', ?_, hinode⟩
        rw [setInode] at hfind ⊢
        simp only [List.map_cons, if_neg ha]
        rw [List.find?_cons_of_neg (by simpa using ha), hfind]
  obtain ⟨o', hfind, hinode⟩ := hlook fs.part.openInodes ho
  rw [← hlist] at hfind
  have hat : (fs.setNode ref s).inodeAt ref = .ok o'.inode := by
    unfold Fs.inodeAt Fs.setNode
    simp only [hfind]
  rw [hat, hinode]

/-- A write in which the size and the memory are right goes through to the blocks. -/
theorem fileWrite_ok (buf : Bytes) (count : UInt32)
    (hfd : (fs.fileTable fd).fdInode = some ref) (hnode : fs.inodeAt ref = .ok nd)
    (hl : DiskLayout fs.part) (hroot : fs.part.blockBitmap.bit 0 = true)
    (hf : FileOk fs.disk fs.part nd n) (hmem : Buffers fs)
    (hmax : nd.iSize.toNat + count.toNat < 512 * 140)
    (hfree : blockCost ((nd.iSize.toNat + count.toNat) / 512 + 1) ≤
      fs.part.blockBitmap.free.card + blockCost n) :
    ∃ l s', fileWrite fs fd buf count =
        .ok (count.toNat, ((fs.bufferless 2).setNode ref s').setPos fd (.ofNat l)) ∧
      (((fs.bufferless 2).setNode ref s').setPos fd (.ofNat l)).inodeAt ref = .ok s'.inode ∧
      Wrote ⟨fs.disk, fs.part, nd⟩ buf count.toNat n s' ∧
      StoresNode ⟨fs.disk, fs.part, nd⟩ s' := by
  obtain ⟨l, s', hrun, hwritten, hw, hstored⟩ :=
    writeNode_ok (s := ⟨fs.disk, fs.part, nd⟩) buf count hl hroot hf hmax hfree
  have hsmall : ¬ 512 * 140 < nd.iSize + count := by
    rw [UInt32.lt_iff_toNat_lt, UInt32.toNat_add, Nat.mod_eq_of_lt (by omega)]
    exact Nat.not_lt.mpr hmax.le
  refine ⟨l.fdPos, s', ?_, ?_, hw, hstored⟩
  · rw [fileWrite_eq hfd hnode, if_neg hsmall, if_neg (by simp [hmem.1]),
      if_neg (by simp [hmem.2])]
    simp only [hrun, ok_bind, hwritten]
    rfl
  · have hnode' : (fs.bufferless 2).inodeAt ref = .ok nd := hnode
    exact inodeAt_setNode hnode' hw.part_eq.openInodes

/-! ## What is promised -/

/-- The blocks that hold so many bytes. -/
def dataBlocks (size : Nat) : Nat := (size + 511) / 512

/-- The file may grow so far, and there are the blocks for the bytes. -/
def Fits (part : Partition) (n total : Nat) : Prop :=
  total ≤ 71680 ∧ blockCost (dataBlocks total) ≤ part.blockBitmap.free.card + blockCost n

/-- A write that returns has been refused, or it has found its blocks. -/
theorem fileWrite_cases {result : Int} (hfd : (fs.fileTable fd).fdInode = some ref)
    (hnode : fs.inodeAt ref = .ok nd) (hl : DiskLayout fs.part)
    (h : fileWrite fs fd buf count = .ok (result, fs')) :
    (result = -1 ∧ (71680 < (nd.iSize.toNat + count.toNat) % 2 ^ 32 ∨ ¬ Buffers fs)) ∨
      Buffers fs ∧ 0 ≤ result ∧ (nd.iSize.toNat + count.toNat) % 2 ^ 32 < 71680 ∧
        (if nd.iSectors 0 = 0 then 1 else 0) +
          (blockCost ((nd.iSize.toNat + count.toNat) % 2 ^ 32 / 512 + 1) -
            blockCost (nd.iSize.toNat / 512 + 1)) ≤ fs.part.blockBitmap.free.card := by
  rw [fileWrite_eq hfd hnode] at h
  by_cases hbig : 512 * 140 < nd.iSize + count
  · rw [if_pos hbig] at h
    cases h
    rw [UInt32.lt_iff_toNat_lt, UInt32.toNat_add] at hbig
    exact .inl ⟨rfl, .inl hbig⟩
  · rw [if_neg hbig] at h
    by_cases h0 : fs.heap 0 = false
    · rw [if_pos h0] at h
      cases h
      exact .inl ⟨rfl, .inr fun hmem => by simp [hmem.1] at h0⟩
    · rw [if_neg h0] at h
      by_cases h1 : fs.heap 1 = false
      · rw [if_pos h1] at h
        cases h
        exact .inl ⟨rfl, .inr fun hmem => by simp [hmem.2] at h1⟩
      · rw [if_neg h1] at h
        obtain ⟨⟨r, s⟩, hrun, h⟩ := bind_ok.mp h
        obtain ⟨⟨l, rfl⟩, hmax, hcard⟩ := writeNode_spends hl hrun
        cases h
        rw [UInt32.toNat_add] at hmax hcard
        dsimp only at hmax hcard
        refine .inr ⟨⟨by simpa using h0, by simpa using h1⟩, Int.natCast_nonneg _, by omega, hcard⟩

/-- The blocks that a write asks for are those that the file does not have yet. -/
theorem FileOk.blockCost_le (hf : FileOk fs.disk fs.part nd n)
    (hlt : nd.iSize.toNat < 512 * 140) {m free : Nat}
    (hcard : (if nd.iSectors 0 = 0 then 1 else 0) +
      (blockCost m - blockCost (nd.iSize.toNat / 512 + 1)) ≤ free) :
    blockCost m ≤ free + blockCost n := by
  obtain ⟨rfl, hz⟩ | hn := hf.count
  · have hfirst : nd.iSectors 0 = 0 := by
      have hdirect : blockAt fs.disk nd 0 = nd.iSectors 0 := blockAt_direct (by decide)
      rw [← hdirect]
      exact hf.rest 0 (Nat.le_refl _)
    have hzero : nd.iSize.toNat = 0 := by rw [hz]; rfl
    have hone : blockCost (nd.iSize.toNat / 512 + 1) = 1 := by rw [hzero]; rfl
    rw [if_pos hfirst, hone] at hcard
    have hnone : blockCost 0 = 0 := rfl
    omega
  · have hn' : n = nd.iSize.toNat / 512 + 1 := by omega
    rw [← hn'] at hcard
    omega

/-- An empty file, open at address 1, on a partition of which block 0 alone is taken. -/
def emptyFileFs : Fs where
  disk := fun _ => 0
  part := { tablePartition with
    blockBitmap := ⟨512, fun i => if i = 0 then 1 else 0⟩
    openInodes := [⟨1, inodeInit 5⟩] }
  rootDir := 0
  fileTable := fun _ => ⟨0, 0, some 1⟩
  fdTable := fun _ => none
  heap := fun _ => true
  junk := fun _ => 0

theorem emptyFileFs_layout : DiskLayout emptyFileFs.part where
  blockMapLen := rfl
  inodeMapLen := rfl
  blockMap := by decide
  inodeMap := by decide
  table := by decide
  onDisk := by decide
  inPart := by decide
  blocks i hi _ := by
    have hi : i < 4096 := hi
    have hstart : emptyFileFs.part.sb.dataStartLba.toNat = 612 := rfl
    unfold max_lba
    omega
  entrySize := rfl

theorem emptyFileFs_ok : FileOk emptyFileFs.disk emptyFileFs.part (inodeInit 5) 0 where
  inUse := nofun
  apart := nofun
  table h := absurd rfl h
  tableApart := nofun
  rest k _ := by
    by_cases hk : k < 12
    · exact blockAt_direct hk
    · exact blockAt_noTable rfl (by omega)
  indirect := ⟨fun h => absurd rfl h, fun h => absurd h (by decide)⟩
  size := by decide
  count := .inl ⟨rfl, rfl⟩

end ZhuOS
