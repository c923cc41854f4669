import Mathlib.Algebra.Order.Interval.Finset.SuccPred
import Mathlib.Algebra.Order.SuccPred
import Mathlib.Data.Nat.SuccPred
import Mathlib.Order.Interval.Finset.Nat
import ZhuOS.DirSlots

/-!
# Deleting an entry

`delete_dir_entry` clears the slot of its entry, or gives up the block when nothing but the
entry was in it. It does not come back when that block is behind the indirect table.
-/

namespace ZhuOS

open ByteMem Slots

set_option maxRecDepth 2000

/-! ## The walk over a sector -/

/-- An entry in use that is neither `.` nor `..`. -/
def DirEntry.Counts (e : DirEntry) : Prop := e.fType ≠ FT_UNKNOWN ∧ e.Proper

instance (e : DirEntry) : Decidable e.Counts := inferInstanceAs (Decidable (_ ∧ _))

/-- From `lo` up to `hi`: the walk has seen `.`, has counted the entries and has found the one
with the number. -/
structure Scans (buf : Bytes) (n lo hi : Nat) (acc acc' : SectorScan) : Prop where
  dots : acc'.isDirFirstBlock = true ↔ acc.isDirFirstBlock = true ∨
    ∃ i, lo ≤ i ∧ i < hi ∧ (entryAt buf i).fType ≠ FT_UNKNOWN ∧ (entryAt buf i).name = dot
  cnt : acc'.dirEntryCnt = acc.dirEntryCnt +
    ((Finset.Ico lo hi).filter fun i => (entryAt buf i).Counts).card
  found : ∀ i, acc'.dirEntryFound = some i ↔ acc.dirEntryFound = some i ∨
    lo ≤ i ∧ i < hi ∧ (entryAt buf i).Counts ∧ (entryAt buf i).iNo.toNat = n

section
variable {buf : Bytes} {n lo hi : Nat} {acc acc₁ acc' : SectorScan}

theorem Scans.refl (buf : Bytes) (n lo : Nat) (acc : SectorScan) : Scans buf n lo lo acc acc := by
  constructor
  · constructor
    · exact .inl
    · rintro (h | ⟨i, hlo, hhi, -⟩)
      · exact h
      · omega
  · rw [Finset.Ico_self, Finset.filter_empty, Finset.card_empty, Nat.add_zero]
  · intro i
    constructor
    · exact .inl
    · rintro (h | ⟨hlo, hhi, -⟩)
      · exact h
      · omega

/-- One entry, and then the others. -/
theorem Scans.cons (hlt : lo < hi) (h : Scans buf n (lo + 1) hi acc₁ acc')
    (hdots : acc₁.isDirFirstBlock = true ↔ acc.isDirFirstBlock = true ∨
      (entryAt buf lo).fType ≠ FT_UNKNOWN ∧ (entryAt buf lo).name = dot)
    (hcnt : acc₁.dirEntryCnt = acc.dirEntryCnt + if (entryAt buf lo).Counts then 1 else 0)
    (hfound : ∀ i, acc₁.dirEntryFound = some i ↔ acc.dirEntryFound = some i ∨
      i = lo ∧ (entryAt buf lo).Counts ∧ (entryAt buf lo).iNo.toNat = n) :
    Scans buf n lo hi acc acc' := by
  constructor
  · rw [h.dots, hdots, or_assoc]
    apply or_congr_right
    constructor
    · rintro (hlo | ⟨i, hi, hhi, hdot⟩)
      · exact ⟨lo, Nat.le_refl _, hlt, hlo⟩
      · exact ⟨i, by omega, hhi, hdot⟩
    · rintro ⟨i, hi, hhi, hdot⟩
      rcases Nat.eq_or_lt_of_le hi with rfl | hi
      · exact .inl hdot
      · exact .inr ⟨i, hi, hhi, hdot⟩
  · rw [h.cnt, hcnt, ← Finset.insert_Ico_add_one_left_eq_Ico hlt, Finset.filter_insert]
    by_cases hlo : (entryAt buf lo).Counts
    · have hnot : lo ∉ (Finset.Ico (lo + 1) hi).filter fun i => (entryAt buf i).Counts := by
        rw [Finset.mem_filter, Finset.mem_Ico]
        omega
      rw [if_pos hlo, if_pos hlo, Finset.card_insert_of_notMem hnot]
      omega
    · rw [if_neg hlo, if_neg hlo, Nat.add_zero]
  · intro i
    rw [h.found, hfound, or_assoc]
    apply or_congr_right
    constructor
    · rintro (⟨rfl, hmatch⟩ | ⟨hi, hhi, hmatch⟩)
      · exact ⟨Nat.le_refl _, hlt, hmatch⟩
      · exact ⟨by omega, hhi, hmatch⟩
    · rintro ⟨hi, hhi, hmatch⟩
      rcases Nat.eq_or_lt_of_le hi with rfl | hi
      · exact .inl ⟨rfl, hmatch⟩
      · exact .inr ⟨hi, hhi, hmatch⟩

/-- The walk ends where no two entries have the number. -/
theorem scanSector_scans (left lo : Nat) (acc : SectorScan)
    (hone : ∀ i, lo ≤ i → i < lo + left → (entryAt buf i).Counts →
      (entryAt buf i).iNo.toNat = n → acc.dirEntryFound = none ∧
        ∀ x, i < x → x < lo + left → (entryAt buf x).Counts → (entryAt buf x).iNo.toNat ≠ n) :
    ∃ acc', scanSector buf n left lo acc = .ok acc' ∧ Scans buf n lo (lo + left) acc acc' := by
  induction left generalizing lo acc with
  | zero => exact ⟨acc, rfl, .refl ..⟩
  | succ left ih =>
    have hlt : lo < lo + (left + 1) := by omega
    have hsum : lo + (left + 1) = lo + 1 + left := by omega
    have hrest : ∀ acc₁ : SectorScan, acc₁.dirEntryFound = acc.dirEntryFound →
        ∃ acc', scanSector buf n left (lo + 1) acc₁ = .ok acc' ∧
          Scans buf n (lo + 1) (lo + (left + 1)) acc₁ acc' := by
      intro acc₁ hfound
      rw [hsum]
      apply ih
      intro i hi hhi hc hn
      obtain ⟨hnone, hlater⟩ := hone i (by omega) (by omega) hc hn
      exact ⟨hfound.trans hnone, fun x hx hhx => hlater x hx (by omega)⟩
    rw [scanSector]
    by_cases hfree : (entryAt buf lo).fType = FT_UNKNOWN
    · have hnot : ¬ (entryAt buf lo).Counts := fun h => h.1 hfree
      obtain ⟨acc', hrun, h⟩ := hrest acc rfl
      refine ⟨acc', (if_pos hfree).trans hrun, h.cons hlt ?_ ?_ ?_⟩
      · simp [hfree]
      · rw [if_neg hnot, Nat.add_zero]
      · simp [hnot]
    rw [if_neg hfree]
    by_cases hdot : (entryAt buf lo).name = dot
    · have hnot : ¬ (entryAt buf lo).Counts := fun h => h.2.1 hdot
      obtain ⟨acc', hrun, h⟩ := hrest { acc with isDirFirstBlock := true } rfl
      refine ⟨acc', (if_pos hdot).trans hrun, h.cons hlt ?_ ?_ ?_⟩
      · simp [hfree, hdot]
      · rw [if_neg hnot, Nat.add_zero]
      · simp [hnot]
    rw [if_neg hdot]
    by_cases hdotDot : (entryAt buf lo).name = dotDot
    · have hnot : ¬ (entryAt buf lo).Counts := fun h => h.2.2 hdotDot
      obtain ⟨acc', hrun, h⟩ := hrest acc rfl
      refine ⟨acc', (if_pos hdotDot).trans hrun, h.cons hlt ?_ ?_ ?_⟩
      · simp [hdot]
      · rw [if_neg hnot, Nat.add_zero]
      · simp [hnot]
    rw [if_neg hdotDot]
    have hcounts : (entryAt buf lo).Counts := ⟨hfree, hdot, hdotDot⟩
    by_cases hno : (entryAt buf lo).iNo.toNat = n
    · obtain ⟨hnone, hlater⟩ := hone lo (Nat.le_refl _) hlt hcounts hno
      have hfoundHere : ∃ acc', scanSector buf n left (lo + 1)
          { acc with dirEntryCnt := acc.dirEntryCnt + 1, dirEntryFound := some lo } = .ok acc' ∧
          Scans buf n (lo + 1) (lo + (left + 1))
            { acc with dirEntryCnt := acc.dirEntryCnt + 1, dirEntryFound := some lo } acc' := by
        rw [hsum]
        apply ih
        intro i hi hhi hc hn
        exact absurd hn (hlater i (by omega) (by omega) hc)
      obtain ⟨acc', hrun, h⟩ := hfoundHere
      refine ⟨acc', ?_, h.cons hlt ?_ ?_ ?_⟩
      · simp only [hno, ↓reduceIte, hnone, ASSERT_true, ok_bind]
        exact hrun
      · simp [hdot]
      · rw [if_pos hcounts]
      · simp [hnone, hcounts, hno, eq_comm]
    · obtain ⟨acc', hrun, h⟩ := hrest { acc with dirEntryCnt := acc.dirEntryCnt + 1 } rfl
      refine ⟨acc', ?_, h.cons hlt ?_ ?_ ?_⟩
      · simp only [hno, ↓reduceIte]
        exact hrun
      · simp [hdot]
      · rw [if_pos hcounts]
      · simp [hno]

end

/-! ## The walk over the blocks -/

section
variable {disk : Bytes} {nd : Inode} {p : Nat × Nat} {e : DirEntry} {s : NodeState} {n k : Nat}

/-- But for `..` the entry is all that lies in its block. -/
structure Lone (disk : Bytes) (nd : Inode) (p : Nat × Nat) : Prop where
  only : ∀ j < 21, ∀ e, slot disk nd (p.1, j) = some e → e.Proper → j = p.2
  noDot : ∀ j < 21, ∀ e, slot disk nd (p.1, j) = some e → e.name ≠ dot

/-- The sector of a block in a buffer. -/
def loaded (disk : Bytes) (nd : Inode) (k : Nat) (ioBuf : Bytes) : Bytes :=
  blit (fill ioBuf 0 512 0) 0 disk ((blockAt disk nd k).toNat * 512) 512

theorem entryAt_loaded (ioBuf : Bytes) (hne : blockAt disk nd k ≠ 0) {j : Nat} (hj : j < 21) :
    slot disk nd (k, j) = some e ↔
      entryAt (loaded disk nd k ioBuf) j = e ∧ e.fType ≠ FT_UNKNOWN := by
  rw [slot_some, and_iff_right hne, loaded, entryAt_read hj]

/-- The walk over the sector of a block. -/
theorem scanSector_block (hone : KeyOnce dirGrid (slot disk nd) (·.iNo) DirEntry.Proper)
    (hk : k < 140) (hne : blockAt disk nd k ≠ 0) (n : Nat) (ioBuf : Bytes) :
    ∃ scan, scanSector (loaded disk nd k ioBuf) n 21 0 ⟨false, 0, none⟩ = .ok scan ∧
      Scans (loaded disk nd k ioBuf) n 0 21 ⟨false, 0, none⟩ scan := by
  have huniq : ∀ i, 0 ≤ i → i < 0 + 21 → (entryAt (loaded disk nd k ioBuf) i).Counts →
      (entryAt (loaded disk nd k ioBuf) i).iNo.toNat = n → (none : Option Nat) = none ∧
        ∀ x, i < x → x < 0 + 21 → (entryAt (loaded disk nd k ioBuf) x).Counts →
          (entryAt (loaded disk nd k ioBuf) x).iNo.toNat ≠ n := by
    intro i _ hi hc hn
    refine ⟨rfl, ?_⟩
    intro x hix hx hcx hnx
    have hslot : slot disk nd (k, i) = some (entryAt (loaded disk nd k ioBuf) i) :=
      (entryAt_loaded ioBuf hne (by omega)).mpr ⟨rfl, hc.1⟩
    have hslotx : slot disk nd (k, x) = some (entryAt (loaded disk nd k ioBuf) x) :=
      (entryAt_loaded ioBuf hne (by omega)).mpr ⟨rfl, hcx.1⟩
    have hsame := hone (k, i) (pair_mem_dirGrid hk (by omega)) (k, x)
      (pair_mem_dirGrid hk (by omega)) _ _ hslot hslotx hc.2 hcx.2
      (UInt32.toNat_inj.mp (hn.trans hnx.symm))
    have hix' : i = x := congrArg Prod.snd hsame
    omega
  obtain ⟨scan, hrun, hscan⟩ := scanSector_scans 21 0 ⟨false, 0, none⟩ huniq
  rw [Nat.zero_add] at hscan
  exact ⟨scan, hrun, hscan⟩

/-- In a block without the number the walk finds nothing. -/
theorem scanSector_absent {ioBuf : Bytes} {scan : SectorScan} (hne : blockAt disk nd k ≠ 0)
    (habsent : ∀ j < 21, ∀ e, slot disk nd (k, j) = some e → e.Proper → e.iNo.toNat ≠ n)
    (hscan : Scans (loaded disk nd k ioBuf) n 0 21 ⟨false, 0, none⟩ scan) :
    scan.dirEntryFound = none := by
  rw [Option.eq_none_iff_forall_ne_some]
  intro i hi
  obtain hnone | ⟨-, hlt, hc, hn⟩ := (hscan.found i).mp hi
  · cases hnone
  · exact habsent i hlt _ ((entryAt_loaded ioBuf hne hlt).mpr ⟨rfl, hc.1⟩) hc.2 hn

/-- In the block of the entry it finds the entry, and says whether it is alone. -/
theorem scanSector_found {ioBuf : Bytes} {scan : SectorScan} (hp : p ∈ dirGrid)
    (hslot : slot disk nd p = some e) (hproper : e.Proper)
    (hscan : Scans (loaded disk nd p.1 ioBuf) e.iNo.toNat 0 21 ⟨false, 0, none⟩ scan) :
    scan.dirEntryFound = some p.2 ∧ 1 ≤ scan.dirEntryCnt ∧
      (scan.dirEntryCnt = 1 ∧ scan.isDirFirstBlock = false ↔ Lone disk nd p) := by
  obtain ⟨hne, -, -⟩ := slot_some.mp hslot
  obtain ⟨-, hj⟩ := mem_dirGrid.mp hp
  obtain ⟨hentry, hlive⟩ := (entryAt_loaded ioBuf hne hj).mp hslot
  have hcounts : (entryAt (loaded disk nd p.1 ioBuf) p.2).Counts := by
    rw [hentry]
    exact ⟨hlive, hproper⟩
  have hmem : p.2 ∈ (Finset.Ico 0 21).filter
      fun i => (entryAt (loaded disk nd p.1 ioBuf) i).Counts :=
    Finset.mem_filter.mpr ⟨Finset.mem_Ico.mpr ⟨Nat.zero_le _, hj⟩, hcounts⟩
  have hcnt := hscan.cnt
  rw [Nat.zero_add] at hcnt
  refine ⟨?_, ?_, ?_⟩
  · exact (hscan.found p.2).mpr (.inr ⟨Nat.zero_le _, hj, hcounts, congrArg (·.iNo.toNat) hentry⟩)
  · rw [hcnt]
    exact Finset.card_pos.mpr ⟨_, hmem⟩
  · rw [hcnt]
    constructor
    · rintro ⟨hone, hfirst⟩
      constructor
      · intro x hx a ha hpa
        obtain ⟨ha', hlivea⟩ := (entryAt_loaded ioBuf hne hx).mp ha
        apply Finset.card_le_one.mp (Nat.le_of_eq hone) x _ p.2 hmem
        rw [Finset.mem_filter, ha']
        exact ⟨Finset.mem_Ico.mpr ⟨Nat.zero_le _, hx⟩, hlivea, hpa⟩
      · intro x hx a ha hdot
        obtain ⟨ha', hlivea⟩ := (entryAt_loaded ioBuf hne hx).mp ha
        have htrue := hscan.dots.mpr (.inr ⟨x, Nat.zero_le _, hx, by rwa [ha'], by rwa [ha']⟩)
        rw [hfirst] at htrue
        cases htrue
    · intro hlone
      constructor
      · rw [Finset.card_eq_one]
        refine ⟨p.2, Finset.eq_singleton_iff_unique_mem.mpr ⟨hmem, ?_⟩⟩
        intro x hx
        obtain ⟨hx, hc⟩ := Finset.mem_filter.mp hx
        have hx := (Finset.mem_Ico.mp hx).2
        exact hlone.only x hx _ ((entryAt_loaded ioBuf hne hx).mpr ⟨rfl, hc.1⟩) hc.2
      · rw [← Bool.not_eq_true, hscan.dots]
        rintro (hfalse | ⟨x, -, hx, hlivex, hdot⟩)
        · cases hfalse
        · exact hlone.noDot x hx _ ((entryAt_loaded ioBuf hne hx).mpr ⟨rfl, hlivex⟩) hdot

theorem deleteBlocks_skip (left : Nat) (ioBuf : Bytes) (hr : Readable s.disk s.inode)
    (hone : KeyOnce dirGrid (slot s.disk s.inode) (·.iNo) DirEntry.Proper) (hk : k < 140)
    (habsent : ∀ j < 21, ∀ e, slot s.disk s.inode (k, j) = some e → e.Proper → e.iNo.toNat ≠ n) :
    ∃ ioBuf', deleteBlocks s (blockAt s.disk s.inode) n 21 (left + 1) k ioBuf =
      deleteBlocks s (blockAt s.disk s.inode) n 21 left (k + 1) ioBuf' := by
  rw [deleteBlocks]
  by_cases hz : blockAt s.disk s.inode k = 0
  · exact ⟨ioBuf, if_pos hz⟩
  · obtain ⟨scan, hrun, hscan⟩ := scanSector_block hone hk hz n ioBuf
    refine ⟨loaded s.disk s.inode k ioBuf, ?_⟩
    rw [if_neg hz]
    simp only [ideRead_one (hr.blocks k hk), ok_bind]
    rw [← loaded, hrun]
    simp only [ok_bind, scanSector_absent hz habsent hscan]

/-- No entry has the number. -/
theorem deleteBlocks_absent (hr : Readable s.disk s.inode)
    (hone : KeyOnce dirGrid (slot s.disk s.inode) (·.iNo) DirEntry.Proper)
    (habsent : ∀ q ∈ dirGrid, ∀ e, slot s.disk s.inode q = some e → e.Proper → e.iNo.toNat ≠ n)
    (left k : Nat) (ioBuf : Bytes) (hsum : k + left = 140) :
    deleteBlocks s (blockAt s.disk s.inode) n 21 left k ioBuf = .ok (false, s) := by
  induction left generalizing k ioBuf with
  | zero => rfl
  | succ left ih =>
    have hk : k < 140 := by omega
    obtain ⟨ioBuf', hskip⟩ := deleteBlocks_skip left ioBuf hr hone hk
      fun j hj => habsent (k, j) (pair_mem_dirGrid hk hj)
    rw [hskip]
    exact ih (k + 1) ioBuf' (by omega)

/-- The walk stops at the block of the entry. -/
theorem deleteBlocks_found (hr : Readable s.disk s.inode)
    (hone : KeyOnce dirGrid (slot s.disk s.inode) (·.iNo) DirEntry.Proper) (hp : p ∈ dirGrid)
    (hslot : slot s.disk s.inode p = some e) (hproper : e.Proper) (left k : Nat) (ioBuf : Bytes)
    (hsum : k + left = 140) (hle : k ≤ p.1) : ∃ scan ioBuf',
      deleteBlocks s (blockAt s.disk s.inode) e.iNo.toNat 21 left k ioBuf =
        (do return (true, ← removeEntry s (blockAt s.disk s.inode) p.1 p.2 scan
          (loaded s.disk s.inode p.1 ioBuf'))) ∧
      1 ≤ scan.dirEntryCnt ∧
      (scan.dirEntryCnt = 1 ∧ scan.isDirFirstBlock = false ↔ Lone s.disk s.inode p) := by
  obtain ⟨hpk, hpj⟩ := mem_dirGrid.mp hp
  induction left generalizing k ioBuf with
  | zero => omega
  | succ left ih =>
    by_cases hkp : k = p.1
    · subst hkp
      obtain ⟨hz, -, -⟩ := slot_some.mp hslot
      obtain ⟨scan, hrun, hscan⟩ := scanSector_block hone hpk hz e.iNo.toNat ioBuf
      obtain ⟨hfound, hcnt, hlone⟩ := scanSector_found hp hslot hproper hscan
      refine ⟨scan, ioBuf, ?_, hcnt, hlone⟩
      rw [deleteBlocks, if_neg hz]
      simp only [ideRead_one (hr.blocks p.1 hpk), ok_bind]
      rw [← loaded, hrun]
      simp only [ok_bind, hfound]
    · have hk : k < 140 := by omega
      have habsent : ∀ j < 21, ∀ a, slot s.disk s.inode (k, j) = some a → a.Proper →
          a.iNo.toNat ≠ e.iNo.toNat := by
        intro j hj a ha hpa hn
        have hsame := hone (k, j) (pair_mem_dirGrid hk hj) p hp a e ha hslot hpa hproper
          (UInt32.toNat_inj.mp hn)
        exact hkp (congrArg Prod.fst hsame)
      obtain ⟨ioBuf', hskip⟩ := deleteBlocks_skip left ioBuf hr hone hk habsent
      rw [hskip]
      exact ih (k + 1) ioBuf' (by omega) (by omega)

end

/-! ## What a deletion leaves -/

/-- The directory with an entry less. -/
def Inode.shrink (nd : Inode) : Inode := { nd with iSize := nd.iSize - 24 }

/-- The disk with the record of the inode stored. -/
def storeRecord (disk : Bytes) (part : Partition) (nd : Inode) : Bytes :=
  blit disk (inodeAddr part (nd.iNo.toNat % 2 ^ 8)) nd.pure.toBytes 0 SIZEOF_INODE

/-- The slot is cleared in its sector. -/
def NodeState.clearSlot (s : NodeState) (p : Nat × Nat) : NodeState where
  disk := storeRecord (fill s.disk ((blockAt s.disk s.inode p.1).toNat * 512 + 24 * p.2) 24 0)
    s.part s.inode.shrink
  part := s.part
  inode := s.inode.shrink

/-- A direct block is given up. -/
def NodeState.dropBlock (s : NodeState) (k : Nat) : NodeState :=
  let idx := blockIdx s.part (blockAt s.disk s.inode k)
  let part := s.part.setBlock idx false
  let inode := (s.inode.setSector k 0).shrink
  ⟨storeRecord (syncBlockMap s.disk part idx) part inode, part, inode⟩

section
variable {s : NodeState} {p : Nat × Nat} {e : DirEntry} {scan : SectorScan} {ioBuf : Bytes}

theorem freeBlock_eq {disk : Bytes} {part : Partition} {lba : UInt32} (hl : DiskLayout part)
    (hd : DataBlock part lba) : freeBlock disk part lba =
      .ok (syncBlockMap disk (part.setBlock (blockIdx part lba) false) (blockIdx part lba),
        part.setBlock (blockIdx part lba) false) := by
  have haddr := hd.addr
  have hmax := hd.onDisk
  have hl' : DiskLayout (part.setBlock (blockIdx part lba) false) :=
    hl.setBlock fun _ => by omega
  simp only [freeBlock, hd.idx_eq]
  have hsync : bitmapSync disk (part.setBlock (blockIdx part lba) false) (blockIdx part lba)
      .BLOCK_BITMAP = _ := bitmapSync_block hl' hd.inMap
  exact congrArg (· >>= fun d => .ok (d, part.setBlock (blockIdx part lba) false)) hsync

theorem removeEntry_clear (hl : DiskLayout s.part)
    (hlba : (blockAt s.disk s.inode p.1).toNat ≤ max_lba) (hj : p.2 < 21)
    (hsize : (24 : UInt32) ≤ s.inode.iSize) (hcnt : 1 ≤ scan.dirEntryCnt)
    (hmore : ¬ (scan.dirEntryCnt = 1 ∧ scan.isDirFirstBlock = false)) :
    removeEntry s (blockAt s.disk s.inode) p.1 p.2 scan (loaded s.disk s.inode p.1 ioBuf) =
      .ok (s.clearSlot p) := by
  have h24 : (24 : UInt32).toNat = 24 := rfl
  have hin : SIZEOF_DIR_ENTRY * p.2 + 24 ≤ 512 := by
    unfold SIZEOF_DIR_ENTRY
    omega
  simp only [removeEntry, ASSERT_true hcnt, ok_bind, if_neg hmore, hl.entrySize, h24,
    ideWrite_one hlba, loaded, fill, blit_through _ _ _ _ _ hin, pure_bind, ASSERT_true hsize,
    inodeSync_eq hl.fits]
  rfl

theorem removeEntry_drop (hl : DiskLayout s.part) (hk : p.1 < 12)
    (hd : DataBlock s.part (blockAt s.disk s.inode p.1))
    (hsize : (24 : UInt32) ≤ s.inode.iSize) (hcnt : 1 ≤ scan.dirEntryCnt)
    (hlast : scan.dirEntryCnt = 1 ∧ scan.isDirFirstBlock = false) :
    removeEntry s (blockAt s.disk s.inode) p.1 p.2 scan ioBuf = .ok (s.dropBlock p.1) := by
  have haddr := hd.addr
  have hmax := hd.onDisk
  have hl' : DiskLayout (s.part.setBlock (blockIdx s.part (blockAt s.disk s.inode p.1)) false) :=
    hl.setBlock fun _ => by omega
  have hsize' : (24 : UInt32) ≤ (s.inode.setSector p.1 0).iSize := hsize
  simp only [removeEntry, ASSERT_true hcnt, ok_bind, if_pos hlast, freeBlock_eq hl hd, if_pos hk,
    pure_bind, hl.entrySize, ASSERT_true hsize', inodeSync_eq hl'.fits]
  rfl

theorem removeEntry_stuck (hl : DiskLayout s.part) (hk : ¬ p.1 < 12)
    (hd : DataBlock s.part (blockAt s.disk s.inode p.1)) (hcnt : 1 ≤ scan.dirEntryCnt)
    (hlast : scan.dirEntryCnt = 1 ∧ scan.isDirFirstBlock = false) :
    removeEntry s (blockAt s.disk s.inode) p.1 p.2 scan ioBuf = .error .stuck := by
  simp only [removeEntry, ASSERT_true hcnt, ok_bind, if_pos hlast, freeBlock_eq hl hd, if_neg hk]
  rfl

/-- What the deletion of an entry does. -/
inductive Deletion (s : NodeState) (p : Nat × Nat) : Except Fault (Bool × NodeState) → Prop
  | clear (hmore : ¬ Lone s.disk s.inode p) : Deletion s p (.ok (true, s.clearSlot p))
  | drop (hlone : Lone s.disk s.inode p) (hk : p.1 < 12) :
    Deletion s p (.ok (true, s.dropBlock p.1))
  | stuck (hlone : Lone s.disk s.inode p) (hk : 12 ≤ p.1) : Deletion s p (.error .stuck)

theorem deleteDirEntry_found (hl : DiskLayout s.part) (hown : OwnBlocks s.disk s.part s.inode)
    (hone : KeyOnce dirGrid (slot s.disk s.inode) (·.iNo) DirEntry.Proper) (hp : p ∈ dirGrid)
    (hslot : slot s.disk s.inode p = some e) (hproper : e.Proper)
    (hsize : (24 : UInt32) ≤ s.inode.iSize) (ioBuf : Bytes) :
    Deletion s p (deleteDirEntry s e.iNo.toNat ioBuf) := by
  have hr := hown.readable
  obtain ⟨hpk, hpj⟩ := mem_dirGrid.mp hp
  obtain ⟨hne, -, -⟩ := slot_some.mp hslot
  have hd := (hown.inUse p.1 hpk hne).toDataBlock
  obtain ⟨scan, ioBuf', hrun, hcnt, hlone⟩ :=
    deleteBlocks_found hr hone hp hslot hproper 140 0 ioBuf rfl (Nat.zero_le _)
  simp only [deleteDirEntry, allBlocks_eq fun _ => hr.table, dirEntrysPerSec_eq hl, ok_bind, hrun]
  by_cases hlast : scan.dirEntryCnt = 1 ∧ scan.isDirFirstBlock = false
  · by_cases hk : p.1 < 12
    · rw [removeEntry_drop hl hk hd hsize hcnt hlast]
      exact .drop (hlone.mp hlast) hk
    · rw [removeEntry_stuck hl hk hd hcnt hlast]
      exact .stuck (hlone.mp hlast) (by omega)
  · rw [removeEntry_clear hl hd.onDisk hpj hsize hcnt hlast]
    exact .clear fun h => hlast (hlone.mpr h)

theorem deleteDirEntry_absent (hl : DiskLayout s.part) (hr : Readable s.disk s.inode) {n : Nat}
    (hone : KeyOnce dirGrid (slot s.disk s.inode) (·.iNo) DirEntry.Proper)
    (habsent : ∀ q ∈ dirGrid, ∀ e, slot s.disk s.inode q = some e → e.Proper →
      e.iNo.toNat ≠ n) : deleteDirEntry s n ioBuf = .ok (false, s) := by
  simp only [deleteDirEntry, allBlocks_eq fun _ => hr.table, dirEntrysPerSec_eq hl, ok_bind]
  exact deleteBlocks_absent hr hone habsent 140 0 ioBuf rfl

end

/-! ## What is left -/

theorem DataBlock.idx_inj {part : Partition} {a b : UInt32} (ha : DataBlock part a)
    (hb : DataBlock part b) (h : blockIdx part a = blockIdx part b) : a = b := by
  apply UInt32.toNat_inj.mp
  rw [ha.addr, hb.addr, h]

/-- Giving up a block leaves the others in use. -/
theorem InUse.setFree {part : Partition} {a b : UInt32} (ha : InUse part a)
    (hb : DataBlock part b) (hne : a ≠ b) :
    InUse (part.setBlock (blockIdx part b) false) a := by
  refine ⟨ha.setBlock _ _, ?_⟩
  have hidx : blockIdx part a ≠ blockIdx part b := fun h => hne (ha.idx_inj hb h)
  rw [setBlock_blockIdx, setBlock_bit, if_neg hidx]
  exact ha.marked

section
variable {s : NodeState} {p : Nat × Nat} {e : DirEntry}

/-- The other sectors of the data area stay. -/
theorem clearSlot_same (hl : DiskLayout s.part) (hj : p.2 < 21) {a : UInt32}
    (ha : DataBlock s.part a) (hne : a ≠ blockAt s.disk s.inode p.1) :
    Same (s.clearSlot p).disk s.disk (a.toNat * 512) 512 :=
  (record_outside hl _ _ ha.start).trans (slot_same hj hne)

theorem clearSlot_blocks (hl : DiskLayout s.part) (hown : OwnBlocks s.disk s.part s.inode)
    (hp : p ∈ dirGrid) (hne : blockAt s.disk s.inode p.1 ≠ 0) :
    blockAt (s.clearSlot p).disk (s.clearSlot p).inode = blockAt s.disk s.inode := by
  obtain ⟨hk, hj⟩ := mem_dirGrid.mp hp
  apply blockAt_congr (fun _ _ => rfl)
  intro htable
  exact clearSlot_same hl hj (hown.table htable).toDataBlock (hown.tableApart p.1 hk hne).symm

/-- The sector of the slot. -/
theorem clearSlot_sector (hl : DiskLayout s.part)
    (hd : DataBlock s.part (blockAt s.disk s.inode p.1)) :
    Same (s.clearSlot p).disk
      (fill s.disk ((blockAt s.disk s.inode p.1).toNat * 512 + 24 * p.2) 24 0)
      ((blockAt s.disk s.inode p.1).toNat * 512) 512 := record_outside hl _ _ hd.start

/-- The bytes of the slot are zero. -/
theorem clearSlot_zero (hl : DiskLayout s.part) (hd : DataBlock s.part (blockAt s.disk s.inode p.1))
    (hj : p.2 < 21) : ∀ i < 24, shift (s.clearSlot p).disk
      ((blockAt s.disk s.inode p.1).toNat * 512) (24 * p.2 + i) = 0 := by
  intro i hi
  rw [shift_apply]
  exact (clearSlot_sector hl hd _ (by omega) (by omega)).trans (fill_in (by omega) (by omega))

/-- The other slots of its sector stay. -/
theorem clearSlot_entry (hl : DiskLayout s.part)
    (hd : DataBlock s.part (blockAt s.disk s.inode p.1)) {x : Nat} (hx : x < 21) (hne : x ≠ p.2) :
    entryAt (shift (s.clearSlot p).disk ((blockAt s.disk s.inode p.1).toNat * 512)) x =
      entryAt (shift s.disk ((blockAt s.disk s.inode p.1).toNat * 512)) x := by
  apply DirEntry.ofBytes_congr
  intro i hi
  unfold SIZEOF_DIR_ENTRY at hi ⊢
  simp only [shift_apply]
  exact (clearSlot_sector hl hd _ (by omega) (by omega)).trans (fill_out (by omega))

theorem clearSlot_cleared (hl : DiskLayout s.part) (hown : OwnBlocks s.disk s.part s.inode)
    (hp : p ∈ dirGrid) (hslot : slot s.disk s.inode p = some e) :
    Cleared dirGrid (slot s.disk s.inode) (slot (s.clearSlot p).disk (s.clearSlot p).inode) p
      e := by
  obtain ⟨hk, hj⟩ := mem_dirGrid.mp hp
  obtain ⟨hne, -, -⟩ := slot_some.mp hslot
  have hd := (hown.inUse p.1 hk hne).toDataBlock
  have hblocks := clearSlot_blocks hl hown hp hne
  refine ⟨hp, hslot, ?_, ?_⟩
  · have hne' : blockAt (s.clearSlot p).disk (s.clearSlot p).inode p.1 ≠ 0 := by rwa [hblocks]
    rw [slot_block hne', sectorSlot_none, hblocks]
    exact (entryAt_zero (clearSlot_zero hl hd hj)).1
  · rintro ⟨i, x⟩ hq hqp
    obtain ⟨hi, hx⟩ : i < 140 ∧ x < 21 := mem_dirGrid.mp hq
    by_cases hik : i = p.1
    · subst hik
      have hxj : x ≠ p.2 := fun he => hqp (by rw [he])
      apply slot_congr (by rw [hblocks])
      intro _
      exact clearSlot_entry hl hd hx hxj
    · apply slot_sector hx (by rw [hblocks])
      intro hused
      exact clearSlot_same hl hj (hown.inUse i hi hused).toDataBlock
        fun he => hik (hown.apart i hi p.1 hk hused he)

theorem clearSlot_own (hl : DiskLayout s.part) (hown : OwnBlocks s.disk s.part s.inode)
    (hp : p ∈ dirGrid) (hne : blockAt s.disk s.inode p.1 ≠ 0) :
    OwnBlocks (s.clearSlot p).disk (s.clearSlot p).part (s.clearSlot p).inode := by
  have hblocks := clearSlot_blocks hl hown hp hne
  constructor
  · rw [hblocks]
    exact hown.inUse
  · exact hown.table
  · rw [hblocks]
    exact hown.apart
  · rw [hblocks]
    exact hown.tableApart

/-- The sectors of the data area stay when a block is given up. -/
theorem dropBlock_same (hl : DiskLayout s.part) {k : Nat}
    (hd : DataBlock s.part (blockAt s.disk s.inode k)) {a : UInt32} (ha : DataBlock s.part a) :
    Same (s.dropBlock k).disk s.disk (a.toNat * 512) 512 := by
  have haddr := hd.addr
  have hmax := hd.onDisk
  have hl' : DiskLayout (s.part.setBlock (blockIdx s.part (blockAt s.disk s.inode k)) false) :=
    hl.setBlock fun _ => by omega
  have ha' := ha.setBlock (blockIdx s.part (blockAt s.disk s.inode k)) false
  have hmap : Same (syncBlockMap s.disk _ _) s.disk (a.toNat * 512) 512 :=
    (syncBlockMap_outside hl' hd.inMap).same hl' ha'
  exact (record_outside hl' (s.dropBlock k).inode _ ha'.start).trans hmap

theorem dropBlock_blocks (hl : DiskLayout s.part) (hown : OwnBlocks s.disk s.part s.inode) {k : Nat}
    (hk : k < 12) (hne : blockAt s.disk s.inode k ≠ 0) (i : Nat) :
    blockAt (s.dropBlock k).disk (s.dropBlock k).inode i =
      if i = k then 0 else blockAt s.disk s.inode i :=
  blockAt_setSector hk (fun htable => dropBlock_same hl
    (hown.inUse k (by omega) hne).toDataBlock (hown.table htable).toDataBlock) i

theorem dropBlock_cleared (hl : DiskLayout s.part) (hown : OwnBlocks s.disk s.part s.inode)
    (hp : p ∈ dirGrid) (hk : p.1 < 12) (hslot : slot s.disk s.inode p = some e)
    (hlone : Lone s.disk s.inode p)
    (hparent : ∀ j < 21, ∀ a, slot s.disk s.inode (p.1, j) = some a → a.name ≠ dotDot) :
    Cleared dirGrid (slot s.disk s.inode) (slot (s.dropBlock p.1).disk (s.dropBlock p.1).inode) p
      e := by
  obtain ⟨hne, -, -⟩ := slot_some.mp hslot
  have hblocks := dropBlock_blocks hl hown hk hne
  have hgone : ∀ x, slot (s.dropBlock p.1).disk (s.dropBlock p.1).inode (p.1, x) = none :=
    fun x => if_pos ((hblocks p.1).trans (if_pos rfl))
  refine ⟨hp, hslot, hgone p.2, ?_⟩
  rintro ⟨i, x⟩ hq hqp
  obtain ⟨hi, hx⟩ : i < 140 ∧ x < 21 := mem_dirGrid.mp hq
  by_cases hik : i = p.1
  · subst hik
    rw [hgone x]
    symm
    rw [Option.eq_none_iff_forall_ne_some]
    intro a ha
    have hproper : a.Proper := ⟨hlone.noDot x hx a ha, hparent x hx a ha⟩
    exact hqp (by rw [hlone.only x hx a ha hproper])
  · apply slot_sector hx ((hblocks i).trans (if_neg hik))
    intro hused
    exact dropBlock_same hl (hown.inUse p.1 (by omega) hne).toDataBlock
      (hown.inUse i hi hused).toDataBlock

theorem dropBlock_own (hl : DiskLayout s.part) (hown : OwnBlocks s.disk s.part s.inode) {k : Nat}
    (hk : k < 12) (hne : blockAt s.disk s.inode k ≠ 0) :
    OwnBlocks (s.dropBlock k).disk (s.dropBlock k).part (s.dropBlock k).inode := by
  have hblocks := dropBlock_blocks hl hown hk hne
  have hd := (hown.inUse k (by omega) hne).toDataBlock
  have h12 : (s.dropBlock k).inode.iSectors 12 = s.inode.iSectors 12 := setSector_other (by omega)
  have hcases : ∀ i, blockAt (s.dropBlock k).disk (s.dropBlock k).inode i ≠ 0 →
      i ≠ k ∧ blockAt (s.dropBlock k).disk (s.dropBlock k).inode i = blockAt s.disk s.inode i := by
    intro i hi
    rw [hblocks] at hi ⊢
    by_cases hik : i = k
    · rw [if_pos hik] at hi
      exact absurd rfl hi
    · exact ⟨hik, if_neg hik⟩
  constructor
  · intro i hi hz
    obtain ⟨hik, hb⟩ := hcases i hz
    rw [hb] at hz ⊢
    exact (hown.inUse i hi hz).setFree hd fun he => hik (hown.apart i hi k (by omega) hz he)
  · intro hz
    rw [h12] at hz ⊢
    exact (hown.table hz).setFree hd (hown.tableApart k (by omega) hne).symm
  · intro i hi x hx hz he
    obtain ⟨-, hb⟩ := hcases i hz
    obtain ⟨-, hb'⟩ := hcases x (he ▸ hz)
    rw [hb] at hz he
    rw [hb'] at he
    exact hown.apart i hi x hx hz he
  · intro i hi hz
    obtain ⟨-, hb⟩ := hcases i hz
    rw [hb] at hz ⊢
    rw [h12]
    exact hown.tableApart i hi hz

end

end ZhuOS
