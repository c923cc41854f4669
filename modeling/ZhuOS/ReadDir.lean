import ZhuOS.Search

/-!
# `dir_read`

The loop passes the entries before the position and, at the one it is to return, moves the
position and goes on. It leaves at the end of the directory with `NULL`, or at the end of its
array of addresses, which it does not test for.
-/

namespace ZhuOS

open ByteMem

/-- `struct dir` with its inode, and with the address the inode lies at. -/
structure DirStream where
  addr : UInt32
  inode : Inode
  dirPos : UInt32
  addr_ne : addr ≠ 0

namespace DirStream

def seek (d : DirStream) (dirPos : UInt32) : DirStream := { d with dirPos }

/-- The condition of the loop, which compares the position with the address, and the test
in it. -/
def AtEnd (d : DirStream) : Prop := d.addr ≤ d.dirPos ∨ d.inode.iSize ≤ d.dirPos

instance (d : DirStream) : Decidable d.AtEnd := inferInstanceAs (Decidable (_ ∨ _))

end DirStream

def sysRewinddir (d : DirStream) : DirStream := d.seek 0

/-- The entries of a sector: how far the entries are counted, and the position. -/
def scanEntries (buf : Bytes) (dirEntrySize : UInt32) :
    (left dirEntryIdx : Nat) → (curDirEntryPos dirPos : UInt32) → Except Fault (UInt32 × UInt32)
  | 0, _, cur, pos => return (cur, pos)
  | left + 1, j, cur, pos =>
    if (entryAt buf j).fType ≠ FT_UNKNOWN then
      if cur < pos then scanEntries buf dirEntrySize left (j + 1) (cur + dirEntrySize) pos
      else do
        ASSERT (cur = pos)
        scanEntries buf dirEntrySize left (j + 1) cur (pos + .ofNat j)
    else scanEntries buf dirEntrySize left (j + 1) cur pos

/-- The loop over the blocks; `none` is `NULL`. -/
def dirReadBlocks (disk : Bytes) (blocks : Nat → UInt32) (sb : SuperBlock) (perSec : Nat) :
    (left blockIdx : Nat) → (curDirEntryPos : UInt32) → DirStream →
      Except Fault (Option DirEntry × DirStream)
  | 0, _, _, d => if d.AtEnd then return (none, d) else .error .outOfBounds
  | left + 1, k, cur, d =>
    if d.AtEnd then return (none, d)
    else if blocks k = 0 then dirReadBlocks disk blocks sb perSec left (k + 1) cur d
    else do
      let dirE ← ideRead disk (blocks k).toNat (fun _ => 0) 1
      let (cur, pos) ← scanEntries dirE sb.dirEntrySize perSec 0 cur d.dirPos
      dirReadBlocks disk blocks sb perSec left (k + 1) cur (d.seek pos)

/-- `dir_read`: the next entry, or `NULL`. -/
def dirRead (disk : Bytes) (sb : SuperBlock) (d : DirStream) :
    Except Fault (Option DirEntry × DirStream) := do
  let blocks ← allBlocks disk d.inode
  let perSec ← dirEntrysPerSec sb
  dirReadBlocks disk blocks sb perSec 140 0 0 d

def sysReaddir (disk : Bytes) (sb : SuperBlock) (d : DirStream) :
    Except Fault (Option DirEntry × DirStream) := dirRead disk sb d

/-- The entries in use. -/
def live (disk : Bytes) (nd : Inode) : List DirEntry :=
  (entries disk nd).filter (·.fType ≠ FT_UNKNOWN)

/-- What the calls return up to the first `NULL`. -/
inductive Reads (disk : Bytes) (sb : SuperBlock) : DirStream → List DirEntry → Prop
  | stop {d d' : DirStream} (h : sysReaddir disk sb d = .ok (none, d')) : Reads disk sb d []
  | next {d d' : DirStream} {e : DirEntry} {es : List DirEntry}
    (h : sysReaddir disk sb d = .ok (some e, d')) (hs : Reads disk sb d' es) :
    Reads disk sb d (e :: es)

/-- Each entry in use is returned once, and then `NULL`. -/
def ReadsAll (disk : Bytes) (sb : SuperBlock) (d : DirStream) : Prop :=
  ∃ es, Reads disk sb (sysRewinddir d) es ∧ es.Perm (live disk d.inode)

section
variable {disk : Bytes} {sb : SuperBlock} {d d' : DirStream} {e : Option DirEntry}
  {es : List DirEntry} {blocks : Nat → UInt32} {buf : Bytes} {cur pos size : UInt32}

/-- No branch of the loop returns an entry. -/
theorem dirReadBlocks_none {perSec : Nat} (left k : Nat)
    (h : dirReadBlocks disk blocks sb perSec left k cur d = .ok (e, d')) : e = none := by
  induction left generalizing k cur d with
  | zero =>
    rw [dirReadBlocks] at h
    by_cases hend : d.AtEnd
    · rw [if_pos hend] at h
      cases h
      rfl
    · rw [if_neg hend] at h
      cases h
  | succ left ih =>
    rw [dirReadBlocks] at h
    by_cases hend : d.AtEnd
    · rw [if_pos hend] at h
      cases h
      rfl
    rw [if_neg hend] at h
    by_cases hz : blocks k = 0
    · rw [if_pos hz] at h
      exact ih _ h
    · rw [if_neg hz] at h
      obtain ⟨dirE, -, h⟩ := bind_ok.mp h
      obtain ⟨⟨cur', pos'⟩, -, h⟩ := bind_ok.mp h
      exact ih _ h

theorem dirRead_none (h : dirRead disk sb d = .ok (e, d')) : e = none := by
  obtain ⟨blocks, -, h⟩ := bind_ok.mp h
  obtain ⟨perSec, -, h⟩ := bind_ok.mp h
  exact dirReadBlocks_none _ _ h

theorem Reads.empty (h : Reads disk sb d es) :
    es = [] ∧ ∃ d', dirRead disk sb d = .ok (none, d') := by
  cases h with
  | stop hr => exact ⟨rfl, _, hr⟩
  | next hr hs => cases dirRead_none hr

/-- Unused entries are passed over. -/
theorem scanEntries_unused (left j : Nat)
    (hfree : ∀ i, j ≤ i → i < j + left → (entryAt buf i).fType = FT_UNKNOWN) :
    scanEntries buf size left j cur pos = .ok (cur, pos) := by
  induction left generalizing j with
  | zero => rfl
  | succ left ih =>
    have hj : ¬ (entryAt buf j).fType ≠ FT_UNKNOWN := by
      rw [not_not]
      exact hfree j (Nat.le_refl j) (by omega)
    rw [scanEntries, if_neg hj]
    apply ih
    intro i hlo hhi
    exact hfree i (by omega) (by omega)

/-- Where nothing is in use the position stays, and the loop leaves the array. -/
theorem dirReadBlocks_runs_out (hr : Readable disk d.inode) (hlive : live disk d.inode = [])
    (hmore : ¬ d.AtEnd) (left k : Nat) (hsum : k + left = 140) :
    dirReadBlocks disk (blockAt disk d.inode) sb 21 left k cur d = .error .outOfBounds := by
  induction left generalizing k with
  | zero => rw [dirReadBlocks, if_neg hmore]
  | succ left ih =>
    rw [dirReadBlocks, if_neg hmore]
    by_cases hz : blockAt disk d.inode k = 0
    · rw [if_pos hz]
      exact ih _ (by omega)
    · have hfree : ∀ i, 0 ≤ i → i < 0 + 21 → (entryAt (blit (fun _ => 0) 0 disk
          ((blockAt disk d.inode k).toNat * 512) 512) i).fType = FT_UNKNOWN := by
        intro i _ hi
        rw [Nat.zero_add] at hi
        rw [entryAt_read hi]
        have hlisted := mem_entries.mpr
          ⟨k, by omega, hz, mem_sectorEntries.mpr ⟨i, hi, rfl⟩⟩
        simpa using List.filter_eq_nil_iff.mp hlive _ hlisted
      rw [if_neg hz]
      simp only [ideRead_one (hr.blocks k (by omega)), ok_bind, scanEntries_unused 21 0 hfree]
      exact ih _ (by omega)

/-- The calls return every entry of the directories that have none. -/
theorem readdir_all_iff (hsize : sb.dirEntrySize = 24) (hr : Readable disk d.inode) :
    ReadsAll disk sb d ↔ d.inode.iSize = 0 ∧ live disk d.inode = [] := by
  have hper : dirEntrysPerSec sb = .ok 21 := by
    rw [dirEntrysPerSec, hsize]
    rfl
  have hrun : dirRead disk sb (sysRewinddir d) =
      dirReadBlocks disk (blockAt disk d.inode) sb 21 140 0 0 (sysRewinddir d) := by
    have hblocks : allBlocks disk (sysRewinddir d).inode = .ok (blockAt disk d.inode) :=
      allBlocks_eq fun _ => hr.table
    simp only [dirRead, hblocks, hper, ok_bind]
  constructor
  · rintro ⟨es, hreads, hperm⟩
    obtain ⟨rfl, d', hread⟩ := hreads.empty
    have hlive := hperm.nil_eq.symm
    refine ⟨?_, hlive⟩
    by_contra hne
    have hmore : ¬ (sysRewinddir d).AtEnd := by
      rintro (haddr | hend)
      · exact d.addr_ne (UInt32.le_zero_iff.mp haddr)
      · exact hne (UInt32.le_zero_iff.mp hend)
    have hout : dirReadBlocks disk (blockAt disk d.inode) sb 21 140 0 0 (sysRewinddir d) =
        .error .outOfBounds := dirReadBlocks_runs_out (d := sysRewinddir d) hr hlive hmore 140 0 rfl
    rw [hrun, hout] at hread
    cases hread
  · rintro ⟨hz, hlive⟩
    have hend : (sysRewinddir d).AtEnd := .inr (UInt32.le_zero_iff.mpr hz)
    have hread : sysReaddir disk sb (sysRewinddir d) = .ok (none, sysRewinddir d) :=
      hrun.trans (if_pos hend)
    exact ⟨[], .stop hread, by rw [hlive]⟩

end

/-- An inode without blocks. -/
def bareStream : DirStream := ⟨0xc0110000, inodeInit 0, 0, by decide⟩

theorem readdir_all_iff_bare : Readable treeDisk bareStream.inode ∧
    ReadsAll treeDisk tablePartition.sb bareStream := by
  have hr : Readable treeDisk bareStream.inode := ⟨by decide, by decide +kernel⟩
  exact ⟨hr, (readdir_all_iff rfl hr).mpr ⟨rfl, by decide +kernel⟩⟩

/-- The root directory of `treeFs`: `.`, `..` and `f`. -/
def rootStream : DirStream := ⟨0xc0110000, diskInode treeDisk tablePartition 0, 0, by decide⟩

/-- The first call leaves the array of addresses. -/
theorem readdir_root : Readable treeDisk rootStream.inode ∧
    (live treeDisk rootStream.inode).map (·.name) = [dot, dotDot, [102]] ∧
    rootStream.inode.iSize = 72 ∧
    sysReaddir treeDisk tablePartition.sb (sysRewinddir rootStream) = .error .outOfBounds ∧
    ¬ ReadsAll treeDisk tablePartition.sb rootStream := by
  have hcheck : (match sysReaddir treeDisk tablePartition.sb (sysRewinddir rootStream) with
      | .error f => decide (f = .outOfBounds)
      | .ok _ => false) = true := by
    decide +kernel
  have hout : sysReaddir treeDisk tablePartition.sb (sysRewinddir rootStream) =
      .error .outOfBounds := by
    cases hread : sysReaddir treeDisk tablePartition.sb (sysRewinddir rootStream) with
    | error f =>
      rw [hread] at hcheck
      rw [of_decide_eq_true hcheck]
    | ok found =>
      rw [hread] at hcheck
      cases hcheck
  refine ⟨⟨by decide, treeFs_blocks⟩, by decide +kernel, by decide, hout, ?_⟩
  rintro ⟨es, hreads, -⟩
  obtain ⟨-, d', hread⟩ := hreads.empty
  have hnever := hout.symm.trans hread
  cases hnever

end ZhuOS
