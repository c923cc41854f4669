import ZhuOS.InodeTable

/-!
# What `inode_delete` changes

The record of one inode on disk, byte for byte, wherever `inode_locate` puts it:
in one sector or across two, next to the records it shares them with.
-/

namespace ZhuOS

open ByteMem

variable {disk disk' ioBuf : Bytes} {part : Partition} {n m : Nat}

/-- The first byte of the record at a position. -/
def InodePosition.addr (pos : InodePosition) : Nat := pos.secLba * 512 + pos.offSize

/-- The inode `inode_open` returns for a number. -/
def openedInode (fs : Fs) (inodeNo : Nat) : Except Fault Inode := do
  let (ref, fs) ← inodeOpen fs inodeNo
  fs.inodeAt ref

/-- The record of `n` is cleared and nothing else; every inode that is not open reads
as before, and `n` as zeros. -/
structure DeletedOnly (disk disk' : Bytes) (part : Partition) (n : Nat) : Prop where
  bytes : ∃ pos, inodeLocate part n = .ok pos ∧ disk' = fill disk pos.addr SIZEOF_INODE 0
  reads : ∀ (fs : Fs) (m : Nat), m < 4096 →
    fs.part = { part with openInodes := fs.part.openInodes } →
    fs.part.openInodes.find? (·.inode.iNo.toNat = m) = none →
    openedInode { fs with disk := disk' } m = (openedInode { fs with disk := disk } m).map fun nd =>
      if m = n then { inodeInit 0 with iOpenCnts := 1 } else nd

theorem inodeLocate_eq (hn : n < 4096) : inodeLocate part n = .ok
    { twoSec := decide (512 - n * SIZEOF_INODE % 512 < SIZEOF_INODE)
      secLba := u32 (part.sb.inodeTableLba.toNat + n * SIZEOF_INODE / 512)
      offSize := n * SIZEOF_INODE % 512 } := by
  simp only [inodeLocate, ASSERT_true hn, ok_bind]
  rfl

/-- The sectors of a position hold its record. -/
theorem inodeLocate_fits {pos : InodePosition} (hn : n < 4096) (h : inodeLocate part n = .ok pos) :
    (pos.secs = 1 ∨ pos.secs = 2) ∧ pos.offSize + SIZEOF_INODE ≤ pos.secs * 512 := by
  rw [inodeLocate_eq hn] at h
  cases h
  simp only [InodePosition.secs, decide_eq_true_eq]
  unfold SIZEOF_INODE
  split <;> omega

/-- Records on the disk lie apart, wherever the table starts. -/
theorem positions_apart {p q : InodePosition} (hn : n < 4096) (hm : m < 4096) (hne : n ≠ m)
    (hp : inodeLocate part n = .ok p) (hq : inodeLocate part m = .ok q)
    (hpl : p.secLba ≤ max_lba) (hql : q.secLba ≤ max_lba) :
    p.addr + SIZEOF_INODE ≤ q.addr ∨ q.addr + SIZEOF_INODE ≤ p.addr := by
  rw [inodeLocate_eq hn] at hp
  rw [inodeLocate_eq hm] at hq
  cases hp
  cases hq
  have hbase := part.sb.inodeTableLba.toNat_lt
  simp only [InodePosition.addr, u32, SIZEOF_INODE, max_lba] at *
  -- the two sums wrap together or not at all
  have hwrap : (part.sb.inodeTableLba.toNat + n * 76 / 512) / 2 ^ 32 =
      (part.sb.inodeTableLba.toNat + m * 76 / 512) / 2 ^ 32 := by
    have hdn : n * 76 / 512 < 608 := by omega
    have hdm : m * 76 / 512 < 608 := by omega
    omega
  omega

/-- An `inode_delete` that returns has cleared the record. -/
theorem inodeDelete_ok (hn : n < 4096) (h : inodeDelete disk part n ioBuf = .ok disk') :
    ∃ pos, inodeLocate part n = .ok pos ∧ pos.secLba ≤ max_lba ∧
      disk' = fill disk pos.addr SIZEOF_INODE 0 := by
  simp only [inodeDelete, bind_ok] at h
  obtain ⟨_, -, pos, hpos, _, -, buf, hread, hwrite⟩ := h
  obtain ⟨hsecs, hfit⟩ := inodeLocate_fits hn hpos
  obtain ⟨hlba, -, rfl⟩ := ideRead_ok hread
  rw [ideWrite_few (by omega) (by omega) hlba] at hwrite
  cases hwrite
  exact ⟨pos, hpos, hlba, blit_through _ _ _ _ _ hfit⟩

/-- An open that misses the list: two requests for memory, and the sectors between. -/
theorem openedInode_miss (fs : Fs) {pos : InodePosition} (hm : m < 4096)
    (hpos : inodeLocate fs.part m = .ok pos)
    (hmiss : fs.part.openInodes.find? (·.inode.iNo.toNat = m) = none) (d : Bytes) :
    openedInode { fs with disk := d } m = (do
      orNull (fs.heap 1)
      ASSERT (pos.secLba ≤ max_lba)
      orNull (fs.heap 0)
      return { Inode.ofBytes (shift d pos.addr) with iOpenCnts := 1 }) := by
  obtain ⟨hsecs, hfit⟩ := inodeLocate_fits hm hpos
  have hsize : decide (0 < pos.secs * 512) = true := decide_eq_true (by omega)
  simp only [openedInode, inodeOpen, hmiss, hpos, ok_bind, Fs.askMalloc, askMalloc, hsize,
    Bool.and_true, show decide (0 < SIZEOF_INODE) = true from rfl]
  by_cases hlba : pos.secLba ≤ max_lba
  · have hrec : Inode.ofBytes (shift (blit (fun _ => 0) 0 d (pos.secLba * 512) (pos.secs * 512))
        pos.offSize) = Inode.ofBytes (shift d pos.addr) := by
      refine Inode.ofBytes_congr fun i hi => ?_
      rw [shift_apply, shift_apply, blit_in (Nat.zero_le _) (by omega), InodePosition.addr]
      exact congrArg d (by omega)
    rw [ideRead_few (by omega) (by omega) hlba, ASSERT_true hlba]
    cases fs.heap 1 with
    | false => rfl
    | true =>
      cases fs.heap 0 with
      | false => rfl
      | true =>
        simp only [orNull_true, ok_bind, hrec]
        exact inodeAt_head ..
  · have hfail : ideRead d pos.secLba (fun _ => 0) pos.secs = .error .panic := by
      simp only [ideRead, ASSERT_false hlba, error_bind]
    rw [ASSERT_false hlba, hfail]
    cases fs.heap 1 with
    | false => rfl
    | true => rfl

/-- A cleared record is an inode of zeros. -/
theorem ofBytes_cleared (d : Bytes) (a : Nat) :
    Inode.ofBytes (shift (fill d a SIZEOF_INODE 0) a) = inodeInit 0 := by
  have hzero : Inode.ofBytes (shift (fill d a SIZEOF_INODE 0) a) = Inode.ofBytes fun _ => 0 :=
    Inode.ofBytes_congr fun i hi => by rw [shift_apply, fill_in (by omega) (by omega)]
  have hword : ∀ off, getWord (fun _ => 0) off = 0 := fun off => rfl
  rw [hzero]
  simp [Inode.ofBytes, inodeInit, hword]

/-- Whatever the disk holds, an `inode_delete` that returns clears its record alone, and
it returns when the inode table lies on the disk. -/
theorem inodeDelete_only (hn : n < 4096) :
    (TableFits part → ∃ disk', inodeDelete disk part n ioBuf = .ok disk') ∧
      ∀ disk', inodeDelete disk part n ioBuf = .ok disk' → DeletedOnly disk disk' part n := by
  refine ⟨fun ht => ⟨_, inodeDelete_eq ht hn ioBuf⟩, fun disk' h => ?_⟩
  obtain ⟨pos, hpos, hlba, rfl⟩ := inodeDelete_ok hn h
  refine ⟨⟨pos, hpos, rfl⟩, fun fs m hm hpart hmiss => ?_⟩
  have hq : ∃ q, inodeLocate fs.part m = .ok q := ⟨_, inodeLocate_eq hm⟩
  obtain ⟨q, hq⟩ := hq
  have hq' : inodeLocate part m = .ok q := by
    rw [hpart] at hq
    exact hq
  rw [openedInode_miss fs hm hq hmiss, openedInode_miss fs hm hq hmiss]
  cases fs.heap 1 with
  | false => rfl
  | true =>
    cases fs.heap 0 with
    | false =>
      by_cases hql : q.secLba ≤ max_lba
      · rw [ASSERT_true hql]
        rfl
      · rw [ASSERT_false hql]
        rfl
    | true =>
      by_cases hql : q.secLba ≤ max_lba
      · simp only [orNull_true, ASSERT_true hql, ok_bind]
        refine congrArg Except.ok ?_
        by_cases he : m = n
        · subst he
          cases hpos.symm.trans hq'
          rw [ofBytes_cleared]
          exact (if_pos rfl).symm
        · have happart := positions_apart hm hn he hq' hpos hql hlba
          have hrec : Inode.ofBytes (shift (fill disk pos.addr SIZEOF_INODE 0) q.addr) =
              Inode.ofBytes (shift disk q.addr) :=
            Inode.ofBytes_congr fun i hi => by rw [shift_apply, shift_apply, fill_out (by omega)]
          rw [hrec]
          exact (if_neg he).symm
      · rw [ASSERT_false hql]
        rfl

/-- Inode 6 lies across the first two sectors of the table. -/
theorem inodeDelete_only_six : ∃ disk',
    inodeDelete (fun _ => 0xff) tablePartition 6 (fun _ => 0) = .ok disk' ∧
      DeletedOnly (fun _ => 0xff) disk' tablePartition 6 := by
  obtain ⟨hret, honly⟩ :=
    @inodeDelete_only (fun _ => 0xff) (fun _ => 0) tablePartition 6 (by decide)
  obtain ⟨disk', h⟩ := hret tablePartition_fits
  exact ⟨disk', h, honly disk' h⟩

end ZhuOS
