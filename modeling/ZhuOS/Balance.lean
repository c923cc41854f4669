import ZhuOS.DirCalls
import Mathlib.Algebra.Group.Pi.Basic

/-!
# Opening and closing in pairs

A call is quiet when it leaves the tables alone and every inode with the users it had. What
lies between an open and its close may be anything that is quiet itself.
-/

namespace ZhuOS

open ByteMem

/-- `k` users more of every inode can be counted. -/
def FitsMore (k : Nat) (held : Nat → Nat) : Prop := ∀ ref, held ref + k < 2 ^ 32

/-- Whatever users the open inodes had, they have them still. -/
structure Quiet (k : Nat) (fs fs' : Fs) : Prop where
  fileTable : fs'.fileTable = fs.fileTable
  fdTable : fs'.fdTable = fs.fdTable
  rootDir : fs'.rootDir = fs.rootDir
  counted : ∀ held, FitsMore k held → Counted fs.part.openInodes held →
    Counted fs'.part.openInodes held

/-- A directory handle is a user of its inode; the root directory's own is not counted. -/
def dirUse (dir : Dir) : Nat → Nat := if dir.isRoot then 0 else Pi.single dir.inode 1

section
variable {fs fs' fs₁ fs₂ fs₃ : Fs} {k n ref : Nat} {held : Nat → Nat} {l : List OpenInode}
  {heap : Nat → Bool} {dir : Dir} {path : List UInt8} {no : UInt32}
  {record : PathSearchRecord} {r : Int}

/-! ## One user more and one less -/

theorem update_add_one (held : Nat → Nat) (ref : Nat) :
    Function.update held ref (held ref + 1) = held + Pi.single ref 1 := by
  funext r
  by_cases hr : r = ref
  · subst hr
    rw [Function.update_self, Pi.add_apply, Pi.single_eq_same]
  · rw [Function.update_of_ne hr, Pi.add_apply, Pi.single_eq_of_ne hr, Nat.add_zero]

theorem update_sub_one (held : Nat → Nat) (ref : Nat) : Function.update
    (held + Pi.single ref 1) ref ((held + Pi.single ref 1 : Nat → Nat) ref - 1) = held := by
  rw [← update_add_one, Function.update_self, Nat.add_sub_cancel, Function.update_idem,
    Function.update_eq_self]

theorem FitsMore.single (h : FitsMore (k + 1) held) (ref : Nat) :
    FitsMore k (held + Pi.single ref 1) := by
  intro r
  have hr := h r
  by_cases href : r = ref
  · subst href
    rw [Pi.add_apply, Pi.single_eq_same]
    omega
  · rw [Pi.add_apply, Pi.single_eq_of_ne href]
    omega

theorem FitsMore.mono {j : Nat} (h : FitsMore k held) (hj : j ≤ k) : FitsMore j held :=
  fun ref => (Nat.add_le_add_left hj _).trans_lt (h ref)

theorem Counted.opened (h : Counted fs.part.openInodes held) (ho : Opens fs n ref l)
    (hfit : FitsMore 1 held) : Counted l (held + Pi.single ref 1) := by
  rw [← update_add_one]
  exact h.opens ho (hfit ref)

theorem inodeClose_list (h : inodeClose fs ref = .ok fs') : ∃ l, fs' = fs.setOpenInodes l := by
  obtain ⟨nd, -, h⟩ := bind_ok.mp h
  by_cases hlast : nd.iOpenCnts - 1 = 0
  · simp only [hlast, if_true] at h
    cases h
    exact ⟨_, rfl⟩
  · simp only [hlast, if_false] at h
    cases h
    exact ⟨_, rfl⟩

theorem Counted.closed (h : Counted fs.part.openInodes (held + Pi.single ref 1))
    (hc : inodeClose fs ref = .ok fs') : Counted fs'.part.openInodes held := by
  obtain ⟨l, rfl, -, -, hl⟩ := h.close hc
  rw [update_sub_one] at hl
  exact hl

/-! ## Quiet steps -/

namespace Quiet

theorem of_list (hfile : fs'.fileTable = fs.fileTable) (hfd : fs'.fdTable = fs.fdTable)
    (hroot : fs'.rootDir = fs.rootDir) (hlist : fs'.part.openInodes = fs.part.openInodes) :
    Quiet k fs fs' where
  fileTable := hfile
  fdTable := hfd
  rootDir := hroot
  counted held _ h := by
    rw [hlist]
    exact h

theorem refl (fs : Fs) : Quiet k fs fs := of_list rfl rfl rfl rfl

theorem trans (h : Quiet k fs fs₁) (h' : Quiet k fs₁ fs₂) : Quiet k fs fs₂ where
  fileTable := h'.fileTable.trans h.fileTable
  fdTable := h'.fdTable.trans h.fdTable
  rootDir := h'.rootDir.trans h.rootDir
  counted held hfit hc := h'.counted held hfit (h.counted held hfit hc)

theorem mono {j : Nat} (h : Quiet j fs fs') (hj : j ≤ k) : Quiet k fs fs' where
  fileTable := h.fileTable
  fdTable := h.fdTable
  rootDir := h.rootDir
  counted held hfit hc := h.counted held (hfit.mono hj) hc

theorem askMalloc (fs : Fs) (size : Nat) : Quiet k fs (fs.askMalloc size).2 :=
  of_list rfl rfl rfl rfl

/-- A directory whose entries change. -/
theorem setNode {nd : Inode} {s : NodeState} (hat : fs.inodeAt ref = .ok nd)
    (hs : KeepsDir ⟨fs.disk, fs.part, nd⟩ s) : Quiet k fs (fs.setNode ref s) where
  fileTable := rfl
  fdTable := rfl
  rootDir := rfl
  counted held _ hc := by
    obtain ⟨o, ho, href, rfl⟩ := inodeAt_mem hat
    change Counted (ZhuOS.setInode ref s.inode s.part.openInodes) held
    rw [hs.blocks.openInodes]
    exact hc.refill ho href hs.iOpenCnts

/-- Something quiet between an open and its close. -/
theorem bracket (ho : Opens fs n ref l) (hq : Quiet k (fs.relist l heap) fs₂)
    (hc : inodeClose fs₂ ref = .ok fs₃) : Quiet (k + 1) fs fs₃ := by
  obtain ⟨l', rfl⟩ := inodeClose_list hc
  refine ⟨hq.fileTable, hq.fdTable, hq.rootDir, ?_⟩
  intro held hfit h
  have hopen : Counted (fs.relist l heap).part.openInodes (held + Pi.single ref 1) :=
    h.opened ho (hfit.mono (Nat.le_add_left 1 k))
  exact (hq.counted _ (hfit.single ref) hopen).closed hc

theorem of_inode (ho : inodeOpen fs n = .ok (ref, fs₁)) (hq : Quiet k fs₁ fs₂)
    (hc : inodeClose fs₂ ref = .ok fs₃) : Quiet (k + 1) fs fs₃ := by
  obtain ⟨l, heap, rfl, hopens⟩ := inodeOpen_opens ho
  exact hq.bracket hopens hc

theorem of_holds (hd : Holds fs dir l) (hq : Quiet k (fs.relist l heap) fs₂)
    (hc : dirClose fs₂ dir = .ok fs₃) : Quiet (k + 1) fs fs₃ := by
  cases hd with
  | root =>
    cases hc
    have hsearch : Quiet (k + 1) fs (fs.relist fs.part.openInodes heap) := of_list rfl rfl rfl rfl
    exact hsearch.trans (hq.mono (Nat.le_succ k))
  | opened ho => exact hq.bracket ho hc

theorem of_dir (ho : dirOpen fs n = .ok (dir, fs₁)) (hq : Quiet k fs₁ fs₂)
    (hc : dirClose fs₂ dir = .ok fs₃) : Quiet (k + 1) fs fs₃ := by
  have hself : fs = fs.relist fs.part.openInodes fs.heap := rfl
  rw [hself] at ho
  obtain ⟨l, heap, rfl, hd⟩ := dirOpen_holds ho
  exact of_holds hd hq hc

/-- What a call does in the directory it has found. -/
theorem of_search (hl : Live fs.part.openInodes)
    (hs : searchFile fs path = .ok (no, record, fs₁)) (hq : Quiet k fs₁ fs₂)
    (hc : dirClose fs₂ record.parentDir = .ok fs₃) : Quiet (k + 1) fs fs₃ := by
  obtain ⟨l, heap, rfl, hd⟩ := searchFile_holds hl hs
  exact of_holds hd hq hc

end Quiet

/-! ## Removing -/

theorem freeBlock_only {disk disk' : Bytes} {part part' : Partition} {lba : UInt32}
    (h : freeBlock disk part lba = .ok (disk', part')) : BlocksOnly part part' := by
  obtain ⟨_, -, h⟩ := bind_ok.mp h
  cases h
  rfl

theorem releaseBlocks_only (left : Nat) {blocks : Nat → UInt32} {disk disk' : Bytes}
    {part part' : Partition} (h : releaseBlocks blocks left k disk part = .ok (disk', part')) :
    BlocksOnly part part' := by
  induction left generalizing k disk part with
  | zero =>
    cases h
    rfl
  | succ left ih =>
    unfold releaseBlocks at h
    by_cases hz : blocks k = 0
    · rw [if_pos hz] at h
      exact ih h
    · rw [if_neg hz] at h
      obtain ⟨-, -, h⟩ := bind_ok.mp h
      obtain ⟨⟨disk₁, part₁⟩, hf, h⟩ := bind_ok.mp h
      exact (freeBlock_only hf).trans (ih h)

theorem releaseNode_only {disk disk' : Bytes} {part part' : Partition} {nd : Inode}
    (h : releaseNode disk part nd = .ok (disk', part')) : BlocksOnly part part' := by
  obtain ⟨blocks, -, h⟩ := bind_ok.mp h
  by_cases htable : nd.iSectors 12 ≠ 0
  · rw [if_pos htable] at h
    obtain ⟨-, -, h⟩ := bind_ok.mp h
    obtain ⟨⟨disk₁, part₁⟩, hf, h⟩ := bind_ok.mp h
    exact (freeBlock_only hf).trans (releaseBlocks_only _ h)
  · rw [if_neg htable] at h
    exact releaseBlocks_only _ h

theorem inodeRelease_quiet (h : inodeRelease fs n = .ok fs') : Quiet 1 fs fs' := by
  obtain ⟨⟨ref, fs₁⟩, hopen, h⟩ := bind_ok.mp h
  obtain ⟨nd, -, h⟩ := bind_ok.mp h
  obtain ⟨-, -, h⟩ := bind_ok.mp h
  obtain ⟨⟨disk, part⟩, hrel, h⟩ := bind_ok.mp h
  obtain ⟨disk', -, h⟩ := bind_ok.mp h
  obtain ⟨-, -, h⟩ := bind_ok.mp h
  obtain ⟨disk'', -, h⟩ := bind_ok.mp h
  have hlist := (releaseNode_only hrel).openInodes
  apply Quiet.of_inode (k := 0) hopen _ h
  exact .of_list rfl rfl rfl hlist

theorem removeEntry_keeps {s s' : NodeState} {blocks : Nat → UInt32} {j : Nat} {scan : SectorScan}
    {ioBuf : Bytes} (h : removeEntry s blocks k j scan ioBuf = .ok s') : KeepsDir s s' := by
  obtain ⟨-, -, h⟩ := bind_ok.mp h
  split at h
  · obtain ⟨⟨disk, part⟩, hf, h⟩ := bind_ok.mp h
    dsimp only at h
    by_cases hdirect : k < 12
    · rw [if_pos hdirect] at h
      obtain ⟨s₁, hs, h⟩ := bind_ok.mp h
      cases hs
      obtain ⟨-, -, h⟩ := bind_ok.mp h
      obtain ⟨disk', -, h⟩ := bind_ok.mp h
      cases h
      exact ⟨⟨rfl, rfl⟩, freeBlock_only hf, rfl⟩
    · rw [if_neg hdirect] at h
      cases h
  · obtain ⟨disk, -, h⟩ := bind_ok.mp h
    obtain ⟨s₁, hs, h⟩ := bind_ok.mp h
    cases hs
    obtain ⟨-, -, h⟩ := bind_ok.mp h
    obtain ⟨disk', -, h⟩ := bind_ok.mp h
    cases h
    exact ⟨⟨rfl, rfl⟩, rfl, rfl⟩

theorem deleteBlocks_keeps (left : Nat) {s s' : NodeState} {blocks : Nat → UInt32}
    {inodeNo perSec : Nat} {ioBuf : Bytes} {b : Bool}
    (h : deleteBlocks s blocks inodeNo perSec left k ioBuf = .ok (b, s')) : KeepsDir s s' := by
  induction left generalizing k ioBuf with
  | zero =>
    cases h
    exact ⟨⟨rfl, rfl⟩, rfl, rfl⟩
  | succ left ih =>
    unfold deleteBlocks at h
    by_cases hz : blocks k = 0
    · rw [if_pos hz] at h
      exact ih h
    · rw [if_neg hz] at h
      obtain ⟨buf, -, h⟩ := bind_ok.mp h
      obtain ⟨scan, -, h⟩ := bind_ok.mp h
      cases hfound : scan.dirEntryFound with
      | none =>
        simp only [hfound] at h
        exact ih h
      | some j =>
        simp only [hfound] at h
        obtain ⟨s₁, hr, h⟩ := bind_ok.mp h
        cases h
        exact removeEntry_keeps hr

theorem deleteEntry_quiet (h : deleteEntry fs dir n = .ok fs') : Quiet k fs fs' := by
  obtain ⟨nd, hat, h⟩ := bind_ok.mp h
  obtain ⟨⟨b, s⟩, hs, h⟩ := bind_ok.mp h
  cases h
  obtain ⟨blocks, -, hs⟩ := bind_ok.mp hs
  obtain ⟨perSec, -, hs⟩ := bind_ok.mp hs
  exact Quiet.setNode hat (deleteBlocks_keeps _ hs)

theorem dirRemove_quiet {child : Dir} (h : dirRemove fs dir child = .ok (r, fs')) :
    Quiet 1 fs fs' := by
  obtain ⟨nd, -, h⟩ := bind_ok.mp h
  obtain ⟨-, -, h⟩ := bind_ok.mp h
  have hbuf : Quiet 1 fs (fs.askMalloc 1024).2 := .askMalloc fs 1024
  dsimp only at h
  split at h
  · cases h
    exact hbuf
  · obtain ⟨fs₁, hd, h⟩ := bind_ok.mp h
    obtain ⟨fs₂, hr, h⟩ := bind_ok.mp h
    cases h
    exact (hbuf.trans (deleteEntry_quiet hd)).trans (inodeRelease_quiet hr)

theorem unlinkIn_quiet (h : unlinkIn fs no record = .ok (r, fs')) : Quiet 1 fs fs' := by
  unfold unlinkIn at h
  split at h
  · cases h
    exact .refl fs
  · obtain ⟨inUse, -, h⟩ := bind_ok.mp h
    split at h
    · cases h
      exact .refl fs
    · have hbuf : Quiet 1 fs (fs.askMalloc 1024).2 := .askMalloc fs 1024
      dsimp only at h
      split at h
      · cases h
        exact hbuf
      · obtain ⟨fs₁, hd, h⟩ := bind_ok.mp h
        obtain ⟨fs₂, hr, h⟩ := bind_ok.mp h
        cases h
        exact (hbuf.trans (deleteEntry_quiet hd)).trans (inodeRelease_quiet hr)

theorem sysUnlink_quiet (hl : Live fs.part.openInodes) (h : sysUnlink fs path = .ok (r, fs')) :
    Quiet 2 fs fs' := by
  obtain ⟨-, -, h⟩ := bind_ok.mp h
  obtain ⟨⟨no, record, fs₁⟩, hs, h⟩ := bind_ok.mp h
  obtain ⟨-, -, h⟩ := bind_ok.mp h
  obtain ⟨⟨ret, fs₂⟩, hin, h⟩ := bind_ok.mp h
  obtain ⟨fs₃, hc, h⟩ := bind_ok.mp h
  cases h
  exact Quiet.of_search hl hs (unlinkIn_quiet hin) hc

theorem rmdirIn_quiet (h : rmdirIn fs no record = .ok (r, fs')) : Quiet 2 fs fs' := by
  unfold rmdirIn at h
  split at h
  · cases h
    exact .refl fs
  · obtain ⟨⟨dir, fs₁⟩, hopen, h⟩ := bind_ok.mp h
    obtain ⟨empty, -, h⟩ := bind_ok.mp h
    dsimp only at h
    split at h
    · obtain ⟨fs₂, hc, h⟩ := bind_ok.mp h
      cases h
      exact Quiet.of_dir hopen (.refl fs₁) hc
    · obtain ⟨⟨ret, fs₂⟩, hr, h⟩ := bind_ok.mp h
      obtain ⟨fs₃, hc, h⟩ := bind_ok.mp h
      cases h
      exact Quiet.of_dir hopen (dirRemove_quiet hr) hc

theorem sysRmdir_quiet (hl : Live fs.part.openInodes) (h : sysRmdir fs path = .ok (r, fs')) :
    Quiet 3 fs fs' := by
  obtain ⟨⟨no, record, fs₁⟩, hs, h⟩ := bind_ok.mp h
  obtain ⟨-, -, h⟩ := bind_ok.mp h
  obtain ⟨⟨ret, fs₂⟩, hin, h⟩ := bind_ok.mp h
  obtain ⟨fs₃, hc, h⟩ := bind_ok.mp h
  cases h
  exact Quiet.of_search hl hs (rmdirIn_quiet hin) hc

/-! ## Making a directory -/

theorem mkdirBlock_quiet {parentNo : UInt32} {made : Option Inode}
    (h : mkdirBlock fs n parentNo = .ok (made, fs')) : Quiet k fs fs' := by
  obtain ⟨⟨lba, part⟩, ha, h⟩ := bind_ok.mp h
  obtain ⟨scanned, hscan, ha⟩ := bind_ok.mp ha
  obtain ⟨i, rfl, -, -⟩ := bitmapScan_one_free hscan
  cases ha
  obtain ⟨-, -, h⟩ := bind_ok.mp h
  obtain ⟨disk, -, h⟩ := bind_ok.mp h
  obtain ⟨disk', -, h⟩ := bind_ok.mp h
  cases h
  exact .of_list rfl rfl rfl rfl

theorem mkdirSync_quiet {dirname : List UInt8} {nd : Inode} {synced : Bool}
    (h : mkdirSync fs dir dirname n nd = .ok (synced, fs')) : Quiet k fs fs' := by
  obtain ⟨de, -, h⟩ := bind_ok.mp h
  obtain ⟨parent, hat, h⟩ := bind_ok.mp h
  obtain ⟨⟨done, s⟩, hs, h⟩ := bind_ok.mp h
  have hset : Quiet k fs (fs.setNode dir.inode s) := .setNode hat (syncDirEntry_keeps hs)
  cases done with
  | false =>
    cases h
    exact hset
  | true =>
    obtain ⟨disk, -, h⟩ := bind_ok.mp h
    obtain ⟨disk', -, h⟩ := bind_ok.mp h
    obtain ⟨disk'', -, h⟩ := bind_ok.mp h
    cases h
    exact hset.trans (.of_list rfl rfl rfl rfl)

theorem mkdirIn_quiet {searchedPath : List UInt8}
    (h : mkdirIn fs dir searchedPath = .ok (r, fs')) : Quiet k fs fs' := by
  obtain ⟨-, -, h⟩ := bind_ok.mp h
  obtain ⟨⟨inodeNo, part⟩, ha, h⟩ := bind_ok.mp h
  obtain ⟨scanned, hscan, ha⟩ := bind_ok.mp ha
  obtain ⟨i, rfl, -, -⟩ := bitmapScan_one_free hscan
  cases ha
  obtain ⟨parent, -, h⟩ := bind_ok.mp h
  obtain ⟨⟨made, fs₁⟩, hb, h⟩ := bind_ok.mp h
  have hmark : Quiet k fs { fs with part := { fs.part with
    inodeBitmap := bitmapSet fs.part.inodeBitmap i true } } := .of_list rfl rfl rfl rfl
  have hblock := hmark.trans (mkdirBlock_quiet hb)
  cases made with
  | none =>
    cases h
    exact hblock.trans (.of_list rfl rfl rfl rfl)
  | some nd =>
    obtain ⟨⟨synced, fs₂⟩, hs, h⟩ := bind_ok.mp h
    have hsync := hblock.trans (mkdirSync_quiet hs)
    dsimp only at h
    split at h
    · cases h
      exact hsync.trans (.of_list rfl rfl rfl rfl)
    · cases h
      exact hsync

theorem sysMkdir_quiet (hl : Live fs.part.openInodes) (h : sysMkdir fs path = .ok (r, fs')) :
    Quiet 1 fs fs' := by
  have hbuf : Quiet 1 fs (fs.askMalloc 1024).2 := .askMalloc fs 1024
  unfold sysMkdir at h
  dsimp only at h
  split at h
  · cases h
    exact hbuf
  · apply hbuf.trans
    obtain ⟨⟨no, record, fs₁⟩, hs, h⟩ := bind_ok.mp h
    have hclose : dirClose fs₁ record.parentDir >>= (fun fs₂ => .ok (-1, fs₂)) = .ok (r, fs') →
        Quiet 1 (fs.askMalloc 1024).2 fs' := by
      intro hc
      obtain ⟨fs₂, hc, heq⟩ := bind_ok.mp hc
      cases heq
      exact Quiet.of_search hl hs (.refl fs₁) hc
    dsimp only at h
    split at h
    · exact hclose h
    · obtain ⟨depth, -, h⟩ := bind_ok.mp h
      obtain ⟨depth', -, h⟩ := bind_ok.mp h
      split at h
      · exact hclose h
      · obtain ⟨⟨ret, fs₂⟩, hin, h⟩ := bind_ok.mp h
        obtain ⟨fs₃, hc, h⟩ := bind_ok.mp h
        cases h
        exact Quiet.of_search hl hs (mkdirIn_quiet hin) hc

/-! ## Looking -/

theorem sysChdir_quiet {cwd cwd' : UInt32} (hl : Live fs.part.openInodes)
    (h : sysChdir fs cwd path = .ok (r, cwd', fs')) : Quiet 1 fs fs' := by
  obtain ⟨⟨no, record, fs₁⟩, hs, h⟩ := bind_ok.mp h
  obtain ⟨fs₂, hc, h⟩ := bind_ok.mp h
  have hq := Quiet.of_search (k := 0) hl hs (.refl fs₁) hc
  split at h
  · cases h
    exact hq
  · cases h
    exact hq

theorem statNode_quiet {buf buf' : Stat} (h : statNode fs no record buf = .ok (r, buf', fs')) :
    Quiet 1 fs fs' := by
  unfold statNode at h
  split at h
  · cases h
    exact .refl fs
  · obtain ⟨⟨ref, fs₁⟩, hopen, h⟩ := bind_ok.mp h
    obtain ⟨nd, -, h⟩ := bind_ok.mp h
    obtain ⟨fs₂, hc, h⟩ := bind_ok.mp h
    cases h
    exact Quiet.of_inode hopen (.refl fs₁) hc

theorem sysStat_quiet {buf buf' : Stat} (hl : Live fs.part.openInodes)
    (h : sysStat fs path buf = .ok (r, buf', fs')) : Quiet 2 fs fs' := by
  unfold sysStat at h
  split at h
  · obtain ⟨root, -, h⟩ := bind_ok.mp h
    cases h
    exact .refl fs
  · obtain ⟨⟨no, record, fs₁⟩, hs, h⟩ := bind_ok.mp h
    obtain ⟨⟨ret, buf₁, fs₂⟩, hin, h⟩ := bind_ok.mp h
    obtain ⟨fs₃, hc, h⟩ := bind_ok.mp h
    cases h
    exact Quiet.of_search hl hs (statNode_quiet hin) hc

end

end ZhuOS
