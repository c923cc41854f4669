import ZhuOS.Gains

/-!
# A directory more

A call of `sys_mkdir` that returns 0 leaves a sound file system, with one directory more.
-/

namespace ZhuOS

open ByteMem Slots

set_option maxRecDepth 2000

variable {fs fs' : Fs} {dirs files : Nat → Prop} {parent : Inode} {name : List UInt8}
  {n p : Nat} {lba a : UInt32} {disk : Bytes} {part : Partition} {de : DirEntry} {s : NodeState}
  {l : List OpenInode}

namespace Making

variable (h : Making fs dirs p l parent name n lba disk part de s)
include h

/-! ## The new directory -/

/-- In the slots of the new directory lie `.` and `..`. -/
theorem newSlot {q : Nat × Nat} (hq : q ∈ dirGrid) {e : DirEntry}
    (he : slot (madeDisk s n lba) (diskInode (madeDisk s n lba) fs.part n) q = some e) :
    q = (0, 0) ∧ e = (dirDotEntry dot (.ofNat n)).stored ∨
      q = (0, 1) ∧ e = (dirDotEntry dotDot parent.iNo).stored := by
  obtain ⟨k, j⟩ := q
  obtain ⟨hk, hj⟩ : k < 140 ∧ j < 21 := mem_dirGrid.mp hq
  obtain ⟨hne, hentry, hlive⟩ := slot_some.mp he
  dsimp only at hne hentry
  rw [h.newBlocks] at hne hentry
  by_cases hk0 : k = 0
  · rw [if_pos hk0, h.newEntry hj] at hentry
    subst hk0
    by_cases hfirst : j = 0
    · subst hfirst
      exact .inl ⟨rfl, hentry.symm.trans (dotSector_first ..)⟩
    · by_cases hsecond : j = 1
      · subst hsecond
        exact .inr ⟨rfl, hentry.symm.trans (dotSector_second ..)⟩
      · have hfree := (dotSector_rest (.ofNat n) parent.iNo (by omega : 1 < j)).1
        rw [hentry] at hfree
        exact absurd hfree hlive
  · rw [if_neg hk0] at hne
    exact absurd rfl hne

theorem newDots (name : List UInt8) (hname : name = dot ∨ name = dotDot) : ∃ j < 21, ∃ e,
    slot (madeDisk s n lba) (diskInode (madeDisk s n lba) fs.part n) (0, j) = some e ∧
      e.name = name ∧ j < 2 := by
  have hne : blockAt (madeDisk s n lba) (diskInode (madeDisk s n lba) fs.part n) 0 ≠ 0 := by
    rw [h.newBlocks, if_pos rfl]
    exact h.newNonzero
  have hlies : ∀ j < 21, (entryAt (dotSector (.ofNat n) parent.iNo) j).fType ≠ FT_UNKNOWN →
      slot (madeDisk s n lba) (diskInode (madeDisk s n lba) fs.part n) (0, j) =
        some (entryAt (dotSector (.ofNat n) parent.iNo) j) := by
    intro j hj hlive
    refine slot_some.mpr ⟨hne, ?_, hlive⟩
    dsimp only
    rw [h.newBlocks, if_pos rfl]
    exact h.newEntry hj
  obtain ⟨hdot, -, htype⟩ := dirDotEntry_stored (.inl rfl) (.ofNat n)
  obtain ⟨hdots, -, htype'⟩ := dirDotEntry_stored (.inr rfl) parent.iNo
  obtain rfl | rfl := hname
  · refine ⟨0, by decide, _, hlies 0 (by decide) ?_, ?_, by decide⟩
    · rw [dotSector_first, htype]
      decide
    · rw [dotSector_first, hdot]
  · refine ⟨1, by decide, _, hlies 1 (by decide) ?_, ?_, by decide⟩
    · rw [dotSector_second, htype']
      decide
    · rw [dotSector_second, hdots]

theorem newOccupied : occupied dirGrid (slot (madeDisk s n lba)
    (diskInode (madeDisk s n lba) fs.part n)) = {(0, 0), (0, 1)} := by
  have hdots : ∀ q ∈ dirGrid, ∀ e, slot (madeDisk s n lba) (diskInode (madeDisk s n lba) fs.part n)
      q = some e → q ∈ ({(0, 0), (0, 1)} : Finset (Nat × Nat)) := by
    intro q hq e he
    obtain ⟨rfl, -⟩ | ⟨rfl, -⟩ := h.newSlot hq he
    · decide
    · decide
  ext q
  rw [mem_occupied]
  constructor
  · rintro ⟨hq, e, he⟩
    exact hdots q hq e he
  intro hq
  obtain ⟨j, hj, e, he, hname, -⟩ := h.newDots dot (.inl rfl)
  obtain ⟨j', hj', e', he', hname', -⟩ := h.newDots dotDot (.inr rfl)
  have hgrid : (0, j) ∈ dirGrid := pair_mem_dirGrid (by decide) hj
  have hgrid' : (0, j') ∈ dirGrid := pair_mem_dirGrid (by decide) hj'
  have hdot : (dirDotEntry dot (.ofNat n)).stored.name = dot :=
    (dirDotEntry_stored (.inl rfl) _).1
  have hdotDot : (dirDotEntry dotDot parent.iNo).stored.name = dotDot :=
    (dirDotEntry_stored (.inr rfl) _).1
  have hfirst : (0, j) = (0, 0) := by
    obtain ⟨heq, -⟩ | ⟨-, rfl⟩ := h.newSlot hgrid he
    · exact heq
    · rw [hdotDot] at hname
      cases hname
  have hsecond : (0, j') = (0, 1) := by
    obtain ⟨-, rfl⟩ | ⟨heq, -⟩ := h.newSlot hgrid' he'
    · rw [hdot] at hname'
      cases hname'
    · exact heq
  rw [hfirst] at he hgrid
  rw [hsecond] at he' hgrid'
  obtain rfl | hq := Finset.mem_insert.mp hq
  · exact ⟨hgrid, e, he⟩
  · rw [Finset.mem_singleton.mp hq]
    exact ⟨hgrid', e', he'⟩

theorem newShape : DirShape (madeDisk s n lba) (diskInode (madeDisk s n lba) fs.part n) where
  unnamed e he hfree := by
    obtain rfl | rfl | ⟨-, hnil⟩ := h.newListed he
    · rw [(dirDotEntry_stored (.inl rfl) _).2.2] at hfree
      exact absurd hfree (by decide)
    · rw [(dirDotEntry_stored (.inr rfl) _).2.2] at hfree
      exact absurd hfree (by decide)
    · exact hnil
  once q hq r hr b c hb hc _ _ hsame := by
    have hdot := (dirDotEntry_stored (.inl rfl) (.ofNat n)).1
    have hdots := (dirDotEntry_stored (.inr rfl) parent.iNo).1
    obtain ⟨rfl, rfl⟩ | ⟨rfl, rfl⟩ := h.newSlot hq hb
    · obtain ⟨rfl, rfl⟩ | ⟨rfl, rfl⟩ := h.newSlot hr hc
      · rfl
      · exact absurd (hdot.symm.trans (hsame.trans hdots)) (by decide)
    · obtain ⟨rfl, rfl⟩ | ⟨rfl, rfl⟩ := h.newSlot hr hc
      · exact absurd (hdot.symm.trans (hsame.symm.trans hdots)) (by decide)
      · rfl
  noTable := by
    rw [h.newRecord.iSectors 12 (by decide)]
    rfl
  named q hq e he := by
    have hdot := (dirDotEntry_stored (.inl rfl) (.ofNat n)).1
    have hdots := (dirDotEntry_stored (.inr rfl) parent.iNo).1
    obtain ⟨-, rfl⟩ | ⟨-, rfl⟩ := h.newSlot hq he
    · rw [hdot]
      decide
    · rw [hdots]
      decide
  dots name hname := by
    obtain ⟨j, hj, e, he, hen, -⟩ := h.newDots name hname
    exact ⟨j, hj, e, he, hen⟩
  size := by
    rw [h.newOccupied, h.newRecord.iSize]
    rfl
  held k hk hk0 hne := by
    rw [h.newRecord.iSectors k (by omega)] at hne
    exact absurd (setSector_other hk0) hne

/-- The block of `.` and `..` is all it has. -/
theorem newHas : HasBlock (madeDisk s n lba) (diskInode (madeDisk s n lba) fs.part n) a ↔
    a = lba := by
  rw [hasBlock_direct h.newShape.noTable]
  constructor
  · rintro ⟨hne, k, hk, rfl⟩
    by_cases hk0 : k = 0
    · rw [hk0]
      exact h.newSector
    · rw [h.newRecord.iSectors k (by omega)] at hne
      exact absurd (setSector_other hk0) hne
  · rintro rfl
    exact ⟨h.newNonzero, 0, by decide, h.newSector⟩

theorem newOwn : OwnBlocks (madeDisk s n lba) s.part (diskInode (madeDisk s n lba) fs.part n) where
  inUse k hk hne := by
    have hlba := h.newHas.mp ⟨hne, .inr ⟨k, hk, rfl⟩⟩
    rw [hlba]
    exact h.inserted.keeps h.claimed.inUse
  table hne := absurd h.newShape.noTable hne
  apart k hk i hi hne he := by
    have hzero : ∀ x, blockAt (madeDisk s n lba) (diskInode (madeDisk s n lba) fs.part n) x ≠ 0 →
        x = 0 := by
      intro x hx
      rw [h.newBlocks] at hx
      by_contra hx0
      rw [if_neg hx0] at hx
      exact hx rfl
    rw [hzero k hne, hzero i (he ▸ hne)]
  tableApart k hk hne := by
    rw [h.newShape.noTable]
    exact hne

/-! ## The file system -/

theorem parentKept (ha : HasBlock (dotsWritten disk part lba n parent).disk parent a) :
    HasBlock fs.disk (diskInode fs.disk fs.part p) a := h.entered.parentMoved.holds.mp ha

theorem newApart {q : Nat × Nat} (hs : SoundFs fs dirs files)
    (hf : SlotFilled (dotsWritten disk part lba n parent) s q de.stored) :
    ¬ InUse fs.part lba ∧ ¬ HasBlock s.disk s.inode lba := by
  have hunused : ¬ InUse fs.part lba := fun hused =>
    h.claimed.unused ((hused.relist l).setNumber n)
  refine ⟨hunused, fun hblock => ?_⟩
  have hnone : parent.iSectors 12 = 0 :=
    (h.stored.iSectors 12 (by decide)).trans (hs.shape p h.isDir).noTable
  obtain hold | hfree := hf.block_cases hnone hblock
  · exact hunused ((hs.own p h.isDir).holds (h.parentKept hold))
  · exact hfree h.claimed.inUse

theorem gains (hs : SoundFs fs dirs files)
    (hnew : lookup fs.disk (diskInode fs.disk fs.part p) name = none)
    (hroom : ¬ DirectFull fs.disk (diskInode fs.disk fs.part p) 12) :
    ∃ q, Gains fs (madeFs fs p s n lba) dirs p n q (dotsWritten disk part lba n parent) de s
      (newDirInode n lba) := by
  obtain ⟨hname, hno, htype⟩ := createDirEntry_ok h.fileName h.entry
  have hlive : de.stored.fType ≠ FT_UNKNOWN := by
    rw [htype]
    decide
  obtain ⟨q, hf⟩ := h.inserted.filled h.partLayout h.entering.startOwn
    (fun hfull => hroom ((h.entered.parentMoved.directFull (Nat.le_refl 12)).mp hfull)) hlive
  have hnone : parent.iSectors 12 = 0 :=
    (h.stored.iSectors 12 (by decide)).trans (hs.shape p h.isDir).noTable
  have hblocks : BlockMapSynced (dotsWritten disk part lba n parent).disk part := by
    have hl : DiskLayout ((fs.setOpenInodes l).part.setNumber n) :=
      (h.tree.layout.relist l).setNumber n
    have hsync : BlockMapSynced disk part := h.claimed.synced hs.blockMap
    exact (sameMaps_block h.partLayout h.claimed.inUse.toDataBlock _ _
      (Nat.le_refl _)).blockMap h.partLayout hsync
  obtain ⟨hblockMap, hinodeMap⟩ := h.entering.maps hs.consistent hblocks
  have hrecord := h.finalInode n
  have hstored : Inode.SameStored (diskInode (madeFs fs p s n lba).disk
      (madeFs fs p s n lba).part n) (newDirInode n lba) := by
    rw [hrecord]
    exact h.newRecord
  have hhas : ∀ a, HasBlock (madeDisk s n lba) (newDirInode n lba) a → a = lba := fun a ha =>
    h.newHas.mp ((moved_stored _ h.newRecord).holds.mpr ha)
  refine ⟨q, h.entered, h.settled, hf, hno, .inr htype, ?_, ?_, h.free, h.inMap, h.lowNew,
    h.entering.nodeMap, hs.heap, hblockMap, hinodeMap, fun _ _ hr => hr, h.newToNat, hstored, ?_,
    fun a ha => ha.relist _, ?_, ?_, ?_⟩
  · rw [hname]
    exact ⟨h.fileName.ne, h.fileName.short⟩
  · rw [hname]
    exact hnew
  · have hkeeps : ∀ a, InUse s.part a → InUse (madeFs fs p s n lba).part a :=
      fun a ha => ha.relist _
    exact (moved_stored (madeDisk s n lba) h.newRecord.symm).own hkeeps h.newOwn
  · intro a ha
    rw [hhas a ha]
    exact h.newApart hs hf
  · have hl : DiskLayout (madeFs fs p s n lba).part := h.settled.layout
    rw [Bitmap.size, Bitmap.size, hl.blockMapLen, hs.layout.blockMapLen, h.settled.sb]
  · intro j hj hset
    have hidx := blockIdx_sb h.partSb
    have hset : s.part.blockBitmap.bit j = true := hset
    obtain hold | ⟨a, ha, hja⟩ := hf.marks hnone h.partLayout hset
    · have hold : part.blockBitmap.bit j = true := hold
      have hsame : blockIdx ((fs.setOpenInodes l).part.setNumber n) lba = blockIdx fs.part lba := rfl
      rw [h.claimed.part_eq, setBlock_bit, hsame] at hold
      by_cases hjl : j = blockIdx fs.part lba
      · refine .inr (.inr ⟨lba, ?_, hjl.symm⟩)
        exact (moved_stored _ h.newRecord).holds.mp (h.newHas.mpr rfl)
      · rw [if_neg hjl] at hold
        exact .inl hold
    · exact .inr (.inl ⟨a, ha, (hidx a).symm.trans hja⟩)

theorem newNode : NewNode (madeFs fs p s n lba) p n FT_DIRECTORY where
  file htype := absurd htype (by decide)
  shape _ := by
    rw [h.finalInode]
    exact h.newShape
  dots _ q e he := by
    obtain ⟨hq, hslot⟩ := he
    rw [h.finalInode] at hslot
    obtain ⟨-, rfl⟩ | ⟨-, rfl⟩ := h.newSlot hq hslot
    · obtain ⟨hname, hno, htype⟩ := dirDotEntry_stored (.inl rfl) (.ofNat n)
      refine ⟨fun hproper => hproper.1 hname, htype, .inl ?_⟩
      rw [hno, h.newToNat]
    · obtain ⟨hname, hno, htype⟩ := dirDotEntry_stored (.inr rfl) parent.iNo
      refine ⟨fun hproper => hproper.2 hname, htype, .inr ?_⟩
      rw [hno, h.stored.iNo]
      exact h.tree.number p h.isDir

end Making

/-! ## The call -/

theorem mkdirSync_true {dir : Dir} {nd : Inode} {b : Bool}
    (h : mkdirSync fs dir name n nd = .ok (b, fs')) : b = true := by
  obtain ⟨e, -, h⟩ := bind_ok.mp h
  obtain ⟨parent, -, h⟩ := bind_ok.mp h
  obtain ⟨⟨synced, s⟩, hsync, h⟩ := bind_ok.mp h
  obtain rfl := syncDirEntry_true hsync
  obtain ⟨disk, -, h⟩ := bind_ok.mp h
  obtain ⟨disk, -, h⟩ := bind_ok.mp h
  obtain ⟨disk, -, h⟩ := bind_ok.mp h
  cases h
  rfl

/-- The ways to roll back lie behind answers that never come. -/
theorem mkdirIn_zero {dir : Dir} {path : List UInt8} {r : Int} (hl : DiskLayout fs.part)
    (h : mkdirIn fs dir path = .ok (r, fs')) : r = 0 := by
  obtain ⟨⟨⟩, -, h⟩ := bind_ok.mp h
  obtain ⟨⟨found, part⟩, halloc, h⟩ := bind_ok.mp h
  cases found with
  | none =>
    obtain ⟨x, hscan, halloc⟩ := bind_ok.mp halloc
    obtain ⟨i, rfl, -, -⟩ := bitmapScan_one_free hscan
    cases halloc
  | some n =>
    obtain ⟨hn, hfree, rfl⟩ := inodeBitmapAlloc_ok halloc
    obtain ⟨nd, -, h⟩ := bind_ok.mp h
    obtain ⟨⟨made, fs₁⟩, hblock, h⟩ := bind_ok.mp h
    have hl₁ : DiskLayout (fs.part.setNumber n) := hl.setNumber n
    obtain ⟨lba, disk, part, -, hmade⟩ := mkdirBlock_claims hl₁ hblock
    cases hmade
    obtain ⟨⟨synced, fs₂⟩, hsync, h⟩ := bind_ok.mp h
    obtain rfl := mkdirSync_true hsync
    cases h
    rfl

theorem sysMkdir_zero (ht : DiskTree fs dirs) (hheap : fs.heap = fun _ => true)
    {path : List UInt8} (hpath : PathName path) {front : List (List UInt8)} {p : UInt32}
    (hmiss : MissingAt fs (components path) front name [] p) {r : Int}
    (h : sysMkdir fs path = .ok (r, fs')) : r = 0 := by
  obtain ⟨record, fs₁, hsearch, -, hstop⟩ := hmiss.searched ht.toTreeOk hheap hpath
  obtain ⟨l, parent, hfs₁, hat⟩ := hstop.parentOpen
  obtain rfl : fs₁ = fs.setOpenInodes l := hfs₁
  obtain ⟨searched, wanted, hsearched, hwanted, hdepth⟩ :=
    hstop.depths ((fs.setOpenInodes l).junk 0) ((fs.setOpenInodes l).junk 0)
  obtain rfl := hdepth.mpr rfl
  simp only [sysMkdir, Fs.askMalloc_found hheap (by decide : 0 < 1024), not_true, ↓reduceIte,
    hsearch, ok_bind, ne_eq, hwanted, hsearched] at h
  obtain ⟨⟨ret, fs₂⟩, hin, h⟩ := bind_ok.mp h
  obtain ⟨fs₃, -, h⟩ := bind_ok.mp h
  cases h
  exact mkdirIn_zero (ht.layout.relist l) hin

/-- Where the last component alone is missing of no path, nothing is made and nothing changes. -/
theorem sysMkdir_refuses (ht : TreeOk fs dirs) (hheap : fs.heap = fun _ => true)
    {path : List UInt8} (hpath : PathName path) (hsome : components path ≠ [])
    (hnot : ∀ front name p, ¬ MissingAt fs (components path) front name [] p) :
    sysMkdir fs path = .ok (-1, fs) := by
  obtain ⟨r, hsearch, hclose⟩ :=
    searchFile_closes ht hheap hpath.absolute hpath.fits hpath.short
  obtain ⟨r', hsearch', hminus, hstops⟩ :=
    searchFile_missing ht hheap hpath.absolute hpath.fits hsome hpath.short
  obtain rfl := Except.ok.inj (hsearch.symm.trans hsearch')
  simp only [sysMkdir, Fs.askMalloc_found hheap (by decide : 0 < 1024), not_true, ↓reduceIte,
    hsearch, ok_bind, ne_eq]
  by_cases hfound : r.1 = -1
  · obtain ⟨front, name, rest, p, hmiss⟩ := hminus.mp hfound
    obtain ⟨searched, wanted, hsearched, hwanted, hdepth⟩ :=
      (hstops front name rest p hmiss).depths (r.2.2.junk 0) (r.2.2.junk 0)
    have hrest : ¬ wanted = searched := by
      intro he
      obtain rfl := hdepth.mp he.symm
      exact hnot front name p hmiss
    simp only [hfound, not_true, ↓reduceIte, hwanted, hsearched, ok_bind, if_pos hrest, hclose]
    rfl
  · simp only [if_pos hfound, hclose, ok_bind]
    rfl

/-- What `sys_mkdir` and `sys_open` with `O_CREAT` need in the directory `p`: a number in the
range that is synced, two free blocks, and a slot in a direct block. -/
structure NodeRoom (fs : Fs) (p : Nat) : Prop where
  number : ∃ i < 256, fs.part.inodeBitmap.bit i = false
  blocks : 2 ≤ fs.part.blockBitmap.free.card
  slot : ¬ DirectFull fs.disk (diskInode fs.disk fs.part p) 12

namespace SoundFs

variable (h : SoundFs fs dirs files)
include h

theorem diskTree : DiskTree fs dirs := h.dottedTree.toDiskTree

/-- The bitmap of the numbers has a sector at least. -/
theorem mapSize : 256 ≤ fs.part.inodeBitmap.size := by
  have hroot := (h.low 0 (.inl h.root)).2
  rw [Bitmap.size, h.layout.inodeMapLen] at hroot ⊢
  omega

theorem leads {path : List UInt8} {front rest : List (List UInt8)} {p : UInt32}
    (hmiss : MissingAt fs (components path) front name rest p) : dirs p.toNat := by
  have hroot : dirs (0 : UInt32).toNat := h.root
  exact h.treeOk.leads hroot
    (fun c hc => mem_components (hmiss.split ▸ List.mem_append_left _ hc)) hmiss.leads

theorem sysMkdir_makes {path : List UInt8} (hpath : PathName path) {front : List (List UInt8)}
    {p : UInt32} (hmiss : MissingAt fs (components path) front name [] p)
    (hroom : NodeRoom fs p.toNat) :
    ∃ fs' n q s₀ de s nd, sysMkdir fs path = .ok (0, fs') ∧
      Gains fs fs' dirs p.toNat n q s₀ de s nd ∧ NewNode fs' p.toNat n FT_DIRECTORY ∧
        de.stored.name = name ∧ de.stored.fType = FT_DIRECTORY := by
  obtain ⟨i, hi, hfree⟩ := hroom.number
  have hmkdir : MkdirRoom fs.disk fs.part (diskInode fs.disk fs.part p.toNat) := by
    have hblocks := hroom.blocks
    refine ⟨⟨i, hi.trans_le h.mapSize, hfree⟩, by omega, fun _ _ _ _ => by omega, fun hfull => ?_⟩
    exact absurd hfull hroom.slot
  have hends : ∃ r, sysMkdir fs path = .ok r := by
    have hname : components path ≠ [] := by
      rw [hmiss.split]
      simp
    refine (h.fileTree.sysMkdir_ends_iff h.heap hpath.fits (.inr hname)).mpr
      ⟨.inr ⟨hpath.absolute, fun _ c _ _ hsplit _ => ?_⟩, fun front' name' rest' p' hmiss' => ?_⟩
    · have hshort := hpath.short c (hsplit ▸ by simp)
      exact ⟨hshort.le, fun _ => hshort⟩
    · obtain ⟨rfl, rfl, rfl, rfl⟩ := hmiss.unique hmiss'
      exact ⟨fun c hc => (hpath.short c hc).le, fun _ => hmkdir⟩
  obtain ⟨⟨r, fs'⟩, hrun⟩ := hends
  obtain rfl := sysMkdir_zero h.diskTree h.heap hpath hmiss hrun
  obtain ⟨l, parent, n, lba, disk, part, de, s, hmaking, rfl⟩ :=
    sysMkdir_making h.diskTree h.heap ⟨i, hi, hfree⟩ hpath hmiss hrun
  obtain ⟨q, hgains⟩ := hmaking.gains h hmiss.unlisted hroom.slot
  obtain ⟨hname, -, htype⟩ := createDirEntry_ok hmaking.fileName hmaking.entry
  exact ⟨_, n, q, _, de, s, _, hrun, hgains, hmaking.newNode, hname, htype⟩

end SoundFs

end ZhuOS
