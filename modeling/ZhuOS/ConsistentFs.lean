import ZhuOS.PathEnds

/-!
# Bitmaps that mark what is in use

An inode number is in use when a directory lists it, and a block when it belongs to a file, or to
a directory as its table, its first block or one with an entry in it. What a call writes to the
records and to the data leaves the bitmaps on disk alone.
-/

namespace ZhuOS

open ByteMem Slots

set_option maxRecDepth 2000

variable {fs : Fs} {dirs : Nat → Prop} {n p k : Nat} {disk disk' : Bytes} {part part' : Partition}
  {s s' : NodeState} {de e : DirEntry} {nd : Inode}

/-! ## What is in use -/

/-- A directory lists `n` as a regular file. -/
def ListsFile (fs : Fs) (dirs : Nat → Prop) (n : Nat) : Prop :=
  ∃ p, dirs p ∧ ∃ e ∈ entries fs.disk (diskInode fs.disk fs.part p),
    e.name ≠ [] ∧ e.fType = FT_REGULAR ∧ e.iNo.toNat = n

/-- An entry besides `.` and `..` lies in block `k` of the directory. -/
def HoldsEntry (disk : Bytes) (nd : Inode) (k : Nat) : Prop :=
  ∃ j < 21, ∃ e, slot disk nd (k, j) = some e ∧ e.Proper

/-- The table of the directory, its first block, or one with an entry in it: `delete_dir_entry`
gives up a block with the last entry. -/
def DirUses (disk : Bytes) (nd : Inode) (a : UInt32) : Prop :=
  a ≠ 0 ∧ (a = nd.iSectors 12 ∨
    ∃ k < 140, blockAt disk nd k = a ∧ (k = 0 ∨ HoldsEntry disk nd k))

/-- The block of a file or of a directory. -/
def UsesBlock (fs : Fs) (dirs : Nat → Prop) (a : UInt32) : Prop :=
  (∃ p, dirs p ∧ DirUses fs.disk (diskInode fs.disk fs.part p) a) ∨
    ∃ n, ListsFile fs dirs n ∧ HasBlock fs.disk (diskInode fs.disk fs.part n) a

/-- A tree whose bitmaps are on disk as in memory and mark exactly what is in use. Its entries
have names, each directory has `.` in its first block and room for its size to grow, and what is
open is in use. -/
structure ConsistentFs (fs : Fs) (dirs : Nat → Prop) : Prop extends FileTree fs dirs where
  blockMap : BlockMapSynced fs.disk fs.part
  inodeMap : InodeMapSynced fs.disk fs.part
  blocks : ∀ i < fs.part.blockBitmap.size, fs.part.blockBitmap.bit i = true ↔
    ∃ a, UsesBlock fs dirs a ∧ blockIdx fs.part a = i
  inodes : ∀ i < fs.part.inodeBitmap.size, fs.part.inodeBitmap.bit i = true ↔
    dirs i ∨ ListsFile fs dirs i
  named : ∀ p, dirs p → ∀ e ∈ entries fs.disk (diskInode fs.disk fs.part p),
    e.fType ≠ FT_UNKNOWN → e.name ≠ []
  firstDot : ∀ p, dirs p → ∃ j < 21, ∃ e,
    slot fs.disk (diskInode fs.disk fs.part p) (0, j) = some e ∧ e.name = dot
  bounded : ∀ p, dirs p → (diskInode fs.disk fs.part p).iSize.toNat + 24 < 2 ^ 32
  cached : ∀ o ∈ fs.part.openInodes, fs.part.inodeBitmap.bit o.inode.iNo.toNat = true

namespace ConsistentFs

variable (h : ConsistentFs fs dirs)
include h

/-- No entry has a number that is free. -/
theorem unlisted (hn : n < fs.part.inodeBitmap.size) (hfree : fs.part.inodeBitmap.bit n = false)
    (hp : dirs p) {q : Nat × Nat} (hq : q ∈ dirGrid)
    (he : slot fs.disk (diskInode fs.disk fs.part p) q = some e) : e.iNo.toNat ≠ n := by
  rintro rfl
  have hmem := mem_entries_of_slot hq he
  have hname := h.named p hp e hmem (slot_some.mp he).2.2
  have hused : dirs e.iNo.toNat ∨ ListsFile fs dirs e.iNo.toNat := by
    obtain ⟨-, htype | ⟨-, hdir⟩⟩ := h.listed p hp e hmem hname
    · exact .inr ⟨p, hp, e, hmem, hname, htype, rfl⟩
    · exact .inl hdir
  rw [(h.inodes _ hn).mpr hused] at hfree
  cases hfree

/-- A block of a directory behind its first one holds an entry. -/
theorem holdsEntry (hp : dirs p) (hk : k < 140) (hk0 : k ≠ 0)
    (hne : blockAt fs.disk (diskInode fs.disk fs.part p) k ≠ 0) :
    HoldsEntry fs.disk (diskInode fs.disk fs.part p) k := by
  have hown := (h.ok p hp).toOwnBlocks
  have hhas : HasBlock fs.disk (diskInode fs.disk fs.part p)
      (blockAt fs.disk (diskInode fs.disk fs.part p) k) := ⟨hne, .inr ⟨k, hk, rfl⟩⟩
  have hused := hown.inUse k hk hne
  obtain ⟨a, ha, hidx⟩ := (h.blocks _ hused.inMap).mp hused.marked
  have hblock : ∀ b, HasBlock fs.disk (diskInode fs.disk fs.part b) a →
      InUse fs.part a → HasBlock fs.disk (diskInode fs.disk fs.part b)
        (blockAt fs.disk (diskInode fs.disk fs.part p) k) := by
    intro b hb hin
    exact hin.toDataBlock.idx_inj hused.toDataBlock hidx ▸ hb
  obtain ⟨m, hm, hza, huse⟩ | ⟨m, ⟨r, hr, e, he, hname, htype, rfl⟩, hfile⟩ := ha
  · have hma : HasBlock fs.disk (diskInode fs.disk fs.part m) a :=
      ⟨hza, huse.imp_right fun ⟨i, hi, hb, _⟩ => ⟨i, hi, hb⟩⟩
    have hin := (h.ok m hm).toOwnBlocks.holds hma
    obtain rfl : m = p := by
      by_contra hmp
      exact h.apart m p hm hp hmp _ (hblock m hma hin) hhas
    obtain rfl := hin.toDataBlock.idx_inj hused.toDataBlock hidx
    obtain htable | ⟨i, hi, hb, huse⟩ := huse
    · exact absurd htable (hown.tableApart k hk hne)
    · obtain rfl : i = k := hown.apart i hi k hk (hb ▸ hne) hb
      exact huse.resolve_left hk0
  · have hat := (h.file r hr e he hname htype).2
    exact absurd hhas (hat.apart p hp _ (hblock _ hfile (hat.own.holds hfile)))

end ConsistentFs

/-! ## The bitmaps on disk -/

/-- Before the inode table the disks have the same. -/
def SameMaps (part : Partition) (disk' disk : Bytes) : Prop :=
  ∀ a < part.sb.inodeTableLba.toNat * 512, disk' a = disk a

theorem SameMaps.trans {disk'' : Bytes} (h : SameMaps part disk'' disk')
    (h' : SameMaps part disk' disk) : SameMaps part disk'' disk :=
  fun a ha => (h a ha).trans (h' a ha)

theorem SameMaps.blockMap (h : SameMaps part disk' disk) (hl : DiskLayout part)
    (hs : BlockMapSynced disk part) : BlockMapSynced disk' part := by
  have hlen := hl.blockMapLen
  have hblock := hl.blockMap
  have hinode := hl.inodeMap
  exact MapSynced.congr hs fun a _ hhi => h a (by omega)

theorem SameMaps.inodeMap (h : SameMaps part disk' disk) (hl : DiskLayout part)
    (hs : InodeMapSynced disk part) : InodeMapSynced disk' part := by
  have hlen := hl.inodeMapLen
  have hinode := hl.inodeMap
  exact MapSynced.congr hs fun a _ hhi => h a (by omega)

/-- A record is written. -/
theorem sameMaps_record (disk src : Bytes) (m : Nat) {len : Nat} :
    SameMaps part (blit disk (inodeAddr part m) src 0 len) disk := by
  intro a ha
  unfold inodeAddr
  exact blit_out (.inl (by omega))

/-- A block of the data is written. -/
theorem sameMaps_block (hl : DiskLayout part) {lba : UInt32} (hd : DataBlock part lba)
    (disk src : Bytes) {off len : Nat} (hoff : lba.toNat * 512 ≤ off) :
    SameMaps part (blit disk off src 0 len) disk := by
  intro a ha
  have hstart := hd.start
  have htable := hl.table
  exact blit_out (.inl (by omega))

/-- A sector of the block bitmap is not one of the inode bitmap. -/
theorem OutsideBlockMap.inodeMap (h : OutsideBlockMap part disk' disk)
    (hs : InodeMapSynced disk part) : InodeMapSynced disk' part :=
  MapSynced.congr hs fun a hlo _ => h a (.inr hlo)

/-- A sector of the inode bitmap is not one of the block bitmap. -/
theorem syncInodeMap_blockMap (hl : DiskLayout part) (hs : BlockMapSynced disk part) (n : Nat) :
    BlockMapSynced (syncInodeMap disk part n) part := by
  have hlen := hl.blockMapLen
  have hblock := hl.blockMap
  apply MapSynced.congr hs
  intro a _ hhi
  unfold syncInodeMap
  exact blit_out (.inl (by omega))

theorem Inserted.blockMap (hi : Inserted s de s') (hl : DiskLayout s.part)
    (hown : OwnBlocks s.disk s.part s.inode) (hs : BlockMapSynced s.disk s.part) :
    BlockMapSynced s'.disk s'.part := by
  cases hi with
  | slot k j hk hj hne hbefore hfree =>
    have hused : InUse s.part (s.inode.iSectors k) :=
      hown.holds ⟨hne, .inr ⟨k, by omega, blockAt_direct hk⟩⟩
    exact (sameMaps_block hl hused.toDataBlock _ _ (Nat.le_add_right _ _)).blockMap hl hs
  | block k lba disk part hk hz hbefore hc =>
    have hl' := hc.layout hl
    exact (sameMaps_block hl' hc.inUse.toDataBlock _ _ (Nat.le_refl _)).blockMap hl' (hc.synced hs)
  | table t lba disk disk' part part' hfull ht hc =>
    have hl' := hc.layout (ht.layout hl)
    have hsync := hc.synced (ht.synced hs)
    have htable := (hc.keeps ht.inUse).toDataBlock
    exact ((sameMaps_block hl' hc.inUse.toDataBlock _ _ (Nat.le_refl _)).trans
      (sameMaps_block hl' htable _ _ (Nat.le_refl _))).blockMap hl' hsync

/-! ## What lies before the inode table -/

theorem diskInode_sb {part part' : Partition} (h : part'.sb = part.sb) (disk : Bytes) (m : Nat) :
    diskInode disk part' m = diskInode disk part m := by
  rw [diskInode, diskInode, inodeAddr, inodeAddr, h]

theorem Moved.slot {disk disk' : Bytes} {nd nd' : Inode} (h : Moved disk nd disk' nd')
    {q : Nat × Nat} (hq : q ∈ dirGrid) : ZhuOS.slot disk' nd' q = ZhuOS.slot disk nd q := by
  obtain ⟨hk, hj⟩ := mem_dirGrid.mp hq
  exact slot_sector hj (congrFun h.blockAt q.1) fun hne => h.same _ ⟨hne, .inr ⟨q.1, hk, rfl⟩⟩

section
variable {disk' : Bytes} (ht : FileTree fs dirs)
  (hsame : ∀ a, fs.part.sb.inodeTableLba.toNat * 512 ≤ a → disk' a = fs.disk a)
include hsame

theorem diskInode_table (m : Nat) : diskInode disk' fs.part m = diskInode fs.disk fs.part m :=
  diskInode_congr fun a hlo _ => hsame a (by unfold inodeAddr at hlo; omega)

include ht

theorem FileTree.sameBlocks (hown : OwnBlocks fs.disk fs.part nd) : Moved fs.disk nd disk' nd := by
  refine ⟨fun _ _ => rfl, fun lba hlba a hlo _ => hsame a ?_⟩
  have hstart := (hown.holds hlba).start
  have htable := ht.layout.table
  omega

/-- A tree does not depend on what lies before the inode table. -/
theorem FileTree.onDisk : FileTree { fs with disk := disk' } dirs := by
  have hrecord := diskInode_table hsame
  have hmoved := fun m (hm : dirs m) => ht.sameBlocks hsame (ht.ok m hm).toOwnBlocks
  have hblocks := fun m (hm : dirs m) => (hmoved m hm).blockAt
  have hentries := fun m (hm : dirs m) => (hmoved m hm).entries
  have hslots : ∀ m, dirs m → ∀ q ∈ dirGrid,
      slot disk' (diskInode fs.disk fs.part m) q = slot fs.disk (diskInode fs.disk fs.part m) q :=
    fun m hm q hq => (hmoved m hm).slot hq
  have htree : TreeOk { fs with disk := disk' } dirs :=
    { ht.toTreeOk with
      number := fun m hm => (hrecord m).symm ▸ ht.number m hm
      readable := fun m hm => by
        rw [hrecord]
        exact (hmoved m hm).readable (ht.readable m hm)
      stored := fun o ho hdir => by
        rw [hrecord]
        exact ht.stored o ho hdir
      listed := fun m hm => by
        rw [hrecord, hentries m hm]
        exact ht.listed m hm
      rootDots := fun m hm => by
        rw [hrecord, (hmoved 0 ht.root).lookup]
        exact ht.rootDots m hm }
  have hdisk : DiskTree { fs with disk := disk' } dirs :=
    { htree with
      layout := ht.layout
      low := ht.low
      ok := fun m hm => by
        rw [hrecord]
        exact (hmoved m hm).ok (fun _ ha => ha) (ht.ok m hm)
      apart := fun m k hm hk hne lba hlba => by
        rw [hrecord, (hmoved m hm).holds] at hlba
        rw [hrecord, (hmoved k hk).holds]
        exact ht.apart m k hm hk hne lba hlba
      marked := ht.marked }
  have hdots : DottedTree { fs with disk := disk' } dirs :=
    { hdisk with
      dots := fun m hm name hname => by
        obtain ⟨q, hq, e, he, hen⟩ := ht.dots m hm name hname
        rw [hrecord]
        exact ⟨q, hq, e, (hslots m hm q hq).trans he, hen⟩
      size := fun m hm => by
        rw [hrecord]
        have hsame : occupied dirGrid (slot disk' (diskInode fs.disk fs.part m)) =
            occupied dirGrid (slot fs.disk (diskInode fs.disk fs.part m)) :=
          Finset.filter_congr fun q hq => by rw [hslots m hm q hq]
        rw [hsame]
        exact ht.size m hm }
  exact
    { hdots with
      whole := fun m hm => by
        rw [hrecord]
        exact ht.whole m hm
      rootBlock := by
        rw [hrecord]
        exact ht.rootBlock
      numbers := fun m hm q hq r hr a b ha hb => by
        rw [hrecord, hslots m hm _ hq] at ha
        rw [hrecord, hslots m hm _ hr] at hb
        exact ht.numbers m hm q hq r hr a b ha hb
      file := fun m hm e he hname htype => by
        rw [hrecord, hentries m hm] at he
        obtain ⟨hproper, hat⟩ := ht.file m hm e he hname htype
        have hfile := ht.sameBlocks hsame hat.own
        refine ⟨hproper, ?_, hat.inMap, ?_, hat.notDir, ?_⟩
        · rw [hrecord]
          exact hat.number
        · rw [hrecord]
          exact hfile.own (fun _ ha => ha) hat.own
        · intro k hk lba hlba
          rw [hrecord, hfile.holds] at hlba
          rw [hrecord, (hmoved k hk).holds]
          exact hat.apart k hk lba hlba
      opened := fun o ho => by
        rw [hrecord]
        exact ht.opened o ho
      spare := ht.spare
      handles := ht.handles }

end

/-! ## An example -/

/-- `belowFs` with its bitmaps on the disk. -/
def mappedFs : Fs :=
  { belowFs with
    disk := syncInodeMap (syncBlockMap belowFs.disk belowFs.part 0) belowFs.part 0 }

theorem mappedFs_same (a : Nat) (ha : belowFs.part.sb.inodeTableLba.toNat * 512 ≤ a) :
    mappedFs.disk a = belowFs.disk a := by
  have ha : 4 * 512 ≤ a := ha
  have hinodes : belowFs.part.sb.inodeBitmapLba.toNat = 3 := rfl
  have hblocks : belowFs.part.sb.blockBitmapLba.toNat = 2 := rfl
  refine (blit_out (.inr ?_)).trans (blit_out (.inr ?_))
  · omega
  · omega

theorem mappedFs_inode (m : Nat) : diskInode mappedFs.disk mappedFs.part m =
    diskInode belowFs.disk belowFs.part m := diskInode_table mappedFs_same m

theorem mappedFs_moved {m : Nat} (hm : m < 3) : Moved belowFs.disk
    (diskInode belowFs.disk belowFs.part m) mappedFs.disk (diskInode belowFs.disk belowFs.part m) :=
  belowFs_files.sameBlocks mappedFs_same (belowFs_own hm)

theorem mappedFs_maps : BlockMapSynced mappedFs.disk mappedFs.part ∧
    InodeMapSynced mappedFs.disk mappedFs.part := by
  have hinodes : belowFs.part.sb.inodeBitmapLba.toNat = 3 := rfl
  have hblocks : belowFs.part.sb.blockBitmapLba.toNat = 2 := rfl
  constructor
  · intro a ha
    have ha : a < 512 := ha
    refine (blit_out (.inl ?_)).trans ((blit_in ?_ ?_).trans (congrArg _ ?_))
    all_goals
      rw [show mappedFs.part = belowFs.part from rfl]
      omega
  · intro a ha
    have ha : a < 512 := ha
    refine (blit_in ?_ ?_).trans (congrArg _ ?_)
    all_goals
      rw [show mappedFs.part = belowFs.part from rfl]
      omega

theorem mappedFs_listed : ∀ n < 3,
    ∀ e ∈ entries belowFs.disk (diskInode belowFs.disk belowFs.part n),
      e.fType ≠ FT_UNKNOWN → e.name ≠ [] ∧ e.fType = FT_DIRECTORY := by
  decide +kernel

theorem mappedFs_dot : ∀ n < 3, (slot belowFs.disk (diskInode belowFs.disk belowFs.part n)
    (0, 0)).any (fun e => decide (e.name = dot)) = true := by
  decide +kernel

/-- Three bits are set in each of the bitmaps. -/
theorem mappedFs_bit (i : Nat) :
    PackedBits.bit (fun i => if i = 0 then 7 else 0) i = true ↔ i < 3 := by
  by_cases hlow : i < 8
  · have hcheck : ∀ i < 8, PackedBits.bit (fun i => if i = 0 then 7 else 0) i = true ↔ i < 3 := by
      decide
    exact hcheck i hlow
  · have hzero : ¬ i / 8 = 0 := by omega
    have hclear : PackedBits.bit (fun i => if i = 0 then 7 else 0) i = false := by
      simp [PackedBits.bit, hzero]
    rw [hclear]
    simp only [Bool.false_eq_true, false_iff]
    omega

theorem mappedFs_noFile (n : Nat) : ¬ ListsFile mappedFs (fun n => n < 3) n := by
  rintro ⟨p, hp, e, he, -, htype, -⟩
  rw [mappedFs_inode, (mappedFs_moved hp).entries] at he
  have hdir := (mappedFs_listed p hp e he (by rw [htype]; decide)).2
  rw [htype] at hdir
  exact absurd hdir (by decide)

theorem mappedFs_uses {a : UInt32} (ha : UsesBlock mappedFs (fun n => n < 3) a) :
    ∃ m < 3, a.toNat = 612 + m := by
  obtain ⟨m, hm, hne, huse⟩ | ⟨m, hm, -⟩ := ha
  · rw [mappedFs_inode] at huse
    refine ⟨m, hm, belowFs_has hm ((mappedFs_moved hm).holds.mp ⟨hne, ?_⟩)⟩
    exact huse.imp_right fun ⟨k, hk, hb, _⟩ => ⟨k, hk, hb⟩
  · exact absurd hm (mappedFs_noFile m)

theorem mappedFs_first {m : Nat} (hm : m < 3) :
    ∃ a : UInt32, UsesBlock mappedFs (fun n => n < 3) a ∧ a.toNat = 612 + m := by
  have hblock := belowFs_blocks m hm 0 (by decide)
  rw [if_pos rfl] at hblock
  refine ⟨_, .inl ⟨m, hm, ?_, .inr ⟨0, by decide, ?_, .inl rfl⟩⟩, hblock⟩
  · intro hz
    rw [hz] at hblock
    exact absurd hblock (by simp; omega)
  · rw [mappedFs_inode, (mappedFs_moved hm).blockAt]

theorem mappedFs_consistent : ConsistentFs mappedFs fun n => n < 3 where
  toFileTree := belowFs_files.onDisk mappedFs_same
  blockMap := mappedFs_maps.1
  inodeMap := mappedFs_maps.2
  blocks i hi := by
    have hstart : mappedFs.part.sb.dataStartLba.toNat = 612 := rfl
    refine (mappedFs_bit i).trans ⟨fun hlow => ?_, ?_⟩
    · obtain ⟨a, ha, haddr⟩ := mappedFs_first hlow
      refine ⟨a, ha, ?_⟩
      unfold blockIdx
      omega
    · rintro ⟨a, ha, rfl⟩
      obtain ⟨m, hm, haddr⟩ := mappedFs_uses ha
      unfold blockIdx
      omega
  inodes i hi := (mappedFs_bit i).trans (or_iff_left (mappedFs_noFile i)).symm
  named p hp e he hlive := by
    rw [mappedFs_inode, (mappedFs_moved hp).entries] at he
    exact (mappedFs_listed p hp e he hlive).1
  firstDot p hp := by
    obtain ⟨e, he, hname⟩ := (Option.any_eq_true _ _).mp (mappedFs_dot p hp)
    refine ⟨0, by decide, e, ?_, of_decide_eq_true hname⟩
    rw [mappedFs_inode, (mappedFs_moved hp).slot (pair_mem_dirGrid (by decide) (by decide))]
    exact he
  bounded p hp := by
    rw [mappedFs_inode]
    have hcheck : ∀ n < 3, (diskInode belowFs.disk belowFs.part n).iSize.toNat + 24 < 2 ^ 32 := by
      decide +kernel
    exact hcheck p hp
  cached o ho := by
    rw [List.mem_singleton.mp ho]
    decide

theorem mappedFs_step {d : UInt32} (hd : d.toNat < 3) (name : List UInt8) :
    walkStep mappedFs.disk mappedFs.part (d, FT_DIRECTORY) name =
      walkStep belowFs.disk belowFs.part (d, FT_DIRECTORY) name := by
  rw [walkStep_dir, walkStep_dir, mappedFs_inode, (mappedFs_moved hd).lookup]

end ZhuOS
