import ZhuOS.Around

/-!
# One number more

A directory or a file comes with an entry in its parent. The file system stays sound.
-/

namespace ZhuOS

open ByteMem Slots

set_option maxRecDepth 2000

variable {fs fs' : Fs} {dirs files : Nat → Prop} {disk : Bytes} {nd : Inode} {s s₀ : NodeState}
  {de : DirEntry} {n m p : Nat} {q : Nat × Nat} {a : UInt32}

/-! ## The parent directory -/

/-- The blocks of a directory without a table. -/
theorem hasBlock_direct (hnone : nd.iSectors 12 = 0) :
    HasBlock disk nd a ↔ a ≠ 0 ∧ ∃ k < 12, nd.iSectors k = a := by
  refine and_congr_right fun hne => ?_
  constructor
  · rintro (rfl | ⟨k, hk, rfl⟩)
    · exact absurd hnone hne
    · have hk12 : k < 12 := by
        by_contra hfar
        exact hne (blockAt_noTable hnone (by omega))
      exact ⟨k, hk12, (blockAt_direct hk12).symm⟩
  · rintro ⟨k, hk, rfl⟩
    exact .inr ⟨k, by omega, blockAt_direct hk⟩

namespace SlotFilled

variable (h : SlotFilled s₀ s q de) (hnone : s₀.inode.iSectors 12 = 0)
include h hnone

theorem noTable : s.inode.iSectors 12 = 0 := by
  obtain ⟨hsectors, -⟩ | ⟨lba, disk, -, -, hsectors⟩ := h.blocks
  · rw [hsectors]
    exact hnone
  · have hfar := h.direct
    rw [hsectors, if_neg (by omega)]
    exact hnone

/-- A block of the directory was one before, or was free. -/
theorem block_cases (ha : HasBlock s.disk s.inode a) :
    HasBlock s₀.disk s₀.inode a ∨ ¬ InUse s₀.part a := by
  rw [hasBlock_direct (h.noTable hnone)] at ha
  rw [hasBlock_direct hnone]
  obtain ⟨hne, k, hk, rfl⟩ := ha
  obtain ⟨hsectors, -⟩ | ⟨lba, disk, -, hclaim, hsectors⟩ := h.blocks
  · rw [hsectors] at hne ⊢
    exact .inl ⟨hne, k, hk, rfl⟩
  · rw [hsectors] at hne ⊢
    by_cases hkq : k = q.1
    · rw [if_pos hkq]
      exact .inr hclaim.unused
    · rw [if_neg hkq] at hne ⊢
      exact .inl ⟨hne, k, hk, rfl⟩

theorem block_kept (ha : HasBlock s₀.disk s₀.inode a) : HasBlock s.disk s.inode a := by
  rw [hasBlock_direct hnone] at ha
  rw [hasBlock_direct (h.noTable hnone)]
  obtain ⟨hne, k, hk, rfl⟩ := ha
  obtain ⟨hsectors, -⟩ | ⟨lba, disk, hz, -, hsectors⟩ := h.blocks
  · rw [hsectors]
    exact ⟨hne, k, hk, rfl⟩
  · have hkq : k ≠ q.1 := by
      rintro rfl
      exact hne hz
    exact ⟨hne, k, hk, by rw [hsectors, if_neg hkq]⟩

/-- What is marked was marked, or is a block of the directory. -/
theorem marks (hl : DiskLayout s₀.part) {j : Nat} (hset : s.part.blockBitmap.bit j = true) :
    s₀.part.blockBitmap.bit j = true ∨
      ∃ a, HasBlock s.disk s.inode a ∧ blockIdx s₀.part a = j := by
  obtain ⟨-, hpart⟩ | ⟨lba, disk, -, hclaim, hsectors⟩ := h.blocks
  · rw [hpart] at hset
    exact .inl hset
  · rw [hclaim.part_eq, setBlock_bit] at hset
    by_cases hj : j = blockIdx s₀.part lba
    · refine .inr ⟨lba, ?_, hj.symm⟩
      rw [hasBlock_direct (h.noTable hnone)]
      exact ⟨hclaim.block.ne_zero hl, q.1, h.direct, by rw [hsectors, if_pos rfl]⟩
    · rw [if_neg hj] at hset
      exact .inl hset

end SlotFilled

/-- A directory with one entry more keeps its shape. -/
theorem DirShape.filled (hs : DirShape s₀.disk s₀.inode) (hf : SlotFilled s₀ s q de.stored)
    (hi : Inserted s₀ de s) (hl : DiskLayout s₀.part) (hown : OwnBlocks s₀.disk s₀.part s₀.inode)
    (hlive : de.stored.fType ≠ FT_UNKNOWN)
    (hname : de.stored.name ≠ [] ∧ de.stored.name.length < MAX_FILE_NAME_LEN)
    (hproper : de.stored.Proper)
    (hnew : ∀ r ∈ dirGrid, ∀ e, slot s₀.disk s₀.inode r = some e → e.name ≠ de.stored.name) :
    DirShape s.disk s.inode where
  unnamed e he hfree := by
    by_contra hne
    have hold : e ∈ entries s₀.disk s₀.inode ∨ e = de.stored := by
      obtain ⟨-, hadds⟩ | ⟨-, hadds⟩ := hi.adds hl hown hs.unnamed
      · exact hadds.only e he hne
      · refine (hadds.only e he hne).imp_left fun hold => ?_
        rw [entries_split]
        exact List.mem_append_left _ hold
    obtain hold | rfl := hold
    · exact hne (hs.unnamed e hold hfree)
    · exact hlive hfree
  once := hf.put.keyOnce hs.once fun r hr b hb _ => hnew r hr b hb
  noTable := hf.noTable hs.noTable
  named r hr e he := by
    obtain ⟨-, rfl⟩ | ⟨-, hold⟩ := hf.put.cases hr he
    · exact hname
    · exact hs.named r hr e hold
  dots name hdots := by
    obtain ⟨j, hj, e, he, hen⟩ := hs.dots name hdots
    exact ⟨j, hj, e, hf.put.keeps (pair_mem_dirGrid (by decide) hj) he, hen⟩
  size := by
    have hbound := hs.bounded
    have hold := hs.size
    have hcard := hf.put.card
    have h24 : (24 : UInt32).toNat = 24 := rfl
    rw [hf.size, UInt32.toNat_add, h24]
    omega
  held k hk hk0 hne := by
    by_cases hz : s₀.inode.iSectors k = 0
    · obtain ⟨hsectors, -⟩ | ⟨lba, disk, -, -, hsectors⟩ := hf.blocks
      · rw [hsectors] at hne
        exact absurd hz hne
      · have hkq : k = q.1 := by
          by_contra hkq
          rw [hsectors, if_neg hkq] at hne
          exact hne hz
        subst hkq
        exact ⟨q.2, (mem_dirGrid.mp hf.put.mem).2, de.stored, hf.put.self, hproper⟩
    · obtain ⟨j, hj, e, he, hp⟩ := hs.held k hk hk0 hz
      exact ⟨j, hj, e, hf.put.keeps (pair_mem_dirGrid (by omega) hj) he, hp⟩

/-! ## The new number -/

/-- The number `n` is new, with the inode `nd` and the entry `de` in the slot `q` of `p`. -/
structure Gains (fs fs' : Fs) (dirs : Nat → Prop) (p n : Nat) (q : Nat × Nat) (s₀ : NodeState)
    (de : DirEntry) (s : NodeState) (nd : Inode) : Prop where
  entered : Entered fs dirs p n s₀ de s fs'.disk
  settled : Settled fs p s fs'.disk fs'
  filled : SlotFilled s₀ s q de.stored
  entryNo : de.stored.iNo = .ofNat n
  kind : de.stored.fType = FT_REGULAR ∨ de.stored.fType = FT_DIRECTORY
  name : de.stored.name ≠ [] ∧ de.stored.name.length < MAX_FILE_NAME_LEN
  unlisted : lookup fs.disk (diskInode fs.disk fs.part p) de.stored.name = none
  free : fs.part.inodeBitmap.bit n = false
  inMap : n < fs.part.inodeBitmap.size
  low : n < 256
  inodeBitmap : fs'.part.inodeBitmap = bitmapSet fs.part.inodeBitmap n true
  heap : fs'.heap = fun _ => true
  blockMap : BlockMapSynced fs'.disk fs'.part
  inodeMap : InodeMapSynced fs'.disk fs'.part
  handles : ∀ k r, (fs'.fileTable k).fdInode = some r → (fs.fileTable k).fdInode = some r
  number : nd.iNo.toNat = n
  record : Inode.SameStored (diskInode fs'.disk fs'.part n) nd
  own : OwnBlocks fs'.disk fs'.part nd
  keeps : ∀ a, InUse s.part a → InUse fs'.part a
  new : ∀ a, HasBlock fs'.disk nd a → ¬ InUse fs.part a ∧ ¬ HasBlock s.disk s.inode a
  size : fs'.part.blockBitmap.size = fs.part.blockBitmap.size
  marks : ∀ j < fs.part.blockBitmap.size, fs'.part.blockBitmap.bit j = true →
    fs.part.blockBitmap.bit j = true ∨
      (∃ a, HasBlock s.disk s.inode a ∧ blockIdx fs.part a = j) ∨
        ∃ a, HasBlock fs'.disk nd a ∧ blockIdx fs.part a = j

/-- A new directory has `.` and `..` alone, a new file has its blocks. -/
structure NewNode (fs' : Fs) (p n : Nat) (fType : UInt32) : Prop where
  file : fType = FT_REGULAR → ∃ k, FileOk fs'.disk fs'.part (diskInode fs'.disk fs'.part n) k
  shape : fType = FT_DIRECTORY → DirShape fs'.disk (diskInode fs'.disk fs'.part n)
  dots : fType = FT_DIRECTORY → ∀ q e, LiesIn fs' n q e →
    ¬ e.Proper ∧ e.fType = FT_DIRECTORY ∧ (e.iNo.toNat = n ∨ e.iNo.toNat = p)

/-- `old` with the number `n`, if it is one of them. -/
def withNew (old : Nat → Prop) (n : Nat) (is : Prop) (m : Nat) : Prop := old m ∨ is ∧ m = n

theorem withNew_cases {is is' : Prop} (hm : withNew dirs n is m ∨ withNew files n is' m) :
    (dirs m ∨ files m) ∨ m = n := by
  obtain (hold | ⟨-, hnew⟩) | (hold | ⟨-, hnew⟩) := hm
  · exact .inl (.inl hold)
  · exact .inr hnew
  · exact .inl (.inr hold)
  · exact .inr hnew

namespace Gains

variable (g : Gains fs fs' dirs p n q s₀ de s nd)
include g

theorem newToNat : (UInt32.ofNat n).toNat = n := by
  have hlow := g.low
  rw [UInt32.toNat_ofNat']
  omega

theorem live : de.stored.fType ≠ FT_UNKNOWN := by
  obtain htype | htype := g.kind
  · rw [htype]
    decide
  · rw [htype]
    decide

theorem parentMoved : Moved s.disk s.inode fs'.disk (diskInode fs'.disk fs'.part p) := by
  rw [g.settled.record]
  exact g.entered.parentFinal

theorem put : Put dirGrid (slot fs.disk (diskInode fs.disk fs.part p))
    (slot fs'.disk (diskInode fs'.disk fs'.part p)) q de.stored where
  mem := g.filled.put.mem
  free := (g.entered.parentMoved.slot g.filled.put.mem).symm.trans g.filled.put.free
  self := (g.parentMoved.slot g.filled.put.mem).trans g.filled.put.self
  other r hr hrq := by
    rw [g.parentMoved.slot hr, g.filled.put.other r hr hrq, g.entered.parentMoved.slot hr]

variable (h : SoundFs fs dirs files)
include h

theorem ne_new (hm : dirs m ∨ files m) : m ≠ n := by
  rintro rfl
  have hfree := g.free
  rw [(h.numbers m g.inMap).mpr hm] at hfree
  cases hfree

theorem noTable : s₀.inode.iSectors 12 = 0 :=
  (g.entered.stored.iSectors 12 (by decide)).trans (h.shape p g.entered.isDir).noTable

theorem unlisted_slot : ∀ r ∈ dirGrid, ∀ e, slot s₀.disk s₀.inode r = some e →
    e.name ≠ de.stored.name := by
  intro r hr e he hname
  rw [g.entered.parentMoved.slot hr] at he
  have hfound := ((h.shape p g.entered.isDir).toNamed.lookup_iff g.name.1).mpr ⟨r, hr, he, hname⟩
  rw [g.unlisted] at hfound
  cases hfound

theorem proper : de.stored.Proper := by
  refine not_or.mp fun hdots => ?_
  obtain ⟨j, hj, e, he, hname⟩ := (h.shape p g.entered.isDir).dots _ hdots
  have hq := pair_mem_dirGrid (by decide : 0 < 140) hj
  exact g.unlisted_slot h _ hq e ((g.entered.parentMoved.slot hq).trans he) hname

/-- A block of the parent was one before, or was free. -/
theorem parent_cases (ha : HasBlock s.disk s.inode a) :
    HasBlock fs.disk (diskInode fs.disk fs.part p) a ∨ ¬ InUse fs.part a := by
  obtain hold | hfree := g.filled.block_cases (g.noTable h) ha
  · exact .inl (g.entered.parentMoved.holds.mp hold)
  · exact .inr fun hused => hfree (g.entered.startKeeps a hused)

theorem parent_kept (ha : HasBlock fs.disk (diskInode fs.disk fs.part p) a) :
    HasBlock s.disk s.inode a :=
  g.filled.block_kept (g.noTable h) (g.entered.parentMoved.holds.mpr ha)

theorem around : Around fs fs' p s.inode fun m => dirs m ∨ files m where
  sb := g.settled.sb
  layout := g.settled.layout
  heap := g.heap
  blockMap := g.blockMap
  inodeMap := g.inodeMap
  rootDir := g.settled.rootDir
  opened := g.settled.opened
  handles := g.handles
  parentNo := g.entered.nodeNo
  parent := by
    rw [g.settled.record]
    exact g.entered.parentRecord
  record m hm hne := by
    have hlow := (h.low m hm).1
    rw [g.settled.record]
    exact g.entered.recordSame m (by omega) hne (g.ne_new h hm)
  data m hm hne a ha := by
    have hused := (h.ownUsed hm).holds ha
    have hother : ¬ HasBlock s₀.disk s₀.inode a := by
      rw [g.entered.parentMoved.holds]
      exact h.apart m p hm (.inl g.entered.isDir) hne a ha
    have hstart := g.entered.startKeeps a hused
    have hins := g.entered.inserted.keeps hstart
    exact ⟨g.keeps a hins, (g.entered.dataSame a hins).trans
      ((g.entered.inserted.same g.entered.startLayout hstart hother).trans
        (g.entered.startSame a hused))⟩

/-- What lies in a directory lay there, or is the new entry. -/
theorem lies_cases (hm : dirs m) {r : Nat × Nat} {e : DirEntry} (he : LiesIn fs' m r e) :
    m = p ∧ r = q ∧ e = de.stored ∨ LiesIn fs m r e := by
  by_cases hp : m = p
  · subst hp
    obtain ⟨hr, he⟩ := he
    obtain ⟨rfl, rfl⟩ | ⟨-, hold⟩ := g.put.cases hr he
    · exact .inl ⟨rfl, rfl, rfl⟩
    · exact .inr ⟨hr, hold⟩
  · exact .inr (((g.around h).liesIn (.inl hm) hp).mp he)

theorem lies_kept (hm : dirs m) {r : Nat × Nat} {e : DirEntry} (he : LiesIn fs m r e) :
    LiesIn fs' m r e := by
  by_cases hp : m = p
  · subst hp
    exact ⟨he.1, g.put.keeps he.1 he.2⟩
  · exact ((g.around h).liesIn (.inl hm) hp).mpr he

/-- The blocks of a number that was in use. -/
theorem old_cases (hm : dirs m ∨ files m)
    (ha : HasBlock fs'.disk (diskInode fs'.disk fs'.part m) a) :
    HasBlock fs.disk (diskInode fs.disk fs.part m) a ∨
      m = p ∧ ¬ InUse fs.part a ∧ HasBlock s.disk s.inode a := by
  by_cases hp : m = p
  · subst hp
    have hs := g.parentMoved.holds.mp ha
    exact (g.parent_cases h hs).imp_right fun hfree => ⟨rfl, hfree, hs⟩
  · exact .inl (((g.around h).moved hm hp).holds.mp ha)

theorem old_kept (hm : dirs m ∨ files m)
    (ha : HasBlock fs.disk (diskInode fs.disk fs.part m) a) :
    HasBlock fs'.disk (diskInode fs'.disk fs'.part m) a := by
  by_cases hp : m = p
  · subst hp
    exact g.parentMoved.holds.mpr (g.parent_kept h ha)
  · exact ((g.around h).moved hm hp).holds.mpr ha

/-- The new number has no block of another. -/
theorem new_apart (hm : dirs m ∨ files m)
    (ha : HasBlock fs'.disk (diskInode fs'.disk fs'.part n) a) :
    ¬ HasBlock fs'.disk (diskInode fs'.disk fs'.part m) a := by
  obtain ⟨hfree, hparent⟩ := g.new a ((moved_stored _ g.record).holds.mp ha)
  intro hm'
  obtain hold | ⟨-, -, hs⟩ := g.old_cases h hm hm'
  · exact hfree ((h.ownUsed hm).holds hold)
  · exact hparent hs

theorem old_apart {k : Nat} (hm : dirs m ∨ files m) (hk : dirs k ∨ files k) (hne : m ≠ k)
    (ha : HasBlock fs'.disk (diskInode fs'.disk fs'.part m) a) :
    ¬ HasBlock fs'.disk (diskInode fs'.disk fs'.part k) a := by
  intro ha'
  obtain hold | ⟨rfl, hfree, -⟩ := g.old_cases h hm ha
  · obtain hold' | ⟨rfl, hfree, -⟩ := g.old_cases h hk ha'
    · exact h.apart m k hm hk hne a hold hold'
    · exact hfree ((h.ownUsed hm).holds hold)
  · obtain hold' | ⟨hk', -, -⟩ := g.old_cases h hk ha'
    · exact hfree ((h.ownUsed hk).holds hold')
    · exact hne hk'.symm

theorem old_shape (hm : dirs m) : DirShape fs'.disk (diskInode fs'.disk fs'.part m) := by
  by_cases hp : m = p
  · subst hp
    have hstart := g.entered.parentMoved.shape g.entered.stored.iSize (h.shape m hm)
    have hsame : (diskInode fs'.disk fs'.part m).iSize = s.inode.iSize := by
      rw [g.settled.record, g.entered.parentRecord.iSize]
    exact g.parentMoved.shape hsame (hstart.filled g.filled g.entered.inserted
      g.entered.startLayout g.entered.parentOk.toOwnBlocks g.live g.name (g.proper h)
      (g.unlisted_slot h))
  · exact ((g.around h).moved (.inl hm) hp).shape ((g.around h).size (.inl hm) hp) (h.shape m hm)

theorem old_own (hm : dirs m) :
    OwnBlocks fs'.disk fs'.part (diskInode fs'.disk fs'.part m) := by
  by_cases hp : m = p
  · subst hp
    exact g.parentMoved.own g.keeps g.entered.parentOwn
  · exact ((g.around h).moved (.inl hm) hp).ownOf ((g.around h).inUse (.inl hm) hp) (h.own m hm)

theorem old_number (hm : dirs m ∨ files m) :
    (diskInode fs'.disk fs'.part m).iNo.toNat = m := by
  by_cases hp : m = p
  · subst hp
    rw [(g.around h).parent.iNo]
    exact g.entered.nodeNo
  · rw [(g.around h).record m hm hp]
    exact h.number m hm

theorem old_file (hm : files m) :
    ∃ k, FileOk fs'.disk fs'.part (diskInode fs'.disk fs'.part m) k := by
  have hp : m ≠ p := fun he => h.kinds p g.entered.isDir (he ▸ hm)
  obtain ⟨k, hok⟩ := h.file m hm
  exact ⟨k, ((g.around h).moved (.inr hm) hp).fileOk ((g.around h).size (.inr hm) hp) h.layout
    ((g.around h).inUse (.inr hm) hp) hok⟩

/-- An entry that leads to a number leads to one that is in use. -/
theorem lies_new {r : Nat × Nat} {e : DirEntry} (hm : dirs m) (he : LiesIn fs m r e) :
    e.iNo ≠ .ofNat n := by
  intro hno
  have hne : e.iNo.toNat ≠ n := by
    obtain ⟨-, ⟨-, -, hfile⟩ | hdir⟩ := h.listed m hm r e he
    · exact g.ne_new h (.inr hfile)
    · exact g.ne_new h (.inl hdir.2)
  exact hne (by rw [hno, g.newToNat])

/-- The file system stays sound. -/
theorem sound (hnode : NewNode fs' p n de.stored.fType) : SoundFs fs'
    (withNew dirs n (de.stored.fType = FT_DIRECTORY))
    (withNew files n (de.stored.fType = FT_REGULAR)) where
  layout := g.settled.layout
  heap := g.heap
  blockMap := g.blockMap
  inodeMap := g.inodeMap
  root := .inl h.root
  rootBlock := by
    rw [g.settled.sb]
    by_cases hp : 0 = p
    · have hfirst : s₀.inode.iSectors 0 = fs.part.sb.dataStartLba := by
        rw [g.entered.stored.iSectors 0 (by decide), ← hp]
        exact h.rootBlock
      have hne : s₀.inode.iSectors 0 ≠ 0 := by
        rw [hfirst]
        exact h.fileTree.rootUse.2.1
      have hparent := (g.around h).parent.iSectors 0 (by decide)
      rw [← hp] at hparent
      rw [hparent, ← hfirst]
      obtain ⟨hsectors, -⟩ | ⟨lba, disk, hz, -, hsectors⟩ := g.filled.blocks
      · rw [hsectors]
      · rw [hsectors, if_neg]
        intro hq
        rw [← hq] at hz
        exact hne hz
    · rw [(g.around h).record 0 (.inl h.root) hp]
      exact h.rootBlock
  kinds m := by
    rintro (hdir | ⟨htype, rfl⟩) (hfile | ⟨htype', hm⟩)
    · exact h.kinds m hdir hfile
    · exact g.ne_new h (.inl hdir) hm
    · exact g.ne_new h (.inr hfile) rfl
    · rw [htype] at htype'
      exact absurd htype' (by decide)
  numbers m hm := by
    rw [g.inodeBitmap] at hm ⊢
    rw [bitmapSet_bit]
    by_cases hmn : m = n
    · rw [if_pos hmn]
      refine ⟨fun _ => ?_, fun _ => rfl⟩
      obtain htype | htype := g.kind
      · exact .inr (.inr ⟨htype, hmn⟩)
      · exact .inl (.inr ⟨htype, hmn⟩)
    · rw [if_neg hmn, h.numbers m hm]
      constructor
      · exact fun hold => hold.imp .inl .inl
      · exact fun hused => (withNew_cases hused).resolve_right hmn
  low m hm := by
    rw [g.inodeBitmap]
    obtain hold | rfl := withNew_cases hm
    · exact h.low m hold
    · exact ⟨g.low, g.inMap⟩
  number m hm := by
    obtain hold | rfl := withNew_cases hm
    · exact g.old_number h hold
    · rw [g.record.iNo]
      exact g.number
  own m hm := by
    obtain hold | ⟨-, rfl⟩ := hm
    · exact g.old_own h hold
    · exact (moved_stored _ g.record).own (fun _ ha => ha) g.own
  apart m k hm hk hne a ha := by
    obtain hold | rfl := withNew_cases hm
    · obtain hold' | rfl := withNew_cases hk
      · exact g.old_apart h hold hold' hne ha
      · exact fun ha' => g.new_apart h hold ha' ha
    · obtain hold' | rfl := withNew_cases hk
      · exact g.new_apart h hold' ha
      · exact absurd rfl hne
  marks j hj hset := by
    rw [g.size] at hj
    simp only [blockIdx_sb g.settled.sb]
    obtain hold | ⟨a, ha, hidx⟩ | ⟨a, ha, hidx⟩ := g.marks j hj hset
    · obtain ⟨m, a, hm, ha, hidx⟩ := h.marks j hj hold
      exact ⟨m, a, hm.imp .inl .inl, g.old_kept h hm ha, hidx⟩
    · exact ⟨p, a, .inl (.inl g.entered.isDir), g.parentMoved.holds.mpr ha, hidx⟩
    · refine ⟨n, a, ?_, (moved_stored _ g.record).holds.mpr ha, hidx⟩
      obtain htype | htype := g.kind
      · exact .inr (.inr ⟨htype, rfl⟩)
      · exact .inl (.inr ⟨htype, rfl⟩)
  shape m hm := by
    obtain hold | ⟨htype, rfl⟩ := hm
    · exact g.old_shape h hold
    · exact hnode.shape htype
  file m hm := by
    obtain hold | ⟨htype, rfl⟩ := hm
    · exact g.old_file h hold
    · exact hnode.file htype
  listed m hm r e he := by
    obtain hold | ⟨htype, rfl⟩ := hm
    · obtain ⟨rfl, rfl, rfl⟩ | hlies := g.lies_cases h hold he
      · have hne : n ≠ 0 := fun hz => g.ne_new h (.inl h.root) hz.symm
        rw [g.entryNo, g.newToNat]
        refine ⟨fun _ hz => hne ?_, ?_⟩
        · rw [← g.newToNat, hz]
          rfl
        · obtain htype | htype := g.kind
          · exact .inl ⟨htype, g.proper h, .inr ⟨htype, rfl⟩⟩
          · exact .inr ⟨htype, .inr ⟨htype, rfl⟩⟩
      · obtain ⟨hzero, hold'⟩ := h.listed m hold r e hlies
        exact ⟨hzero, hold'.imp (fun hf => ⟨hf.1, hf.2.1, .inl hf.2.2⟩)
          fun hd => ⟨hd.1, .inl hd.2⟩⟩
    · obtain ⟨hnot, hdir, hno⟩ := hnode.dots htype r e he
      refine ⟨fun hproper => absurd hproper hnot, .inr ⟨hdir, ?_⟩⟩
      obtain hno | hno := hno
      · exact .inr ⟨htype, hno⟩
      · exact .inl (hno ▸ g.entered.isDir)
  once m k r x e e' hm hk he he' hproper hproper' hsame := by
    have hold : ∀ {m r e}, withNew dirs n (de.stored.fType = FT_DIRECTORY) m →
        LiesIn fs' m r e → e.Proper → dirs m := by
      intro m r e hm he hproper
      obtain hold | ⟨htype, rfl⟩ := hm
      · exact hold
      · exact absurd hproper (hnode.dots htype r e he).1
    have hdir := hold hm he hproper
    have hdir' := hold hk he' hproper'
    obtain ⟨rfl, rfl, rfl⟩ | hlies := g.lies_cases h hdir he
    · obtain ⟨rfl, rfl, -⟩ | hlies' := g.lies_cases h hdir' he'
      · exact ⟨rfl, rfl⟩
      · rw [g.entryNo] at hsame
        exact absurd hsame.symm (g.lies_new h hdir' hlies')
    · obtain ⟨rfl, rfl, rfl⟩ | hlies' := g.lies_cases h hdir' he'
      · rw [g.entryNo] at hsame
        exact absurd hsame (g.lies_new h hdir hlies)
      · exact h.once m k r x e e' hdir hdir' hlies hlies' hproper hproper' hsame
  filed m hm := by
    obtain hold | ⟨htype, rfl⟩ := hm
    · obtain ⟨k, r, e, hk, he, hproper, hno⟩ := h.filed m hold
      exact ⟨k, r, e, .inl hk, g.lies_kept h hk he, hproper, hno⟩
    · refine ⟨p, q, de.stored, .inl g.entered.isDir, ⟨g.put.mem, g.put.self⟩, g.proper h, ?_⟩
      rw [g.entryNo, g.newToNat]
  rootDots r e he hnot := by
    obtain ⟨-, -, rfl⟩ | hlies := g.lies_cases h h.root he
    · exact absurd (g.proper h) hnot
    · exact h.rootDots r e hlies hnot
  opened o ho :=
    ((g.around h).stored h.opened (fun _ hm => .inl hm) ho).imp_left .inl
  openOk := by
    rw [g.settled.opened]
    exact h.openOk.refresh g.entered.nodeNo
  rootOpen := (g.around h).rootOpen h.rootOpen
  spare := (g.around h).spare h.spare
  handles i hi r hr := by
    rw [(g.around h).refs]
    exact h.handles i hi r (g.handles i r hr)

end Gains

end ZhuOS
