import ZhuOS.DirBooks
import ZhuOS.Unlinked

/-!
# Sound file systems

What holds between the calls: every number that is marked is that of a directory or a file, which
has its own blocks and one entry, and every block that is marked belongs to one of them. A sound
file system is consistent.
-/

namespace ZhuOS

open ByteMem Slots

set_option maxRecDepth 2000

/-- A directory in its direct blocks: its names occur once, `.` and `..` lie in the first block,
the size counts the entries and each other block holds one. -/
structure DirShape (disk : Bytes) (nd : Inode) : Prop extends Named disk nd where
  noTable : nd.iSectors 12 = 0
  named : ∀ q ∈ dirGrid, ∀ e, slot disk nd q = some e →
    e.name ≠ [] ∧ e.name.length < MAX_FILE_NAME_LEN
  dots : ∀ name, name = dot ∨ name = dotDot →
    ∃ j < 21, ∃ e, slot disk nd (0, j) = some e ∧ e.name = name
  size : nd.iSize.toNat = 24 * (occupied dirGrid (slot disk nd)).card
  held : ∀ k < 12, k ≠ 0 → nd.iSectors k ≠ 0 → HoldsEntry disk nd k

/-- The entry `e` lies in the slot `q` of the directory `p`. -/
def LiesIn (fs : Fs) (p : Nat) (q : Nat × Nat) (e : DirEntry) : Prop :=
  q ∈ dirGrid ∧ slot fs.disk (diskInode fs.disk fs.part p) q = some e

/-- The directories `dirs` and the files `files`, all of them closed but for directories. -/
structure SoundFs (fs : Fs) (dirs files : Nat → Prop) : Prop where
  layout : DiskLayout fs.part
  heap : fs.heap = fun _ => true
  blockMap : BlockMapSynced fs.disk fs.part
  inodeMap : InodeMapSynced fs.disk fs.part
  root : dirs 0
  rootBlock : (diskInode fs.disk fs.part 0).iSectors 0 = fs.part.sb.dataStartLba
  kinds : ∀ n, dirs n → ¬ files n
  numbers : ∀ n < fs.part.inodeBitmap.size,
    fs.part.inodeBitmap.bit n = true ↔ dirs n ∨ files n
  low : ∀ n, dirs n ∨ files n → n < 256 ∧ n < fs.part.inodeBitmap.size
  number : ∀ n, dirs n ∨ files n → (diskInode fs.disk fs.part n).iNo.toNat = n
  own : ∀ n, dirs n → OwnBlocks fs.disk fs.part (diskInode fs.disk fs.part n)
  apart : ∀ n m, dirs n ∨ files n → dirs m ∨ files m → n ≠ m → ∀ a,
    HasBlock fs.disk (diskInode fs.disk fs.part n) a →
      ¬ HasBlock fs.disk (diskInode fs.disk fs.part m) a
  marks : ∀ i < fs.part.blockBitmap.size, fs.part.blockBitmap.bit i = true →
    ∃ n a, (dirs n ∨ files n) ∧ HasBlock fs.disk (diskInode fs.disk fs.part n) a ∧
      blockIdx fs.part a = i
  shape : ∀ n, dirs n → DirShape fs.disk (diskInode fs.disk fs.part n)
  file : ∀ n, files n → ∃ k, FileOk fs.disk fs.part (diskInode fs.disk fs.part n) k
  listed : ∀ p, dirs p → ∀ q e, LiesIn fs p q e → (e.Proper → e.iNo ≠ 0) ∧
    (e.fType = FT_REGULAR ∧ e.Proper ∧ files e.iNo.toNat ∨
      e.fType = FT_DIRECTORY ∧ dirs e.iNo.toNat)
  once : ∀ p p' q q' e e', dirs p → dirs p' → LiesIn fs p q e → LiesIn fs p' q' e' →
    e.Proper → e'.Proper → e.iNo = e'.iNo → p = p' ∧ q = q'
  filed : ∀ n, files n → ∃ p q e, dirs p ∧ LiesIn fs p q e ∧ e.Proper ∧ e.iNo.toNat = n
  rootDots : ∀ q e, LiesIn fs 0 q e → ¬ e.Proper → e.iNo = 0
  opened : ∀ o ∈ fs.part.openInodes, dirs o.inode.iNo.toNat ∧
    Inode.SameStored o.inode (diskInode fs.disk fs.part o.inode.iNo.toNat)
  openOk : OpenOk fs.part.openInodes
  rootOpen : ∃ o ∈ fs.part.openInodes, o.ref = fs.rootDir ∧ o.inode.iNo = 0
  spare : Room 3 fs.part.openInodes
  handles : ∀ i < MAX_FILE_OPEN, ∀ ref, (fs.fileTable i).fdInode = some ref →
    ref ∈ fs.part.openInodes.map (·.ref)

variable {disk : Bytes} {part : Partition} {nd : Inode} {fs : Fs} {dirs files : Nat → Prop}
  {n p : Nat} {e : DirEntry}

theorem PathName.searchFits {path : List UInt8} (h : PathName path) : SearchFits fs path := by
  refine .inr ⟨h.absolute, fun _ c _ _ hc _ => ?_⟩
  have hshort := h.short c (hc ▸ by simp)
  exact ⟨hshort.le, fun _ => hshort⟩

/-! ## A directory is in order -/

namespace DirShape

variable (h : DirShape disk nd)
include h

/-- What is listed has no name, or lies in a slot. -/
theorem entry_cases (he : e ∈ entries disk nd) :
    e.name = [] ∨ ∃ q ∈ dirGrid, slot disk nd q = some e := by
  by_cases hfree : e.fType = FT_UNKNOWN
  · exact .inl (h.unnamed e he hfree)
  · exact .inr (slot_of_mem_entries he hfree)

theorem slot_of_name (he : e ∈ entries disk nd) (hname : e.name ≠ []) :
    ∃ q ∈ dirGrid, slot disk nd q = some e := (h.entry_cases he).resolve_left hname

/-- Names that occur once in the slots occur once in the list. -/
theorem listOnce : (((entries disk nd).map (·.name)).filter (· ≠ [])).Nodup := by
  have hentry : ∀ k < 140, blockAt disk nd k ≠ 0 → ∀ j < 21,
      (entryAt (shift disk ((blockAt disk nd k).toNat * 512)) j).name ≠ [] →
        slot disk nd (k, j) = some (entryAt (shift disk ((blockAt disk nd k).toNat * 512)) j) := by
    intro k hk hne j hj hname
    have hmem := mem_listed.mpr ⟨k, hk, hne, j, hj, rfl⟩
    exact slot_some.mpr ⟨hne, rfl, fun hfree => hname (h.unnamed _ hmem hfree)⟩
  have hone : ∀ k < 140, blockAt disk nd k ≠ 0 → ∀ j < 21, ∀ i < 140, blockAt disk nd i ≠ 0 →
      ∀ x < 21, (entryAt (shift disk ((blockAt disk nd k).toNat * 512)) j).name ≠ [] →
        (entryAt (shift disk ((blockAt disk nd k).toNat * 512)) j).name =
          (entryAt (shift disk ((blockAt disk nd i).toNat * 512)) x).name → (k, j) = (i, x) := by
    intro k hk hkne j hj i hi hine x hx hname hsame
    have hfirst := hentry k hk hkne j hj hname
    have hsecond := hentry i hi hine x hx (hsame ▸ hname)
    exact h.once _ (pair_mem_dirGrid hk hj) _ (pair_mem_dirGrid hi hx) _ _ hfirst hsecond trivial
      trivial hsame
  have hmem : ∀ k < 140, ∀ a ∈ (if blockAt disk nd k = 0 then [] else
      sectorEntries disk (blockAt disk nd k)), blockAt disk nd k ≠ 0 ∧ ∃ j < 21,
        entryAt (shift disk ((blockAt disk nd k).toNat * 512)) j = a := by
    intro k hk a ha
    by_cases hz : blockAt disk nd k = 0
    · rw [if_pos hz] at ha
      cases ha
    · rw [if_neg hz] at ha
      exact ⟨hz, mem_sectorEntries.mp ha⟩
  rw [List.Nodup, List.filter_map, List.pairwise_map, List.pairwise_filter, entries,
    List.pairwise_flatMap]
  constructor
  · intro k hk
    have hk := List.mem_range.mp hk
    by_cases hz : blockAt disk nd k = 0
    · rw [if_pos hz]
      exact .nil
    · rw [if_neg hz, sectorEntries, List.pairwise_map]
      refine List.Pairwise.imp_of_mem (fun {j x} hj hx hne hname _ hsame => ?_) List.nodup_range
      have heq := hone k hk hz j (List.mem_range.mp hj) k hk hz x (List.mem_range.mp hx)
        (by simpa using hname) hsame
      exact hne (congrArg Prod.snd heq)
  · refine List.Pairwise.imp_of_mem (fun {k i} hk hi hne a ha b hb hname _ hsame => ?_)
      List.nodup_range
    have hk := List.mem_range.mp hk
    have hi := List.mem_range.mp hi
    obtain ⟨hkne, j, hj, rfl⟩ := hmem k hk a ha
    obtain ⟨hine, x, hx, rfl⟩ := hmem i hi b hb
    have heq := hone k hk hkne j hj i hi hine x hx (by simpa using hname) hsame
    exact hne (congrArg Prod.fst heq)

theorem dirOk (hown : OwnBlocks disk part nd) : DirOk disk part nd where
  toOwnBlocks := hown
  unnamed := h.unnamed
  short e he := by
    obtain hnone | ⟨q, hq, hslot⟩ := h.entry_cases he
    · rw [hnone]
      decide
    · exact (h.named q hq e hslot).2
  once := h.listOnce

/-- A slot in use lies in a direct block. -/
theorem direct {q : Nat × Nat} (hslot : slot disk nd q = some e) : q.1 < 12 := by
  by_contra hfar
  exact (slot_some.mp hslot).1 (blockAt_noTable h.noTable (by omega))

theorem bounded : nd.iSize.toNat + 24 < 2 ^ 32 := by
  have hle : (occupied dirGrid (slot disk nd)).card ≤ dirGrid.card :=
    Finset.card_le_card (Finset.filter_subset ..)
  have hsize := h.size
  rw [dirGrid_card] at hle
  omega

end DirShape

/-! ## What is sound is consistent -/

namespace SoundFs

variable (h : SoundFs fs dirs files)
include h

theorem ownUsed (hn : dirs n ∨ files n) :
    OwnBlocks fs.disk fs.part (diskInode fs.disk fs.part n) := by
  obtain hdir | hfile := hn
  · exact h.own n hdir
  · obtain ⟨k, hok⟩ := h.file n hfile
    exact hok.toHasBlocks.own

theorem liesIn (hp : dirs p) (he : e ∈ entries fs.disk (diskInode fs.disk fs.part p))
    (hname : e.name ≠ []) : ∃ q, LiesIn fs p q e := by
  obtain ⟨q, hq, hslot⟩ := (h.shape p hp).slot_of_name he hname
  exact ⟨q, hq, hslot⟩

/-- An entry that lists a file is not `.` or `..`. -/
theorem regular (hp : dirs p) {q : Nat × Nat} (hq : LiesIn fs p q e) (htype : e.fType = FT_REGULAR) :
    e.Proper ∧ files e.iNo.toNat := by
  obtain ⟨-, hfile | hdir⟩ := h.listed p hp q e hq
  · exact hfile.2
  · rw [htype] at hdir
    exact absurd hdir.1 (by decide)

theorem treeOk : TreeOk fs dirs where
  fits := h.layout.fits
  entrySize := h.layout.entrySize
  openOk := h.openOk
  root := h.root
  rootOpen := h.rootOpen
  small n hn := by
    have hlow := (h.low n (.inl hn)).1
    omega
  number n hn := h.number n (.inl hn)
  readable n hn := (h.own n hn).readable
  stored o ho _ := (h.opened o ho).2
  listed n hn e he hname := by
    obtain ⟨q, hq⟩ := h.liesIn hn he hname
    obtain ⟨-, ⟨htype, -, hfile⟩ | hdir⟩ := h.listed n hn q e hq
    · have hlow := (h.low _ (.inr hfile)).1
      exact ⟨by omega, .inl htype⟩
    · have hlow := (h.low _ (.inl hdir.2)).1
      exact ⟨by omega, .inr hdir⟩
  rootDots name hname := by
    obtain ⟨j, hj, e, he, hen⟩ := (h.shape 0 h.root).dots name hname
    have hlies : LiesIn fs 0 (0, j) e := ⟨pair_mem_dirGrid (by decide) hj, he⟩
    have hnot : ¬ e.Proper := by
      intro hproper
      obtain hdot | hdots := hname
      · exact hproper.1 (hen.trans hdot)
      · exact hproper.2 (hen.trans hdots)
    have hne : name ≠ [] := by
      obtain rfl | rfl := hname
      · decide
      · decide
    refine ⟨e, ((h.shape 0 h.root).toNamed.lookup_iff hne).mpr ⟨_, hlies.1, he, hen⟩,
      h.rootDots _ e hlies hnot, ?_⟩
    obtain ⟨-, ⟨-, hproper, -⟩ | hdir⟩ := h.listed 0 h.root _ e hlies
    · exact absurd hproper hnot
    · exact hdir.1

theorem dottedTree : DottedTree fs dirs where
  toTreeOk := h.treeOk
  layout := h.layout
  low n hn := (h.low n (.inl hn)).1
  ok n hn := (h.shape n hn).dirOk (h.own n hn)
  apart n m hn hm := h.apart n m (.inl hn) (.inl hm)
  marked n hn := (h.numbers n (h.low n (.inl hn)).2).mpr (.inl hn)
  dots n hn name hname := by
    obtain ⟨j, hj, e, he, hen⟩ := (h.shape n hn).dots name hname
    exact ⟨(0, j), pair_mem_dirGrid (by decide) hj, e, he, hen⟩
  size n hn := (h.shape n hn).size.ge

theorem fileAt (hn : files n) : FileAt fs dirs n where
  number := h.number n (.inr hn)
  inMap := (h.low n (.inr hn)).2
  own := h.ownUsed (.inr hn)
  notDir hdir := h.kinds n hdir hn
  apart p hp := h.apart n p (.inr hn) (.inl hp) fun he => h.kinds p hp (he ▸ hn)

theorem fileTree : FileTree fs dirs where
  toDottedTree := h.dottedTree
  whole n hn := by
    rw [(h.shape n hn).size]
    exact Nat.mul_mod_right ..
  rootBlock := h.rootBlock
  numbers n hn p hp q hq a b ha hb hproper hproper' hsame :=
    (h.once n n p q a b hn hn ⟨hp, ha⟩ ⟨hq, hb⟩ hproper hproper' hsame).2
  file n hn e he hname htype := by
    obtain ⟨q, hq⟩ := h.liesIn hn he hname
    obtain ⟨hproper, hfile⟩ := h.regular hn hq htype
    exact ⟨hproper, h.fileAt hfile⟩
  opened o ho := by
    obtain ⟨hdir, hstored⟩ := h.opened o ho
    have hlow := (h.low _ (.inl hdir)).1
    exact ⟨by omega, hstored⟩
  spare := h.spare
  handles := h.handles

theorem listsFile : ListsFile fs dirs n ↔ files n := by
  constructor
  · rintro ⟨p, hp, e, he, hname, htype, rfl⟩
    obtain ⟨q, hq⟩ := h.liesIn hp he hname
    exact (h.regular hp hq htype).2
  · intro hn
    obtain ⟨p, q, e, hp, hq, hproper, rfl⟩ := h.filed n hn
    refine ⟨p, hp, e, mem_entries_of_slot hq.1 hq.2, ((h.shape p hp).named q hq.1 e hq.2).1, ?_,
      rfl⟩
    obtain ⟨-, hfile | hdir⟩ := h.listed p hp q e hq
    · exact hfile.1
    · exact absurd hn (h.kinds _ hdir.2)

/-- A block is used by the directory or the file that has it. -/
theorem usesBlock {a : UInt32} : UsesBlock fs dirs a ↔
    ∃ n, (dirs n ∨ files n) ∧ HasBlock fs.disk (diskInode fs.disk fs.part n) a := by
  constructor
  · rintro (⟨p, hp, hne, htable | ⟨k, hk, hb, -⟩⟩ | ⟨n, hn, hblock⟩)
    · exact ⟨p, .inl hp, hne, .inl htable⟩
    · exact ⟨p, .inl hp, hne, .inr ⟨k, hk, hb⟩⟩
    · exact ⟨n, .inr (h.listsFile.mp hn), hblock⟩
  · rintro ⟨n, hdir | hfile, hblock⟩
    · obtain ⟨hne, htable | ⟨k, hk, hb⟩⟩ := hblock
      · exact absurd (htable.trans (h.shape n hdir).noTable) hne
      · refine .inl ⟨n, hdir, hne, .inr ⟨k, hk, hb, ?_⟩⟩
        by_cases hfirst : k = 0
        · exact .inl hfirst
        · have hk12 : k < 12 := by
            by_contra hfar
            exact hne (hb ▸ blockAt_noTable (h.shape n hdir).noTable (by omega))
          rw [blockAt_direct hk12] at hb
          exact .inr ((h.shape n hdir).held k hk12 hfirst (hb ▸ hne))
    · exact .inr ⟨n, h.listsFile.mpr hfile, hblock⟩

theorem consistent : ConsistentFs fs dirs where
  toFileTree := h.fileTree
  blockMap := h.blockMap
  inodeMap := h.inodeMap
  blocks i hi := by
    constructor
    · intro hset
      obtain ⟨n, a, hn, hblock, hidx⟩ := h.marks i hi hset
      exact ⟨a, h.usesBlock.mpr ⟨n, hn, hblock⟩, hidx⟩
    · rintro ⟨a, huse, rfl⟩
      obtain ⟨n, hn, hblock⟩ := h.usesBlock.mp huse
      exact ((h.ownUsed hn).holds hblock).marked
  inodes i hi := (h.numbers i hi).trans (or_congr_right h.listsFile.symm)
  named p hp e he hlive := by
    obtain ⟨q, hq, hslot⟩ := slot_of_mem_entries he hlive
    exact ((h.shape p hp).named q hq e hslot).1
  firstDot p hp := (h.shape p hp).dots dot (.inl rfl)
  bounded p hp := (h.shape p hp).bounded
  cached o ho := by
    have hdir := (h.opened o ho).1
    exact (h.numbers _ (h.low _ (.inl hdir)).2).mpr (.inl hdir)

end SoundFs

/-! ## An example -/

/-- The names and the numbers in the directories of the example. -/
def mappedNames (n : Nat) : List ((Nat × Nat) × List UInt8 × UInt32) :=
  if n = 0 then [((0, 0), dot, 0), ((0, 1), dotDot, 0), ((0, 2), [97], 1)]
  else if n = 1 then [((0, 0), dot, 1), ((0, 1), dotDot, 0), ((0, 2), [98], 2)]
  else [((0, 0), dot, 2), ((0, 1), dotDot, 1)]

theorem mappedFs_slot (hn : n < 3) {q : Nat × Nat} (hq : q ∈ dirGrid) :
    slot mappedFs.disk (diskInode mappedFs.disk mappedFs.part n) q =
      slot belowFs.disk (diskInode belowFs.disk belowFs.part n) q := by
  rw [mappedFs_inode, (mappedFs_moved hn).slot hq]

theorem mappedFs_lies (hn : n < 3) {q : Nat × Nat} (h : LiesIn mappedFs n q e) :
    (q, e.name, e.iNo) ∈ mappedNames n ∧ e.fType = FT_DIRECTORY := by
  have hcheck : ∀ n < 3, ∀ q ∈ belowSlots n,
      (slot belowFs.disk (diskInode belowFs.disk belowFs.part n) q).all (fun e =>
        decide ((q, e.name, e.iNo) ∈ mappedNames n ∧ e.fType = FT_DIRECTORY)) = true := by
    decide +kernel
  obtain ⟨hq, hslot⟩ := h
  rw [mappedFs_slot hn hq] at hslot
  have hall := hcheck n hn q (belowFs_slots hn q hq (Option.isSome_of_mem hslot))
  rw [hslot] at hall
  exact of_decide_eq_true hall

theorem mappedFs_card (hn : n < 3) :
    (occupied dirGrid (slot mappedFs.disk (diskInode mappedFs.disk mappedFs.part n))).card =
      (belowSlots n).length := by
  have hused : ∀ n < 3, (belowSlots n).Nodup ∧ ∀ q ∈ belowSlots n, (q.1 < 140 ∧ q.2 < 21) ∧
      (slot belowFs.disk (diskInode belowFs.disk belowFs.part n) q).isSome := by
    decide +kernel
  obtain ⟨hnodup, hslots⟩ := hused n hn
  have hsame : occupied dirGrid (slot mappedFs.disk (diskInode mappedFs.disk mappedFs.part n)) =
      (belowSlots n).toFinset := by
    ext q
    rw [mem_occupied, List.mem_toFinset]
    constructor
    · rintro ⟨hq, e, he⟩
      rw [mappedFs_slot hn hq] at he
      exact belowFs_slots hn q hq (Option.isSome_of_mem he)
    · intro hq
      obtain ⟨hgrid, hsome⟩ := hslots q hq
      have hmem := mem_dirGrid.mpr hgrid
      rw [mappedFs_slot hn hmem]
      exact ⟨hmem, Option.isSome_iff_exists.mp hsome⟩
  rw [hsame, List.toFinset_card_of_nodup hnodup]

theorem mappedFs_shape (hn : n < 3) :
    DirShape mappedFs.disk (diskInode mappedFs.disk mappedFs.part n) where
  unnamed e he := by
    rw [mappedFs_inode, (mappedFs_moved hn).entries] at he
    exact (belowFs_entries n hn e he).1
  once q hq q' hq' e e' he he' _ _ hname := by
    have hcheck : ∀ n < 3, ∀ x ∈ mappedNames n, ∀ y ∈ mappedNames n, x.2.1 = y.2.1 →
        x.1 = y.1 := by
      decide
    exact hcheck n hn _ (mappedFs_lies hn ⟨hq, he⟩).1 _ (mappedFs_lies hn ⟨hq', he'⟩).1 hname
  noTable := by
    rw [mappedFs_inode]
    exact belowFs_noTable n hn
  named q hq e he := by
    have hcheck : ∀ n < 3, ∀ x ∈ mappedNames n, x.2.1 ≠ [] ∧ x.2.1.length < MAX_FILE_NAME_LEN := by
      decide
    exact hcheck n hn _ (mappedFs_lies hn ⟨hq, he⟩).1
  dots name hname := by
    have hcheck : ∀ n < 3, ∀ name ∈ [dot, dotDot], ∃ j ∈ [0, 1],
        (slot belowFs.disk (diskInode belowFs.disk belowFs.part n) (0, j)).any
          (fun e => decide (e.name = name)) = true := by
      decide +kernel
    obtain ⟨j, hj, hany⟩ := hcheck n hn name (by simpa using hname)
    obtain ⟨e, he, hsame⟩ := (Option.any_eq_true ..).mp hany
    have hlt : j < 21 := by
      have hle : ∀ j ∈ [0, 1], j < 21 := by decide
      exact hle j hj
    refine ⟨j, hlt, e, ?_, of_decide_eq_true hsame⟩
    rw [mappedFs_slot hn (pair_mem_dirGrid (by decide) hlt)]
    exact he
  size := by
    have hcheck : ∀ n < 3, (diskInode belowFs.disk belowFs.part n).iSize.toNat =
        24 * (belowSlots n).length := by
      decide +kernel
    rw [mappedFs_card hn, mappedFs_inode]
    exact hcheck n hn
  held k hk hne hused := by
    have hb := belowFs_blocks n hn k (by omega)
    rw [if_neg hne, blockAt_direct hk, ← mappedFs_inode] at hb
    exact absurd (UInt32.toNat_inj.mp hb) hused

/-- `/a` and `/a/b` are a sound file system. -/
theorem mappedFs_sound : SoundFs mappedFs (fun n => n < 3) fun _ => False where
  layout := mappedFs_consistent.layout
  heap := rfl
  blockMap := mappedFs_consistent.blockMap
  inodeMap := mappedFs_consistent.inodeMap
  root := mappedFs_consistent.root
  rootBlock := mappedFs_consistent.rootBlock
  kinds _ _ hfile := hfile
  numbers n hn := (mappedFs_consistent.inodes n hn).trans
    (or_congr_right (iff_false_intro (mappedFs_noFile n)))
  low n hn := by
    have hn := hn.resolve_right id
    exact ⟨mappedFs_consistent.low n hn, hn.trans (by decide)⟩
  number n hn := mappedFs_consistent.number n (hn.resolve_right id)
  own n hn := (mappedFs_consistent.ok n hn).toOwnBlocks
  apart n m hn hm := mappedFs_consistent.apart n m (hn.resolve_right id) (hm.resolve_right id)
  marks i hi hset := by
    obtain ⟨a, ⟨p, hp, hne, hblock⟩ | ⟨n, hn, -⟩, hidx⟩ :=
      (mappedFs_consistent.blocks i hi).mp hset
    · exact ⟨p, a, .inl hp, ⟨hne, hblock.imp_right fun ⟨k, hk, hb, _⟩ => ⟨k, hk, hb⟩⟩, hidx⟩
    · exact absurd hn (mappedFs_noFile n)
  shape n hn := mappedFs_shape hn
  file _ hfile := hfile.elim
  listed p hp q e hq := by
    have hcheck : ∀ n < 3, ∀ x ∈ mappedNames n, x.2.2.toNat < 3 ∧
        (x.2.1 ≠ dot ∧ x.2.1 ≠ dotDot → x.2.2 ≠ 0) := by
      decide
    obtain ⟨hmem, htype⟩ := mappedFs_lies hp hq
    obtain ⟨hlow, hproper⟩ := hcheck p hp _ hmem
    exact ⟨hproper, .inr ⟨htype, hlow⟩⟩
  once p p' q q' e e' hp hp' hq hq' hproper hproper' hno := by
    have hcheck : ∀ n < 3, ∀ m < 3, ∀ x ∈ mappedNames n, ∀ y ∈ mappedNames m,
        (x.2.1 = dot ∨ x.2.1 = dotDot) ∨ (y.2.1 = dot ∨ y.2.1 = dotDot) ∨ x.2.2 ≠ y.2.2 ∨
          n = m ∧ x.1 = y.1 := by
      decide
    obtain hdots | hdots | hne | hsame :=
      hcheck p hp p' hp' _ (mappedFs_lies hp hq).1 _ (mappedFs_lies hp' hq').1
    · exact absurd hproper (not_and_or.mpr (hdots.imp not_not.mpr not_not.mpr))
    · exact absurd hproper' (not_and_or.mpr (hdots.imp not_not.mpr not_not.mpr))
    · exact absurd hno hne
    · exact hsame
  filed _ hfile := hfile.elim
  rootDots q e hq hproper := by
    have hcheck : ∀ x ∈ mappedNames 0, ¬ (x.2.1 ≠ dot ∧ x.2.1 ≠ dotDot) → x.2.2 = 0 := by
      decide
    exact hcheck _ (mappedFs_lies (by decide) hq).1 hproper
  opened o ho := by
    refine ⟨?_, (mappedFs_consistent.opened o ho).2⟩
    rw [List.mem_singleton.mp ho]
    decide
  openOk := mappedFs_consistent.openOk
  rootOpen := mappedFs_consistent.rootOpen
  spare := mappedFs_consistent.spare
  handles := mappedFs_consistent.handles

end ZhuOS
