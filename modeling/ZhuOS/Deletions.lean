import ZhuOS.DirDelete
import ZhuOS.Search

/-!
# Deletions that go right

A deletion returns but for the last entry of an indirect block, and then it removes its entry
and nothing else.
-/

namespace ZhuOS

open ByteMem Slots

set_option maxRecDepth 2000

/-- A directory: `.` lies in the first block and `..` in no other, names and numbers occur once,
an indirect table has a block behind it and the size covers the entries. -/
structure DirWell (disk : Bytes) (part : Partition) (nd : Inode) : Prop extends
    OwnBlocks disk part nd, Named disk nd where
  numbers : KeyOnce dirGrid (slot disk nd) (·.iNo) DirEntry.Proper
  named : ∀ p ∈ dirGrid, ∀ e, slot disk nd p = some e → e.name ≠ []
  dot : ∃ j < 21, ∃ e, slot disk nd (0, j) = some e ∧ e.name = dot
  dotDot : Within dirGrid (slot disk nd) (·.name = dotDot) (·.1 = 0)
  tableUsed : nd.iSectors 12 ≠ 0 → ∃ k, 12 ≤ k ∧ k < 140 ∧ blockAt disk nd k ≠ 0
  size : 24 * (occupied dirGrid (slot disk nd)).card ≤ nd.iSize.toNat

/-- The only entry of its block but for `.` and `..`. -/
def LastEntry (disk : Bytes) (nd : Inode) (p : Nat × Nat) : Prop :=
  ∀ j < 21, ∀ e, slot disk nd (p.1, j) = some e → e.Proper → j = p.2

/-- The entry is removed and nothing else; its block is given up when nothing else was in it,
and the table when nothing is behind it. -/
structure DeletesRight (s s' : NodeState) (p : Nat × Nat) (e : DirEntry) : Prop where
  cleared : Cleared dirGrid (slot s.disk s.inode) (slot s'.disk s'.inode) p e
  blockFreed : LastEntry s.disk s.inode p → p.1 ≠ 0 → blockAt s'.disk s'.inode p.1 = 0 ∧
    s'.part.blockBitmap.bit (blockIdx s.part (blockAt s.disk s.inode p.1)) = false
  blockKept : ¬ (LastEntry s.disk s.inode p ∧ p.1 ≠ 0) →
    blockAt s'.disk s'.inode p.1 = blockAt s.disk s.inode p.1 ∧
    s'.part.blockBitmap.bit (blockIdx s.part (blockAt s.disk s.inode p.1)) = true
  tableFreed : s.inode.iSectors 12 ≠ 0 →
    (∀ k, 12 ≤ k → k < 140 → blockAt s'.disk s'.inode k = 0) → s'.inode.iSectors 12 = 0 ∧
    s'.part.blockBitmap.bit (blockIdx s.part (s.inode.iSectors 12)) = false
  tableKept : s.inode.iSectors 12 ≠ 0 →
    (∃ k, 12 ≤ k ∧ k < 140 ∧ blockAt s'.disk s'.inode k ≠ 0) →
    s'.inode.iSectors 12 = s.inode.iSectors 12 ∧
    s'.part.blockBitmap.bit (blockIdx s.part (s.inode.iSectors 12)) = true
  marks : ∀ a, DataBlock s.part a → a ≠ blockAt s.disk s.inode p.1 → a ≠ s.inode.iSectors 12 →
    s'.part.blockBitmap.bit (blockIdx s.part a) = s.part.blockBitmap.bit (blockIdx s.part a)
  gone : ∀ iNo fType, ¬ Finds s' e.name iNo fType
  found : ∀ m, m ≠ [] → m ≠ e.name → ∀ iNo fType, Finds s m iNo fType → Finds s' m iNo fType

section
variable {s s' : NodeState} {p : Nat × Nat} {e : DirEntry} {disk : Bytes} {part : Partition}
  {nd : Inode}

/-- `.` lies in the first block alone. -/
theorem DirWell.dot_first (h : DirWell disk part nd) (hp : p ∈ dirGrid)
    (hslot : slot disk nd p = some e) (hdot : e.name = ZhuOS.dot) : p.1 = 0 := by
  obtain ⟨j, hj, a, ha, hadot⟩ := h.dot
  have hsame := h.once p hp (0, j) (pair_mem_dirGrid (by decide) hj) e a hslot ha trivial trivial
    (hdot.trans hadot.symm)
  exact congrArg Prod.fst hsame

/-- Outside the first block the last entry is alone. -/
theorem DirWell.lone (h : DirWell disk part nd) (hp : p ∈ dirGrid) (hne : p.1 ≠ 0)
    (hlast : LastEntry disk nd p) : Lone disk nd p := by
  refine ⟨hlast, ?_⟩
  intro j hj a ha hdot
  have hz : (p.1, j).1 = 0 := h.dot_first (pair_mem_dirGrid (mem_dirGrid.mp hp).1 hj) ha hdot
  exact hne hz

theorem DirWell.lone_ne (h : DirWell disk part nd) (hlone : Lone disk nd p) : p.1 ≠ 0 := by
  intro hz
  obtain ⟨j, hj, a, ha, hdot⟩ := h.dot
  rw [← hz] at ha
  exact hlone.noDot j hj a ha hdot

theorem DirWell.no_dotDot (h : DirWell disk part nd) (hp : p ∈ dirGrid) (hne : p.1 ≠ 0) :
    ∀ j < 21, ∀ a, slot disk nd (p.1, j) = some a → a.name ≠ ZhuOS.dotDot := by
  intro j hj a ha hname
  have hz : (p.1, j).1 = 0 :=
    h.dotDot _ (pair_mem_dirGrid (mem_dirGrid.mp hp).1 hj) a ha hname
  exact hne hz

/-- What is listed after a deletion lay in another slot, or it has no name. -/
def Leaves (disk : Bytes) (nd : Inode) (disk' : Bytes) (nd' : Inode) (p : Nat × Nat) : Prop :=
  ∀ q ∈ dirGrid, blockAt disk' nd' q.1 ≠ 0 →
    (q ≠ p ∧ blockAt disk nd q.1 ≠ 0 ∧
      entryAt (shift disk' ((blockAt disk' nd' q.1).toNat * 512)) q.2 =
        entryAt (shift disk ((blockAt disk nd q.1).toNat * 512)) q.2) ∨
    (entryAt (shift disk' ((blockAt disk' nd' q.1).toNat * 512)) q.2).name = []

/-- A named entry that is listed lay in another slot. -/
theorem Leaves.listed {disk' : Bytes} {nd' : Inode} {a : DirEntry}
    (h : Leaves disk nd disk' nd' p) (ha : a ∈ entries disk' nd') :
    (∃ q ∈ dirGrid, q ≠ p ∧ blockAt disk nd q.1 ≠ 0 ∧
      entryAt (shift disk ((blockAt disk nd q.1).toNat * 512)) q.2 = a) ∨ a.name = [] := by
  obtain ⟨k, hk, hne, j, hj, rfl⟩ := mem_listed.mp ha
  obtain ⟨hqp, hne', hold⟩ | hnone := h (k, j) (pair_mem_dirGrid hk hj) hne
  · exact .inl ⟨(k, j), pair_mem_dirGrid hk hj, hqp, hne', hold.symm⟩
  · exact .inr hnone

/-- Clearing a slot leaves the names that are not its own. -/
theorem Named.cleared {disk' : Bytes} {nd' : Inode} (h : Named disk nd)
    (hc : Cleared dirGrid (slot disk nd) (slot disk' nd') p e)
    (hleaves : Leaves disk nd disk' nd' p) : Named disk' nd' := by
  refine ⟨?_, hc.keyOnce h.once⟩
  intro a ha hfree
  obtain ⟨q, hq, -, hne, rfl⟩ | hnone := hleaves.listed ha
  · obtain ⟨hk, hj⟩ := mem_dirGrid.mp hq
    exact h.unnamed _ (mem_listed.mpr ⟨q.1, hk, hne, q.2, hj, rfl⟩) hfree
  · exact hnone

/-- The other names are found as before, and the deleted one is not. -/
theorem Named.found_after (h : Named s.disk s.inode) (h' : Named s'.disk s'.inode)
    (hl : DiskLayout s.part) (hl' : DiskLayout s'.part) (hr : Readable s.disk s.inode)
    (hr' : Readable s'.disk s'.inode)
    (hc : Cleared dirGrid (slot s.disk s.inode) (slot s'.disk s'.inode) p e) (hne : e.name ≠ []) :
    (∀ iNo fType, ¬ Finds s' e.name iNo fType) ∧
      ∀ m, m ≠ [] → m ≠ e.name → ∀ iNo fType, Finds s m iNo fType → Finds s' m iNo fType := by
  constructor
  · intro iNo fType hfind
    obtain ⟨q, hq, a, ha, hname, -, -⟩ := (h'.finds_iff hl' hr' hne).mp hfind
    obtain ⟨hqp, ha⟩ := hc.cases hq ha
    exact hqp (h.once q hq p hc.mem a e ha hc.taken trivial trivial hname)
  · intro m hm hme iNo fType hfind
    obtain ⟨q, hq, a, ha, hname, hno, htype⟩ := (h.finds_iff hl hr hm).mp hfind
    refine (h'.finds_iff hl' hr' hm).mpr ⟨q, hq, a, hc.keeps hq ?_ ha, hname, hno, htype⟩
    rintro rfl
    rw [hc.taken] at ha
    exact hme (hname.symm.trans (congrArg DirEntry.name (Option.some.inj ha).symm))

/-- Behind the table nothing has changed. -/
theorem DirWell.table_kept (h : DirWell disk part nd) {disk' : Bytes} {nd' : Inode}
    (hblocks : ∀ k, 12 ≤ k → k < 140 → blockAt disk' nd' k = blockAt disk nd k)
    (htable : nd.iSectors 12 ≠ 0) :
    ¬ ∀ k, 12 ≤ k → k < 140 → blockAt disk' nd' k = 0 := by
  intro hnone
  obtain ⟨k, hlo, hhi, hne⟩ := h.tableUsed htable
  exact hne ((hblocks k hlo hhi).symm.trans (hnone k hlo hhi))

theorem clearSlot_leaves (hl : DiskLayout s.part) (hown : OwnBlocks s.disk s.part s.inode)
    (hp : p ∈ dirGrid) (hne : blockAt s.disk s.inode p.1 ≠ 0) :
    Leaves s.disk s.inode (s.clearSlot p).disk (s.clearSlot p).inode p := by
  obtain ⟨hk, hj⟩ := mem_dirGrid.mp hp
  have hblock := hown.inUse p.1 hk hne
  have hblocks := clearSlot_blocks hl hown hp hne
  rintro ⟨i, x⟩ hq hqne
  obtain ⟨hi, hx⟩ : i < 140 ∧ x < 21 := mem_dirGrid.mp hq
  rw [hblocks] at hqne ⊢
  dsimp only at hqne ⊢
  by_cases hqp : (i, x) = p
  · rw [← hqp] at hblock
    have hzero := clearSlot_zero (p := (i, x)) hl hblock.toDataBlock hx
    rw [hqp] at hzero
    subst hqp
    exact .inr (entryAt_zero hzero).2
  · refine .inl ⟨hqp, hqne, ?_⟩
    by_cases hik : i = p.1
    · subst hik
      exact clearSlot_entry hl hblock.toDataBlock hx fun he => hqp (by rw [he])
    · apply entryAt_congr hx
      intro y hy
      exact clearSlot_same hl hj (hown.inUse i hi hqne).toDataBlock
        (fun he => hik (hown.apart i hi p.1 hk hqne he)) _ (by omega) (by omega)

theorem dropBlock_leaves (hl : DiskLayout s.part) (hown : OwnBlocks s.disk s.part s.inode)
    (hk : p.1 < 12) (hne : blockAt s.disk s.inode p.1 ≠ 0) :
    Leaves s.disk s.inode (s.dropBlock p.1).disk (s.dropBlock p.1).inode p := by
  have hblock := hown.inUse p.1 (by omega) hne
  rintro ⟨i, x⟩ hq hqne
  obtain ⟨hi, hx⟩ : i < 140 ∧ x < 21 := mem_dirGrid.mp hq
  rw [dropBlock_blocks hl hown hk hne] at hqne ⊢
  dsimp only at hqne ⊢
  by_cases hik : i = p.1
  · rw [if_pos hik] at hqne
    exact absurd rfl hqne
  · rw [if_neg hik] at hqne ⊢
    refine .inl ⟨fun he => hik (congrArg Prod.fst he), hqne, ?_⟩
    apply entryAt_congr hx
    intro y hy
    exact dropBlock_same hl hblock.toDataBlock (hown.inUse i hi hqne).toDataBlock _ (by omega)
      (by omega)

theorem clearSlot_right (hl : DiskLayout s.part) (hd : DirWell s.disk s.part s.inode)
    (hp : p ∈ dirGrid) (hslot : slot s.disk s.inode p = some e)
    (hmore : ¬ (LastEntry s.disk s.inode p ∧ p.1 ≠ 0)) : DeletesRight s (s.clearSlot p) p e := by
  have hown := hd.toOwnBlocks
  obtain ⟨hk, hj⟩ := mem_dirGrid.mp hp
  obtain ⟨hne, -, -⟩ := slot_some.mp hslot
  have hblock := hown.inUse p.1 hk hne
  have hblocks := clearSlot_blocks hl hown hp hne
  have hcleared := clearSlot_cleared hl hown hp hslot
  have hnamed : Named (s.clearSlot p).disk (s.clearSlot p).inode :=
    hd.toNamed.cleared hcleared (clearSlot_leaves hl hown hp hne)
  have hown' := clearSlot_own hl hown hp hne
  obtain ⟨hgone, hfound⟩ := hd.toNamed.found_after hnamed hl hl hown.readable hown'.readable
    hcleared (hd.named p hp e hslot)
  refine ⟨hcleared, ?_, ?_, ?_, ?_, ?_, hgone, hfound⟩
  · intro hlast hz
    exact absurd ⟨hlast, hz⟩ hmore
  · intro _
    exact ⟨congrFun hblocks p.1, hblock.marked⟩
  · intro htable hnone
    exact absurd hnone (hd.table_kept (fun k _ _ => congrFun hblocks k) htable)
  · intro htable _
    exact ⟨rfl, (hown.table htable).marked⟩
  · intro a _ _ _
    rfl

theorem dropBlock_right (hl : DiskLayout s.part) (hd : DirWell s.disk s.part s.inode)
    (hp : p ∈ dirGrid) (hk : p.1 < 12) (hslot : slot s.disk s.inode p = some e)
    (hlone : Lone s.disk s.inode p) : DeletesRight s (s.dropBlock p.1) p e := by
  have hown := hd.toOwnBlocks
  obtain ⟨hne, -, -⟩ := slot_some.mp hslot
  have hz := hd.lone_ne hlone
  have hblock := hown.inUse p.1 (by omega) hne
  have hblocks := dropBlock_blocks hl hown hk hne
  have hcleared := dropBlock_cleared hl hown hp hk hslot hlone (hd.no_dotDot hp hz)
  have hindirect : ∀ i, 12 ≤ i → i < 140 →
      blockAt (s.dropBlock p.1).disk (s.dropBlock p.1).inode i = blockAt s.disk s.inode i :=
    fun i hi _ => (hblocks i).trans (if_neg (by omega))
  have hbit : ∀ a, (s.dropBlock p.1).part.blockBitmap.bit (blockIdx s.part a) =
      if blockIdx s.part a = blockIdx s.part (blockAt s.disk s.inode p.1) then false
      else s.part.blockBitmap.bit (blockIdx s.part a) := fun a => setBlock_bit ..
  have hnamed : Named (s.dropBlock p.1).disk (s.dropBlock p.1).inode :=
    hd.toNamed.cleared hcleared (dropBlock_leaves hl hown hk hne)
  have hown' := dropBlock_own hl hown hk hne
  have haddr := hblock.addr
  have hmax := hblock.onDisk
  have hl' : DiskLayout (s.dropBlock p.1).part := hl.setBlock fun _ => by omega
  obtain ⟨hgone, hfound⟩ := hd.toNamed.found_after hnamed hl hl' hown.readable hown'.readable
    hcleared (hd.named p hp e hslot)
  refine ⟨hcleared, ?_, ?_, ?_, ?_, ?_, hgone, hfound⟩
  · intro _ _
    exact ⟨(hblocks p.1).trans (if_pos rfl), (hbit _).trans (if_pos rfl)⟩
  · intro hnot
    exact absurd ⟨hlone.only, hz⟩ hnot
  · intro htable hnone
    exact absurd hnone (hd.table_kept hindirect htable)
  · intro htable _
    have hapart : blockIdx s.part (s.inode.iSectors 12) ≠
        blockIdx s.part (blockAt s.disk s.inode p.1) := fun he =>
      hown.tableApart p.1 (by omega) hne
        ((hown.table htable).toDataBlock.idx_inj hblock.toDataBlock he).symm
    refine ⟨setSector_other (by omega), ?_⟩
    rw [hbit, if_neg hapart]
    exact (hown.table htable).marked
  · intro a ha hab _
    exact (hbit a).trans (if_neg fun he => hab (ha.idx_inj hblock.toDataBlock he))

/-- A deletion goes right but for the last entry of an indirect block. -/
theorem deleteDirEntry_right_iff (hl : DiskLayout s.part) (hd : DirWell s.disk s.part s.inode)
    (hp : p ∈ dirGrid) (hslot : slot s.disk s.inode p = some e) (hproper : e.Proper)
    (ioBuf : Bytes) :
    (∃ s', deleteDirEntry s e.iNo.toNat ioBuf = .ok (true, s') ∧ DeletesRight s s' p e) ↔
      p.1 < 12 ∨ ¬ LastEntry s.disk s.inode p := by
  have hrun := deleteDirEntry_found hl hd.toOwnBlocks hd.numbers hp hslot hproper
    (taken_le_size hd.size hp hslot) ioBuf
  generalize deleteDirEntry s e.iNo.toNat ioBuf = result at hrun ⊢
  cases hrun with
  | clear hmore =>
    have hnot : ¬ (LastEntry s.disk s.inode p ∧ p.1 ≠ 0) := fun h => hmore (hd.lone hp h.2 h.1)
    constructor
    · intro _
      by_contra hcon
      obtain ⟨hfar, hlast⟩ := not_or.mp hcon
      exact hnot ⟨not_not.mp hlast, by omega⟩
    · intro _
      exact ⟨_, rfl, clearSlot_right hl hd hp hslot hnot⟩
  | drop hlone hk =>
    constructor
    · intro _
      exact .inl hk
    · intro _
      exact ⟨_, rfl, dropBlock_right hl hd hp hk hslot hlone⟩
  | stuck hlone hk =>
    constructor
    · rintro ⟨s', hrun, -⟩
      cases hrun
    · rintro (hlow | hmore)
      · omega
      · exact absurd hlone.only hmore

end

/-- A directory with holes: `.`, `..` and `f` in block 613, and `x` in block 615 behind the table
in 614. -/
def holesDisk : Bytes := fun a =>
  if a = 613 * 512 ∨ a = 613 * 512 + 24 ∨ a = 613 * 512 + 25 then 46
  else if a = 613 * 512 + 20 ∨ a = 613 * 512 + 44 then 2
  else if a = 613 * 512 + 48 then 102
  else if a = 613 * 512 + 64 ∨ a = 613 * 512 + 68 then 1
  else if a = 614 * 512 then 0x67
  else if a = 614 * 512 + 1 then 0x02
  else if a = 615 * 512 then 120
  else if a = 615 * 512 + 16 then 2
  else if a = 615 * 512 + 20 then 1
  else 0

def holesDir : NodeState where
  disk := holesDisk
  part := { tablePartition with blockBitmap := ⟨512, fun i => if i = 0 then 0x0f else 0⟩ }
  inode := { inodeInit 0 with
    iSize := 96
    iSectors := fun k => if k = 0 then 613 else if k = 12 then 614 else 0 }

theorem holesDir_layout : DiskLayout holesDir.part where
  blockMapLen := rfl
  inodeMapLen := rfl
  blockMap := by decide
  inodeMap := by decide
  table := by decide
  onDisk := by decide
  inPart := by decide
  blocks i hi _ := by
    have hi : i < 4096 := hi
    have hstart : holesDir.part.sb.dataStartLba.toNat = 612 := rfl
    unfold max_lba
    omega
  entrySize := rfl

/-- The slots in use. -/
def holesSlots : List (Nat × Nat) := [(0, 0), (0, 1), (0, 2), (12, 0)]

/-- Its blocks, the slots in use and their names; what is not in use has none. -/
theorem holesDir_holds :
    (∀ k < 140, (blockAt holesDir.disk holesDir.inode k).toNat =
        if k = 0 then 613 else if k = 12 then 615 else 0) ∧
      (∀ k ∈ [0, 12], ∀ j < 21, (slot holesDir.disk holesDir.inode (k, j)).isSome →
        (k, j) ∈ holesSlots) ∧
      (∀ p ∈ holesSlots, ∀ e ∈ slot holesDir.disk holesDir.inode p,
        e.name ≠ [] ∧ (e.name = dotDot → p.1 = 0)) ∧
      ∀ e ∈ entries holesDir.disk holesDir.inode, e.fType = FT_UNKNOWN → e.name = [] :=
  ⟨by decide +kernel, by decide +kernel, by decide +kernel, by decide +kernel⟩

theorem holesDir_inUse {lba : UInt32} (h : 613 ≤ lba.toNat) (h' : lba.toNat ≤ 615) :
    InUse holesDir.part lba := by
  have hstart : holesDir.part.sb.dataStartLba.toNat = 612 := rfl
  have hidx : blockIdx holesDir.part lba = lba.toNat - 612 := rfl
  have hbit : ∀ i < 4, holesDir.part.blockBitmap.bit i = true := by decide
  refine ⟨⟨by omega, by unfold max_lba; omega, ?_⟩, hidx ▸ hbit _ (by omega)⟩
  rw [hidx]
  exact show lba.toNat - 612 < 4096 by omega

theorem holesDir_block {k : Nat} (hk : k < 140)
    (hne : blockAt holesDir.disk holesDir.inode k ≠ 0) :
    k = 0 ∧ (blockAt holesDir.disk holesDir.inode k).toNat = 613 ∨
      k = 12 ∧ (blockAt holesDir.disk holesDir.inode k).toNat = 615 := by
  have hb := holesDir_holds.1 k hk
  have hz : (blockAt holesDir.disk holesDir.inode k).toNat ≠ 0 :=
    fun h => hne (UInt32.toNat_inj.mp h)
  by_cases h0 : k = 0
  · rw [if_pos h0] at hb
    exact .inl ⟨h0, hb⟩
  · rw [if_neg h0] at hb
    by_cases h12 : k = 12
    · rw [if_pos h12] at hb
      exact .inr ⟨h12, hb⟩
    · rw [if_neg h12] at hb
      exact absurd hb hz

theorem holesDir_own : OwnBlocks holesDir.disk holesDir.part holesDir.inode := by
  constructor
  · intro k hk hne
    rcases holesDir_block hk hne with ⟨-, hb⟩ | ⟨-, hb⟩
    · exact holesDir_inUse (by omega) (by omega)
    · exact holesDir_inUse (by omega) (by omega)
  · intro _
    exact holesDir_inUse (by decide) (by decide)
  · intro k hk i hi hne he
    have hk := holesDir_block hk hne
    have hi := holesDir_block hi (he ▸ hne)
    rw [he] at hk
    omega
  · intro k hk hne he
    have hk := holesDir_block hk hne
    have htable : (holesDir.inode.iSectors 12).toNat = 614 := rfl
    rw [he] at hk
    omega

theorem holesDir_slots : ∀ p ∈ dirGrid, (slot holesDir.disk holesDir.inode p).isSome →
    p ∈ holesSlots := by
  rintro ⟨k, j⟩ hp hsome
  obtain ⟨hk, hj⟩ : k < 140 ∧ j < 21 := mem_dirGrid.mp hp
  obtain ⟨e, he⟩ := Option.isSome_iff_exists.mp hsome
  apply holesDir_holds.2.1 k _ j hj hsome
  rcases holesDir_block hk (slot_some.mp he).1 with ⟨rfl, -⟩ | ⟨rfl, -⟩
  · decide
  · decide

theorem holesDir_names {p : Nat × Nat} (hp : p ∈ dirGrid) {e : DirEntry}
    (he : slot holesDir.disk holesDir.inode p = some e) :
    e.name ≠ [] ∧ (e.name = dotDot → p.1 = 0) :=
  holesDir_holds.2.2.1 p (holesDir_slots p hp (Option.isSome_iff_exists.mpr ⟨e, he⟩)) e he

theorem holesDir_well : DirWell holesDir.disk holesDir.part holesDir.inode where
  toOwnBlocks := holesDir_own
  unnamed := holesDir_holds.2.2.2
  once := .of_list _ holesDir_slots (by decide +kernel)
  numbers := .of_list _ holesDir_slots (by decide +kernel)
  named p hp e he := (holesDir_names hp he).1
  dot := by
    have hdot : (slot holesDir.disk holesDir.inode (0, 0)).any (fun e => decide (e.name = dot)) =
        true := by
      decide +kernel
    obtain ⟨e, he, hname⟩ := (Option.any_eq_true ..).mp hdot
    exact ⟨0, by decide, e, he, of_decide_eq_true hname⟩
  dotDot p hp e he := (holesDir_names hp he).2
  tableUsed _ := by
    have hb : (blockAt holesDir.disk holesDir.inode 12).toNat = 615 :=
      holesDir_holds.1 12 (by decide)
    refine ⟨12, by decide, by decide, ?_⟩
    intro hz
    rw [hz] at hb
    cases hb
  size := by
    have hle := card_le_length holesSlots holesDir_slots
    have hsize : holesDir.inode.iSize.toNat = 96 := rfl
    have hlength : holesSlots.length = 4 := rfl
    omega

/-- `f` is deleted. -/
theorem deleteDirEntry_right_iff_direct : ∃ e, slot holesDir.disk holesDir.inode (0, 2) = some e ∧
    ((∃ s', deleteDirEntry holesDir e.iNo.toNat (fun _ => 0) = .ok (true, s') ∧
      DeletesRight holesDir s' (0, 2) e) ↔
        (0, 2).1 < 12 ∨ ¬ LastEntry holesDir.disk holesDir.inode (0, 2)) := by
  have hf : (slot holesDir.disk holesDir.inode (0, 2)).any (fun e => decide e.Proper) = true := by
    decide +kernel
  obtain ⟨e, he, hproper⟩ := (Option.any_eq_true ..).mp hf
  exact ⟨e, he, deleteDirEntry_right_iff holesDir_layout holesDir_well (by decide) he
    (of_decide_eq_true hproper) _⟩

/-- `x`, the last entry of the only block behind the table, is never deleted. -/
theorem deleteDirEntry_hangs : DirWell holesDir.disk holesDir.part holesDir.inode ∧
    ∃ e, slot holesDir.disk holesDir.inode (12, 0) = some e ∧ e.Proper ∧
      deleteDirEntry holesDir e.iNo.toNat (fun _ => 0) = .error .stuck := by
  refine ⟨holesDir_well, ?_⟩
  have hx : (slot holesDir.disk holesDir.inode (12, 0)).any (fun e => decide e.Proper &&
      match deleteDirEntry holesDir e.iNo.toNat (fun _ => 0) with
      | .error f => decide (f = .stuck)
      | .ok _ => false) = true := by
    decide +kernel
  obtain ⟨e, he, hx⟩ := (Option.any_eq_true ..).mp hx
  obtain ⟨hproper, hx⟩ := Bool.and_eq_true_iff.mp hx
  refine ⟨e, he, of_decide_eq_true hproper, ?_⟩
  cases hrun : deleteDirEntry holesDir e.iNo.toNat (fun _ => 0) with
  | error f =>
    rw [hrun] at hx
    rw [of_decide_eq_true hx]
  | ok found =>
    rw [hrun] at hx
    cases hx

end ZhuOS
