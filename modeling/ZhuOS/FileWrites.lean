import ZhuOS.FileData

/-!
# What `file_write` does to a file

A write that goes through has the block its end lies in claimed, the bytes put behind those
of the file and the inode stored. Everything else on the disk stays.
-/

namespace ZhuOS

open ByteMem

set_option maxRecDepth 2000

variable {disk disk' : Bytes} {part part' : Partition} {nd : Inode} {n : Nat}

/-- A block that an inode lists, its table included. -/
def Owns (disk : Bytes) (nd : Inode) (a : UInt32) : Prop :=
  a ≠ 0 ∧ ((∃ k < 140, blockAt disk nd k = a) ∨ nd.iSectors 12 = a)

/-- A file as `file_write` leaves it: the block its end lies in is there, unless nothing was
ever written or there is no such block. -/
structure FileOk (disk : Bytes) (part : Partition) (nd : Inode) (n : Nat) : Prop
    extends HasBlocks disk part nd n where
  size : nd.iSize.toNat ≤ 512 * 140
  count : n = 0 ∧ nd.iSize = 0 ∨ n = min (nd.iSize.toNat / 512 + 1) 140

theorem HasBlocks.of_owns (h : HasBlocks disk part nd n) {a : UInt32} (ha : Owns disk nd a) :
    InUse part a := by
  obtain ⟨hne, ⟨k, -, rfl⟩ | rfl⟩ := ha
  · apply h.inUse k
    by_contra hk
    exact hne (h.rest k (by omega))
  · exact h.table hne

theorem HasBlocks.owns_block (h : HasBlocks disk part nd n) (hl : DiskLayout part) {k : Nat}
    (hk : k < n) (hk' : k < 140) : Owns disk nd (blockAt disk nd k) :=
  ⟨(h.inUse k hk).ne_zero hl, .inl ⟨k, hk', rfl⟩⟩

/-! ## The blocks -/

/-- A disk that a write has prepared differs from the old one in the table and in the map. -/
theorem Prepared.same {s : NodeState} {w : Writer} {has will : Nat} (h : Prepared s w has will)
    (hl : DiskLayout s.part) {a : UInt32} (ha : DataBlock s.part a)
    (hne : a ≠ w.inode.iSectors 12) : Same w.disk s.disk (a.toNat * 512) 512 := by
  obtain ⟨disk, hclaims, hdisk⟩ := h.claims
  intro x hlo hhi
  have hapart := sectors_apart hne
  rw [hdisk x fun _ => by omega]
  exact hclaims.same hl ha x hlo hhi

/-- The first block counts as one that was added. -/
theorem Prepared.first {s s₁ : NodeState} {w : Writer} {lba : UInt32} {will : Nat}
    (h : Prepared s₁ w 1 will) (hl : DiskLayout s.part)
    (hc : Claimed s.disk s.part lba s₁.disk s₁.part)
    (hnode : s₁.inode = s.inode.setSector 0 lba) : Prepared s w 0 will := by
  obtain ⟨disk, hclaims, hdisk⟩ := h.claims
  have h12 : s₁.inode.iSectors 12 = s.inode.iSectors 12 := by
    rw [hnode]
    exact setSector_other (by decide)
  have hfirst : blockAt s₁.disk s₁.inode 0 = lba := by
    rw [blockAt_direct (by decide), hnode, setSector_self]
  refine ⟨⟨disk, (Claims.of_claimed hl hc).trans hclaims, hdisk⟩, h.blocks, ?_, ?_, ?_, ?_, ?_, ?_⟩
  · intro k hk
    omega
  · intro k _ hk hu
    by_cases hz : k = 0
    · rw [hz, h.old 0 (by decide), hfirst] at hu
      exact hc.unused hu
    · exact h.new k (by omega) hk (hc.keeps hu)
  · obtain ht | ht := h.table
    · exact .inl (ht.trans h12)
    · exact .inr fun hu => ht (hc.keeps hu)
  · intro k _ hk
    exact h.collected k (by omega) hk
  · rw [h.inode_eq, hnode]
    rfl
  · have hcard := hc.free_card
    have hfree := h.free
    unfold blockCost at hfree ⊢
    rw [if_neg (by decide : ¬ 12 < 1)] at hfree
    rw [if_neg (by decide : ¬ 12 < 0)]
    omega

/-- With blocks enough for the block after the end a write finds all its blocks. -/
theorem prepare_ok {s : NodeState} {total : Nat} (hl : DiskLayout s.part)
    (hroot : s.part.blockBitmap.bit 0 = true) (hf : FileOk s.disk s.part s.inode n)
    (hle : s.inode.iSize.toNat ≤ total) (hmax : total < 512 * 140)
    (hfree : blockCost (total / 512 + 1) ≤ s.part.blockBitmap.free.card + blockCost n) :
    ∃ s₁ w, firstBlock s = .ok (true, s₁) ∧ s₁.inode.iSize = s.inode.iSize ∧
      writeBlocks s₁ (s.inode.iSize.toNat / 512 + 1) (total / 512 + 1) = .ok (true, w) ∧
      Prepared s w n (total / 512 + 1) := by
  obtain ⟨rfl, hz⟩ | hn := hf.count
  · have hsize : s.inode.iSize.toNat = 0 := by rw [hz]; rfl
    have hcost : blockCost (total / 512 + 1) ≤ s.part.blockBitmap.free.card := hfree
    have hone : 1 ≤ blockCost (total / 512 + 1) := by
      unfold blockCost
      omega
    obtain ⟨lba, disk, part, hfirst, hc, hb⟩ :=
      firstBlock_ok hl hroot hf.toHasBlocks (hone.trans hcost)
    have hcard := hc.free_card
    have hbc : blockCost 1 = 1 := rfl
    have hpos : 1 ≤ total / 512 + 1 := by omega
    obtain ⟨w, hw, hp⟩ := writeBlocks_ok (s := ⟨disk, part, s.inode.setSector 0 lba⟩)
      (hc.layout hl) hb (Nat.le_refl 1) hpos (by omega) (by rw [hbc]; dsimp only; omega)
    rw [hsize]
    exact ⟨_, w, hfirst, rfl, hw, hp.first hl hc rfl⟩
  · have hn' : n = s.inode.iSize.toNat / 512 + 1 := by omega
    subst hn'
    have hgrow : s.inode.iSize.toNat / 512 + 1 ≤ total / 512 + 1 := by omega
    obtain ⟨w, hw, hp⟩ := writeBlocks_ok hl hf.toHasBlocks (by omega) hgrow (by omega) hfree
    exact ⟨s, w, firstBlock_there hl hf.toHasBlocks (by omega), rfl, hw, hp⟩

/-! ## The write -/

/-- The bytes of a file. -/
def fileView (disk : Bytes) (nd : Inode) (i : Nat) : UInt8 :=
  view 512 disk (secAddr (blockAt disk nd)) i

/-- A block that the loop does not use stays. -/
theorem WroteData.same {blocks : Nat → UInt32} {src : Bytes} {l l' : WriteLoop}
    (h : WroteData blocks src l l') {a : UInt32}
    (ha : ∀ k, l.iSize / 512 ≤ k → k ≤ (l.iSize + l.sizeLeft) / 512 → a ≠ blocks k) :
    Same l'.disk l.disk (a.toNat * 512) 512 := by
  intro x hlo hhi
  apply h.others
  intro k hk hk'
  have hapart := sectors_apart (ha k hk hk')
  unfold secAddr
  omega

/-- The blocks that a write has prepared are all the loop needs. -/
theorem Prepared.reaches {s : NodeState} {w : Writer} {has will lo top : Nat}
    (h : Prepared s w has will) (hlo : has ≤ lo + 1) (htop : top < will) :
    Reaches w.allBlocks lo top := by
  constructor
  · intro k hk hk'
    rw [h.collected k (by omega) (by omega)]
    exact (h.blocks.inUse k (by omega)).onDisk
  · intro i hi hi' k hk hk' he
    rw [h.collected i (by omega) (by omega), h.collected k (by omega) (by omega)] at he
    exact h.blocks.apart i (by omega) k (by omega) he

/-- What a write that went through has done. -/
structure Wrote (s : NodeState) (src : Bytes) (count n : Nat) (s' : NodeState) : Prop where
  size : s'.inode.iSize.toNat = s.inode.iSize.toNat + count
  file : FileOk s'.disk s'.part s'.inode ((s.inode.iSize.toNat + count) / 512 + 1)
  inode_eq : s'.inode = { s.inode with iSize := s'.inode.iSize, iSectors := s'.inode.iSectors }
  part_eq : BlocksOnly s.part s'.part
  layout : DiskLayout s'.part
  keeps : ∀ a, InUse s.part a → InUse s'.part a
  content : ∀ i < s.inode.iSize.toNat + count, fileView s'.disk s'.inode i =
    if s.inode.iSize.toNat ≤ i then src (i - s.inode.iSize.toNat) else fileView s.disk s.inode i
  others : ∀ a, DataBlock s.part a → ¬ Owns s'.disk s'.inode a →
    Same s'.disk s.disk (a.toNat * 512) 512
  fresh : ∀ a, Owns s'.disk s'.inode a → Owns s.disk s.inode a ∨ ¬ InUse s.part a
  synced : BlockMapSynced s.disk s.part → BlockMapSynced s'.disk s'.part
  free : s'.part.blockBitmap.free.card +
    blockCost ((s.inode.iSize.toNat + count) / 512 + 1) =
      s.part.blockBitmap.free.card + blockCost n

/-- The record of the file holds its inode, and of what lies before the data the block bitmap
alone changes beside it. -/
structure StoresNode (s s' : NodeState) : Prop where
  record : Inode.SameStored (diskInode s'.disk s.part (s.inode.iNo.toNat % 2 ^ 8)) s'.inode
  tables : ∀ x < s.part.sb.dataStartLba.toNat * 512,
    x < s.part.sb.blockBitmapLba.toNat * 512 ∨ s.part.sb.inodeBitmapLba.toNat * 512 ≤ x →
    x < inodeAddr s.part (s.inode.iNo.toNat % 2 ^ 8) ∨
      inodeAddr s.part (s.inode.iNo.toNat % 2 ^ 8) + SIZEOF_INODE ≤ x → s'.disk x = s.disk x

/-- The loop has put `count` bytes behind a file whose blocks were prepared, and the inode is
stored. -/
structure Finished (s : NodeState) (w : Writer) (src : Bytes) (count n : Nat) (l : WriteLoop)
    (s' : NodeState) : Prop where
  prepared : Prepared s w n ((s.inode.iSize.toNat + count) / 512 + 1)
  max : s.inode.iSize.toNat + count < 512 * 140
  loop : ∃ l₀, l₀.disk = w.disk ∧ l₀.iSize = s.inode.iSize.toNat ∧ l₀.bytesWritten = 0 ∧
    l₀.sizeLeft = count ∧ WroteData w.allBlocks src l₀ l
  inode : s'.inode = { w.inode with iSize := .ofNat l.iSize }
  part : s'.part = w.part
  disk : s'.disk = blit l.disk (inodeAddr w.part (w.inode.iNo.toNat % 2 ^ 8))
    s'.inode.pure.toBytes 0 SIZEOF_INODE

namespace Finished

variable {s s' : NodeState} {w : Writer} {src : Bytes} {count : Nat} {l : WriteLoop}
  (h : Finished s w src count n l s')
include h

theorem layout : DiskLayout w.part := by
  obtain ⟨disk, hclaims, -⟩ := h.prepared.claims
  exact hclaims.layout

theorem sb : w.part.sb = s.part.sb := by
  obtain ⟨disk, hclaims, -⟩ := h.prepared.claims
  exact hclaims.sb

theorem size : s'.inode.iSize.toNat = s.inode.iSize.toNat + count := by
  obtain ⟨l₀, -, hsize, -, hleft, hwrote⟩ := h.loop
  have hmax := h.max
  have hend : l.iSize = s.inode.iSize.toNat + count := by rw [hwrote.size, hsize, hleft]
  rw [h.inode, hend]
  exact UInt32.toNat_ofNat_of_lt' (by unfold UInt32.size; omega)

/-- A block of data that the loop does not use stays. -/
theorem block_same {a : UInt32} (ha : s.part.sb.dataStartLba.toNat ≤ a.toNat)
    (hne : ∀ k, s.inode.iSize.toNat / 512 ≤ k →
      k ≤ (s.inode.iSize.toNat + count) / 512 → a ≠ w.allBlocks k) :
    Same s'.disk w.disk (a.toNat * 512) 512 := by
  obtain ⟨l₀, hdisk, hsize, -, hleft, hwrote⟩ := h.loop
  have hloop : Same l.disk w.disk (a.toNat * 512) 512 := by
    rw [← hdisk]
    apply hwrote.same
    rw [hsize, hleft]
    exact hne
  rw [h.disk]
  rw [← h.sb] at ha
  exact (record_outside h.layout w.inode _ ha).trans hloop

theorem start (hf : FileOk s.disk s.part s.inode n) : n ≤ s.inode.iSize.toNat / 512 + 1 := by
  obtain ⟨rfl, -⟩ | hn := hf.count
  · exact Nat.zero_le _
  · omega

theorem collected (hf : FileOk s.disk s.part s.inode n) {k : Nat}
    (hk : s.inode.iSize.toNat / 512 ≤ k) (hk' : k ≤ (s.inode.iSize.toNat + count) / 512) :
    w.allBlocks k = blockAt w.disk w.inode k := by
  have hstart := h.start hf
  exact h.prepared.collected k (by omega) (by omega)

theorem blocks_eq (hf : FileOk s.disk s.part s.inode n) :
    blockAt s'.disk s'.inode = blockAt w.disk w.inode := by
  have hsec : s'.inode.iSectors = w.inode.iSectors := by rw [h.inode]
  apply blockAt_congr fun k _ => congrFun hsec k
  intro hne
  have hstart := (h.prepared.blocks.table hne).start
  rw [h.sb] at hstart
  apply h.block_same hstart
  intro k hk hk'
  rw [h.collected hf hk hk']
  exact (h.prepared.blocks.tableApart k (by omega)).symm

theorem owns (hf : FileOk s.disk s.part s.inode n) {a : UInt32} :
    Owns s'.disk s'.inode a ↔ Owns w.disk w.inode a := by
  have hsec : s'.inode.iSectors = w.inode.iSectors := by rw [h.inode]
  unfold Owns
  rw [h.blocks_eq hf, hsec]

theorem others (hf : FileOk s.disk s.part s.inode n) (hl : DiskLayout s.part) {a : UInt32}
    (ha : DataBlock s.part a) (hne : ¬ Owns s'.disk s'.inode a) :
    Same s'.disk s.disk (a.toNat * 512) 512 := by
  rw [h.owns hf] at hne
  have hmax := h.max
  have hz := ha.ne_zero hl
  have htable : a ≠ w.inode.iSectors 12 := fun he => hne ⟨hz, .inr he.symm⟩
  apply (h.block_same ha.start ?_).trans (h.prepared.same hl ha htable)
  intro k hk hk' he
  rw [h.collected hf hk hk'] at he
  exact hne ⟨hz, .inl ⟨k, by omega, he.symm⟩⟩

theorem fresh (hf : FileOk s.disk s.part s.inode n) {a : UInt32}
    (ha : Owns s'.disk s'.inode a) : Owns s.disk s.inode a ∨ ¬ InUse s.part a := by
  rw [h.owns hf] at ha
  obtain ⟨hz, ⟨k, hk, rfl⟩ | rfl⟩ := ha
  · by_cases hold : k < n
    · rw [h.prepared.old k hold] at hz ⊢
      exact .inl ⟨hz, .inl ⟨k, hk, rfl⟩⟩
    · right
      apply h.prepared.new k (by omega)
      by_contra hfar
      exact hz (h.prepared.blocks.rest k (by omega))
  · obtain ht | ht := h.prepared.table
    · rw [ht] at hz ⊢
      exact .inl ⟨hz, .inr rfl⟩
    · exact .inr ht

/-- A byte of the file lies in one of the blocks, and there the record is not. -/
theorem view_eq (hf : FileOk s.disk s.part s.inode n) {i : Nat}
    (hi : i < s.inode.iSize.toNat + count) :
    fileView s'.disk s'.inode i = view 512 l.disk (secAddr (blockAt w.disk w.inode)) i := by
  have hin := (h.prepared.blocks.inUse (i / 512) (by omega)).start
  unfold fileView
  rw [h.blocks_eq hf, h.disk]
  apply view_congr (by decide) rfl
  exact record_outside h.layout w.inode _ hin

/-- A byte that was there is where it was, and the blocks are prepared around it. -/
theorem view_old (hl : DiskLayout s.part) (hf : FileOk s.disk s.part s.inode n) {i : Nat}
    (hi : i < s.inode.iSize.toNat) :
    view 512 w.disk (secAddr (blockAt w.disk w.inode)) i = fileView s.disk s.inode i := by
  have hmax := h.max
  have hn : i / 512 < n := by
    obtain ⟨-, hz⟩ | hn := hf.count
    · rw [hz] at hi
      exact absurd hi (Nat.not_lt_zero _)
    · omega
  have hold := h.prepared.old (i / 512) hn
  have hin := hf.inUse (i / 512) hn
  have hne := h.prepared.blocks.tableApart (i / 512) (by omega)
  rw [hold] at hne
  have hbase : secAddr (blockAt w.disk w.inode) (i / 512) =
      secAddr (blockAt s.disk s.inode) (i / 512) := by
    unfold secAddr
    rw [hold]
  unfold fileView
  apply view_congr (by decide) hbase
  exact h.prepared.same hl hin.toDataBlock hne

theorem content (hl : DiskLayout s.part) (hf : FileOk s.disk s.part s.inode n) {i : Nat}
    (hi : i < s.inode.iSize.toNat + count) : fileView s'.disk s'.inode i =
      if s.inode.iSize.toNat ≤ i then src (i - s.inode.iSize.toNat)
      else fileView s.disk s.inode i := by
  obtain ⟨l₀, hdisk, hsize, hzero, hleft, hwrote⟩ := h.loop
  have hmax := h.max
  rw [h.view_eq hf hi]
  by_cases hlow : s.inode.iSize.toNat / 512 * 512 ≤ i
  · -- in one of the blocks the loop writes
    have hbase : secAddr (blockAt w.disk w.inode) (i / 512) = secAddr w.allBlocks (i / 512) := by
      unfold secAddr
      rw [h.collected hf (by omega) (by omega)]
    have hloop := hwrote.content i (by omega) (by omega)
    rw [view_congr (by decide) hbase fun _ _ _ => rfl, hloop, hsize, hzero, hdisk]
    by_cases hnew : s.inode.iSize.toNat ≤ i
    · rw [if_pos hnew, if_pos hnew, Nat.zero_add]
    · rw [if_neg hnew, if_neg hnew, ← h.view_old hl hf (by omega)]
      exact (view_congr (by decide) hbase fun _ _ _ => rfl).symm
  · rw [if_neg (by omega), ← h.view_old hl hf (by omega), ← hdisk]
    apply view_congr (by decide) rfl
    apply hwrote.same
    intro k hk hk'
    rw [h.collected hf (by omega) (by omega)]
    intro he
    rw [hdisk] at he
    have := h.prepared.blocks.apart (i / 512) (by omega) k (by omega) he
    omega

/-- Before the data only the record changes once the blocks are claimed. -/
theorem before (hf : FileOk s.disk s.part s.inode n) {disk : Bytes}
    (hdisk : ∀ a, (w.inode.iSectors 12 ≠ 0 → a < (w.inode.iSectors 12).toNat * 512 ∨
      (w.inode.iSectors 12).toNat * 512 + 512 ≤ a) → w.disk a = disk a) {x : Nat}
    (hx : x < w.part.sb.dataStartLba.toNat * 512)
    (hrec : x < inodeAddr w.part (w.inode.iNo.toNat % 2 ^ 8) ∨
      inodeAddr w.part (w.inode.iNo.toNat % 2 ^ 8) + SIZEOF_INODE ≤ x) : s'.disk x = disk x := by
  obtain ⟨l₀, hdisk₀, hsize, -, hleft, hwrote⟩ := h.loop
  have hmax := h.max
  rw [h.disk, blit_out hrec, hwrote.others, hdisk₀, hdisk]
  · intro hne
    have := (h.prepared.blocks.table hne).start
    omega
  · intro k hk hk'
    rw [hsize, hleft] at hk'
    have := (h.prepared.blocks.inUse k (by omega)).start
    unfold secAddr
    rw [h.collected hf (by omega) hk']
    omega

/-- The disk before the data changes where blocks are claimed. -/
theorem synced (hf : FileOk s.disk s.part s.inode n) (hs : BlockMapSynced s.disk s.part) :
    BlockMapSynced s'.disk s'.part := by
  obtain ⟨disk, hclaims, hdisk⟩ := h.prepared.claims
  have hl := h.layout
  have hlen := hl.blockMapLen
  have hmap := hl.blockMap
  have hinodes := hl.inodeMap
  have htable := hl.table
  rw [h.part]
  apply (hclaims.synced hs).congr
  intro x hlo hhi
  exact h.before hf hdisk (by omega) (by unfold inodeAddr; omega)

theorem stored (hf : FileOk s.disk s.part s.inode n) : StoresNode s s' := by
  obtain ⟨disk, hclaims, hdisk⟩ := h.prepared.claims
  have hsb := h.sb
  have hno : w.inode.iNo = s.inode.iNo := by rw [h.prepared.inode_eq]
  have haddr : inodeAddr w.part (w.inode.iNo.toNat % 2 ^ 8) =
      inodeAddr s.part (s.inode.iNo.toNat % 2 ^ 8) := by
    unfold inodeAddr
    rw [hsb, hno]
  constructor
  · rw [h.disk, haddr]
    exact (diskInode_stored s'.inode.pure).trans ⟨rfl, rfl, fun _ _ => rfl⟩
  · intro x hx hmap hrec
    rw [← haddr] at hrec
    rw [← hsb] at hx
    rw [h.before hf hdisk hx hrec]
    exact hclaims.outside x hmap

theorem wrote (hl : DiskLayout s.part) (hf : FileOk s.disk s.part s.inode n) :
    Wrote s src count n s' := by
  obtain ⟨disk, hclaims, -⟩ := h.prepared.claims
  have hsec : s'.inode.iSectors = w.inode.iSectors := by rw [h.inode]
  have hsize := h.size
  have hmax := h.max
  have hblocks : HasBlocks s'.disk s'.part s'.inode
      ((s.inode.iSize.toNat + count) / 512 + 1) := by
    have hw := h.prepared.blocks
    refine ⟨?_, ?_⟩
    · rw [h.blocks_eq hf, hsec, h.part]
      exact hw.toExtent
    · rw [hsec]
      exact hw.indirect
  constructor
  · exact hsize
  · exact ⟨hblocks, by omega, .inr (by omega)⟩
  · rw [h.inode, h.prepared.inode_eq]
  · rw [BlocksOnly, h.part]
    exact hclaims.part_eq
  · rw [h.part]
    exact hclaims.layout
  · rw [h.part]
    exact hclaims.keeps
  · intro i hi
    exact h.content hl hf hi
  · intro a ha hne
    exact h.others hf hl ha hne
  · intro a ha
    exact h.fresh hf ha
  · exact h.synced hf
  · rw [h.part]
    exact h.prepared.free

end Finished

/-- A write with room for it goes through. -/
theorem writeNode_ok {s : NodeState} (src : Bytes) (count : UInt32) (hl : DiskLayout s.part)
    (hroot : s.part.blockBitmap.bit 0 = true) (hf : FileOk s.disk s.part s.inode n)
    (hmax : s.inode.iSize.toNat + count.toNat < 512 * 140)
    (hfree : blockCost ((s.inode.iSize.toNat + count.toNat) / 512 + 1) ≤
      s.part.blockBitmap.free.card + blockCost n) :
    ∃ l s', writeNode s src count = .ok (some l, s') ∧ l.bytesWritten = count.toNat ∧
      Wrote s src count.toNat n s' ∧ StoresNode s s' := by
  obtain ⟨s₁, w, hfirst, hsize₁, hblocks, hp⟩ :=
    prepare_ok hl hroot hf (Nat.le_add_right _ _) hmax hfree
  have hsum : (s.inode.iSize + count).toNat = s.inode.iSize.toNat + count.toNat := by
    rw [UInt32.toNat_add, Nat.mod_eq_of_lt (by omega)]
  have hwsize : w.inode.iSize = s.inode.iSize := by rw [hp.inode_eq]
  have hwill : (s.inode.iSize.toNat + count.toNat) / 512 + 1 ≤ 140 := by omega
  let l₀ : WriteLoop :=
    { disk := w.disk
      iSize := w.inode.iSize.toNat
      fdPos := (w.inode.iSize - 1).toNat
      bytesWritten := 0
      sizeLeft := count.toNat
      firstWriteBlock := true
      ioBuf := fun _ => 0 }
  have hstart : n ≤ s.inode.iSize.toNat / 512 + 1 := by
    obtain ⟨rfl, -⟩ | hn := hf.count
    · exact Nat.zero_le _
    · omega
  have hreaches : Reaches w.allBlocks (l₀.iSize / 512) ((l₀.iSize + l₀.sizeLeft) / 512) := by
    dsimp only [l₀]
    rw [hwsize]
    exact hp.reaches hstart (by omega)
  have hend : l₀.iSize + l₀.sizeLeft < 140 * 512 := by
    dsimp only [l₀]
    rw [hwsize]
    omega
  obtain ⟨l, hloop, hwrote⟩ : ∃ l, writeLoop w.allBlocks src count.toNat (count.toNat + 1) l₀ =
      .ok l ∧ WroteData w.allBlocks src l₀ l :=
    writeLoop_ok _ (Nat.zero_add _) (Nat.lt_succ_self _) hend hreaches (.inl rfl)
  have hfin : Finished s w src count.toNat n l
      ⟨blit l.disk (inodeAddr w.part (w.inode.iNo.toNat % 2 ^ 8))
        { w.inode with iSize := .ofNat l.iSize }.pure.toBytes 0 SIZEOF_INODE, w.part,
        { w.inode with iSize := .ofNat l.iSize }⟩ :=
    ⟨hp, hmax, ⟨l₀, rfl, congrArg UInt32.toNat hwsize, rfl, rfl, hwrote⟩, rfl, rfl, rfl⟩
  refine ⟨l, _, ?_, ?_, hfin.wrote hl hf, hfin.stored hf⟩
  · simp only [writeNode, hfirst, ok_bind, hsize₁, hsum, ASSERT_true hwill, hblocks]
    simp only [not_true_eq_false, ↓reduceIte, hloop, ok_bind, l₀,
      inodeSync_eq hfin.layout.fits]
    rfl
  · rw [hwrote.written]
    exact Nat.zero_add _

end ZhuOS
