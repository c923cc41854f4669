import ZhuOS.File

/-!
# The blocks of a file

A file has its first blocks up to some number, with the table when that number is above
twelve, and a write takes it to a higher one. While blocks are claimed the table on disk is
behind; `Extent` says which blocks the file has without it.
-/

namespace ZhuOS

open ByteMem

set_option maxRecDepth 2000

/-! ## Claims one after the other -/

/-- What claims of blocks do to the rest. -/
structure Claims (disk : Bytes) (part : Partition) (disk' : Bytes) (part' : Partition) : Prop where
  part_eq : part' = { part with blockBitmap := part'.blockBitmap }
  layout : DiskLayout part'
  keeps : ∀ a, InUse part a → InUse part' a
  outside : OutsideBlockMap part disk' disk
  synced : BlockMapSynced disk part → BlockMapSynced disk' part'

namespace Claims

variable {disk disk' disk'' : Bytes} {part part' part'' : Partition}

theorem refl (hl : DiskLayout part) (disk : Bytes) : Claims disk part disk part :=
  ⟨rfl, hl, fun _ h => h, fun _ _ => rfl, fun h => h⟩

theorem sb (h : Claims disk part disk' part') : part'.sb = part.sb := by
  rw [h.part_eq]

theorem trans (h : Claims disk part disk' part') (h' : Claims disk' part' disk'' part'') :
    Claims disk part disk'' part'' := by
  constructor
  · rw [h'.part_eq, h.part_eq]
  · exact h'.layout
  · intro a ha
    exact h'.keeps a (h.keeps a ha)
  · intro a ha
    rw [h'.outside a (by rwa [h.sb]), h.outside a ha]
  · intro hs
    exact h'.synced (h.synced hs)

theorem of_claimed {lba : UInt32} (hl : DiskLayout part) (h : Claimed disk part lba disk' part') :
    Claims disk part disk' part' := by
  constructor
  · rw [h.part_eq]
    rfl
  · exact h.layout hl
  · intro a ha
    exact h.keeps ha
  · exact h.outside hl
  · exact h.synced

theorem same (h : Claims disk part disk' part') (hl : DiskLayout part) {a : UInt32}
    (ha : DataBlock part a) : Same disk' disk (a.toNat * 512) 512 := h.outside.same hl ha

end Claims

theorem Claimed.unused {disk disk' : Bytes} {part part' : Partition} {lba : UInt32}
    (h : Claimed disk part lba disk' part') : ¬ InUse part lba := by
  intro hu
  exact h.ne hu rfl

/-! ## The first blocks of a file -/

/-- The first `n` blocks are in use and no two the same, nor the table one of them. -/
structure Extent (part : Partition) (addr : Nat → UInt32) (t : UInt32) (n : Nat) : Prop where
  inUse : ∀ k < n, InUse part (addr k)
  apart : ∀ i < n, ∀ k < n, addr i = addr k → i = k
  table : t ≠ 0 → InUse part t
  tableApart : ∀ k < n, addr k ≠ t
  rest : ∀ k, n ≤ k → addr k = 0

/-- A file that has its first `n` blocks. -/
structure HasBlocks (disk : Bytes) (part : Partition) (nd : Inode) (n : Nat) : Prop
    extends Extent part (blockAt disk nd) (nd.iSectors 12) n where
  indirect : nd.iSectors 12 ≠ 0 ↔ 12 < n

/-- The blocks a file of `n` takes, with its table. -/
def blockCost (n : Nat) : Nat := n + if 12 < n then 1 else 0

theorem blockCost_mono {m n : Nat} (h : m ≤ n) : blockCost m ≤ blockCost n := by
  unfold blockCost
  split <;> split <;> omega

variable {disk disk' : Bytes} {part part' : Partition} {nd : Inode} {addr : Nat → UInt32}
  {t lba : UInt32} {n : Nat}

theorem Extent.claims (h : Extent part addr t n) (hc : Claims disk part disk' part') :
    Extent part' addr t n := by
  constructor
  · intro k hk
    exact hc.keeps _ (h.inUse k hk)
  · exact h.apart
  · intro ht
    exact hc.keeps _ (h.table ht)
  · exact h.tableApart
  · exact h.rest

/-- One block more. -/
theorem Extent.snoc (h : Extent part addr t n) (hl : DiskLayout part)
    (hc : Claimed disk part lba disk' part') :
    Extent part' (Function.update addr n lba) t (n + 1) := by
  have hold : ∀ k < n, Function.update addr n lba k = addr k := by
    intro k hk
    exact Function.update_of_ne (by omega) ..
  have hself : Function.update addr n lba n = lba := Function.update_self ..
  constructor
  · intro k hk
    by_cases hkn : k = n
    · rw [hkn, hself]
      exact hc.inUse
    · rw [hold k (by omega)]
      exact hc.keeps (h.inUse k (by omega))
  · intro i hi k hk he
    by_cases hin : i = n
    · by_cases hkn : k = n
      · rw [hin, hkn]
      · rw [hin, hself, hold k (by omega)] at he
        exact absurd he.symm (hc.ne (h.inUse k (by omega)))
    · by_cases hkn : k = n
      · rw [hkn, hself, hold i (by omega)] at he
        exact absurd he (hc.ne (h.inUse i (by omega)))
      · rw [hold i (by omega), hold k (by omega)] at he
        exact h.apart i (by omega) k (by omega) he
  · intro ht
    exact hc.keeps (h.table ht)
  · intro k hk
    by_cases hkn : k = n
    · rw [hkn, hself]
      rintro rfl
      exact hc.unused (h.table (hc.block.ne_zero hl))
    · rw [hold k (by omega)]
      exact h.tableApart k (by omega)
  · intro k hk
    rw [Function.update_of_ne (by omega)]
    exact h.rest k (by omega)

/-- A table for a file that has none. -/
theorem Extent.addTable (h : Extent part addr 0 n) (hc : Claimed disk part lba disk' part') :
    Extent part' addr lba n := by
  constructor
  · intro k hk
    exact hc.keeps (h.inUse k hk)
  · exact h.apart
  · intro _
    exact hc.inUse
  · intro k hk
    exact hc.ne (h.inUse k hk)
  · exact h.rest

theorem HasBlocks.own (h : HasBlocks disk part nd n) : OwnBlocks disk part nd := by
  have hlt : ∀ k, blockAt disk nd k ≠ 0 → k < n := by
    intro k hne
    by_contra hk
    exact hne (h.rest k (by omega))
  constructor
  · intro k _ hne
    exact h.inUse k (hlt k hne)
  · exact h.table
  · intro k _ i _ hne he
    exact h.apart k (hlt k hne) i (hlt i (he ▸ hne)) he
  · intro k _ hne
    exact h.tableApart k (hlt k hne)

theorem HasBlocks.claims (h : HasBlocks disk part nd n) (hl : DiskLayout part)
    (hc : Claims disk part disk' part') : HasBlocks disk' part' nd n := by
  have hblocks : blockAt disk' nd = blockAt disk nd :=
    blockAt_congr (fun _ _ => rfl) fun ht => hc.same hl (h.table ht).toDataBlock
  refine ⟨?_, h.indirect⟩
  rw [hblocks]
  exact h.toExtent.claims hc

/-! ## The loop that claims -/

/-- The loop has claimed `left` blocks for a file that had `n`. -/
structure ClaimedBlocks (w w' : Writer) (addr addr' : Nat → UInt32) (t : UInt32) (n left : Nat) :
    Prop where
  claims : Claims w.disk w.part w'.disk w'.part
  extent : Extent w'.part addr' t (n + left)
  old : ∀ k < n, addr' k = addr k
  new : ∀ k, n ≤ k → k < n + left → ¬ InUse w.part (addr' k)
  direct : ∀ k < 12, w'.inode.iSectors k = addr' k
  sectors : ∀ k, 12 ≤ k → w'.inode.iSectors k = w.inode.iSectors k
  inode_eq : w'.inode = { w.inode with iSectors := w'.inode.iSectors }
  collected : ∀ k, w'.allBlocks k = if n ≤ k ∧ k < n + left then addr' k else w.allBlocks k
  free : w'.part.blockBitmap.free.card + left = w.part.blockBitmap.free.card

/-- With blocks enough the loop claims them all. -/
theorem claimBlocks_ok (left : Nat) {w : Writer} {addr : Nat → UInt32} {t : UInt32} {n : Nat}
    (hl : DiskLayout w.part) (hx : Extent w.part addr t n)
    (hdirect : ∀ k < 12, w.inode.iSectors k = addr k)
    (hfree : left ≤ w.part.blockBitmap.free.card) :
    ∃ w' addr', claimBlocks left n w = .ok (true, w') ∧ ClaimedBlocks w w' addr addr' t n left := by
  induction left generalizing w addr n with
  | zero =>
    refine ⟨w, addr, rfl, .refl hl _, hx, fun _ _ => rfl, ?_, hdirect, fun _ _ => rfl, rfl, ?_, rfl⟩
    · intro k hk hk'
      omega
    · intro k
      rw [if_neg (by omega)]
  | succ left ih =>
    obtain ⟨lba, disk, part, hclaim, hc⟩ := claimBlock_total hl w.disk (by omega)
    have hcard := hc.free_card
    -- what the round makes of the inode
    obtain ⟨inode, hround, hsec, hfar, heq⟩ : ∃ inode : Inode,
        claimBlocks (left + 1) n w = claimBlocks left (n + 1)
          ⟨⟨disk, part, inode⟩, Function.update w.allBlocks n lba⟩ ∧
        (∀ k < 12, inode.iSectors k = Function.update addr n lba k) ∧
        (∀ k, 12 ≤ k → inode.iSectors k = w.inode.iSectors k) ∧
        inode = { w.inode with iSectors := inode.iSectors } := by
      by_cases hn : n < 12
      · have hz : w.inode.iSectors n = 0 := (hdirect n hn).trans (hx.rest n (Nat.le_refl _))
        refine ⟨w.inode.setSector n lba, ?_, ?_, ?_, rfl⟩
        · simp only [claimBlocks, hclaim, ok_bind, if_pos hn, ASSERT_true hz]
        · intro k hk
          by_cases hkn : k = n
          · rw [hkn, setSector_self, Function.update_self]
          · rw [setSector_other hkn, Function.update_of_ne hkn, hdirect k hk]
        · intro k hk
          exact setSector_other (by omega)
      · refine ⟨w.inode, ?_, ?_, fun _ _ => rfl, rfl⟩
        · simp only [claimBlocks, hclaim, ok_bind, if_neg hn]
        · intro k hk
          rw [Function.update_of_ne (by omega), hdirect k hk]
    obtain ⟨w', addr', hrun, h⟩ :=
      ih (w := ⟨⟨disk, part, inode⟩, Function.update w.allBlocks n lba⟩) (hc.layout hl)
        (hx.snoc hl hc) hsec (by dsimp only; omega)
    have hclaims := (Claims.of_claimed hl hc).trans h.claims
    have hlba : addr' n = lba := by
      rw [h.old n (by omega), Function.update_self]
    refine ⟨w', addr', hround.trans hrun, hclaims, ?_, ?_, ?_, h.direct, ?_, ?_, ?_, ?_⟩
    · have hadd : n + (left + 1) = n + 1 + left := by omega
      rw [hadd]
      exact h.extent
    · intro k hk
      rw [h.old k (by omega), Function.update_of_ne (by omega)]
    · intro k hk hk'
      by_cases hkn : k = n
      · rw [hkn, hlba]
        exact hc.unused
      · intro hu
        exact h.new k (by omega) (by omega) (hc.keeps hu)
    · intro k hk
      exact (h.sectors k hk).trans (hfar k hk)
    · rw [h.inode_eq]
      dsimp only
      rw [heq]
    · intro k
      rw [h.collected k]
      by_cases hkn : k = n
      · rw [if_neg (by omega), if_pos (by omega), hkn, hlba]
        exact Function.update_self ..
      · by_cases hin : n ≤ k ∧ k < n + (left + 1)
        · rw [if_pos (by omega), if_pos hin]
        · rw [if_neg (by omega), if_neg hin]
          exact Function.update_of_ne hkn ..
    · have := h.free
      dsimp only at this
      omega

/-! ## What a write has collected -/

/-- `writeBlocks` has taken a file from `has` blocks to `will`. -/
structure Prepared (s : NodeState) (w : Writer) (has will : Nat) : Prop where
  /-- but for the table, the disk changes where blocks are claimed -/
  claims : ∃ disk, Claims s.disk s.part disk w.part ∧
    ∀ a, (w.inode.iSectors 12 ≠ 0 → a < (w.inode.iSectors 12).toNat * 512 ∨
      (w.inode.iSectors 12).toNat * 512 + 512 ≤ a) → w.disk a = disk a
  blocks : HasBlocks w.disk w.part w.inode will
  old : ∀ k < has, blockAt w.disk w.inode k = blockAt s.disk s.inode k
  new : ∀ k, has ≤ k → k < will → ¬ InUse s.part (blockAt w.disk w.inode k)
  table : w.inode.iSectors 12 = s.inode.iSectors 12 ∨ ¬ InUse s.part (w.inode.iSectors 12)
  collected : ∀ k, has ≤ k + 1 → k < will → w.allBlocks k = blockAt w.disk w.inode k
  inode_eq : w.inode = { s.inode with iSectors := w.inode.iSectors }
  free : w.part.blockBitmap.free.card + blockCost will =
    s.part.blockBitmap.free.card + blockCost has

theorem oneBlock_self (nd : Inode) (k : Nat) : oneBlock nd k k = nd.iSectors k :=
  Function.update_self ..

theorem oneBlock_other {k i : Nat} (h : i ≠ k) : oneBlock nd k i = 0 :=
  Function.update_of_ne h ..

/-- A table that is read is the one the addresses come from. -/
theorem readTable_ok (disk : Bytes) (ht : (nd.iSectors 12).toNat ≤ max_lba)
    (blocks : Nat → UInt32) :
    ∃ all, readTable disk (nd.iSectors 12) blocks = .ok all ∧
      (∀ k, 12 ≤ k → k < 140 → nd.iSectors 12 ≠ 0 → all k = blockAt disk nd k) ∧
      ∀ k < 12, all k = blocks k := by
  refine ⟨_, by simp only [readTable, ideRead_one ht, ok_bind]; rfl, ?_, ?_⟩
  · intro k hk hk' hne
    rw [withTable, if_pos ⟨hk, hk'⟩, blockAt_table hne hk hk']
    apply getWord_congr
    intro i hi
    rw [blit_in (by omega) (by omega)]
    exact congrArg disk (by omega)
  · intro k hk
    exact if_neg (by omega)

/-- A table that was written holds the addresses. -/
theorem blockAt_written (disk : Bytes) {blocks : Nat → UInt32} (ht : nd.iSectors 12 ≠ 0)
    (hdirect : ∀ k < 12, nd.iSectors k = addr k)
    (htable : ∀ k, 12 ≤ k → k < 140 → blocks k = addr k) (hrest : ∀ k, 140 ≤ k → addr k = 0) :
    blockAt (blit disk ((nd.iSectors 12).toNat * 512) (tableBytes blocks) 0 512) nd = addr := by
  funext k
  by_cases hlow : k < 12
  · rw [blockAt_direct hlow, hdirect k hlow]
  · by_cases hfar : 140 ≤ k
    · rw [blockAt_far hfar, hrest k hfar]
    · have hidx : 12 + (k - 12) = k := by omega
      rw [blockAt_table ht (by omega) (by omega), tableBytes, getWord_blit_packWords _ (by omega),
        hidx, htable k (by omega) (by omega)]

theorem HasBlocks.noTable (h : HasBlocks disk part nd n) (hn : n ≤ 12) : nd.iSectors 12 = 0 := by
  by_contra hne
  have := h.indirect.mp hne
  omega

theorem HasBlocks.direct_ne (h : HasBlocks disk part nd n) (hl : DiskLayout part) {k : Nat}
    (hk : k < n) (hk' : k < 12) : nd.iSectors k ≠ 0 := by
  have hu := h.inUse k hk
  rw [blockAt_direct hk'] at hu
  exact hu.ne_zero hl

/-- Nothing to claim. -/
theorem Prepared.none {s : NodeState} {has : Nat} (hl : DiskLayout s.part)
    (h : HasBlocks s.disk s.part s.inode has) {blocks : Nat → UInt32}
    (hb : ∀ k, has ≤ k + 1 → k < has → blocks k = blockAt s.disk s.inode k) :
    Prepared s ⟨s, blocks⟩ has has := by
  refine ⟨⟨s.disk, .refl hl _, fun _ _ => rfl⟩, h, fun _ _ => rfl, ?_, .inl rfl, hb, rfl, rfl⟩
  intro k hk hk'
  omega

/-- `claimBehindTable` has taken a file with the blocks `addr` from `has` blocks to `will`. -/
structure Behind (w w' : Writer) (addr : Nat → UInt32) (has will : Nat) : Prop where
  claims : ∃ disk, Claims w.disk w.part disk w'.part ∧
    ∀ a, a < (w.inode.iSectors 12).toNat * 512 ∨
      (w.inode.iSectors 12).toNat * 512 + 512 ≤ a → w'.disk a = disk a
  blocks : HasBlocks w'.disk w'.part w'.inode will
  old : ∀ k < has, blockAt w'.disk w'.inode k = addr k
  new : ∀ k, has ≤ k → k < will → ¬ InUse w.part (blockAt w'.disk w'.inode k)
  table : w'.inode.iSectors 12 = w.inode.iSectors 12
  collected : ∀ k, has ≤ k + 1 → k < will → w'.allBlocks k = blockAt w'.disk w'.inode k
  inode_eq : w'.inode = { w.inode with iSectors := w'.inode.iSectors }
  free : w'.part.blockBitmap.free.card + (will - has) = w.part.blockBitmap.free.card

theorem claimBehindTable_ok {w : Writer} {addr : Nat → UInt32} {has will : Nat}
    (hl : DiskLayout w.part) (hx : Extent w.part addr (w.inode.iSectors 12) has)
    (ht : w.inode.iSectors 12 ≠ 0) (hlt : 12 < will) (hle : has ≤ will) (hmax : will ≤ 140)
    (hdirect : ∀ k < 12, w.inode.iSectors k = addr k)
    (hall : ∀ k, has ≤ k + 1 ∨ 12 ≤ k → k < 140 → w.allBlocks k = addr k)
    (hfree : will - has ≤ w.part.blockBitmap.free.card) :
    ∃ w', claimBehindTable w (w.inode.iSectors 12) has will = .ok (true, w') ∧
      Behind w w' addr has will := by
  obtain ⟨w', addr', hrun, h⟩ := claimBlocks_ok (will - has) hl hx hdirect hfree
  have h12 := h.sectors 12 (Nat.le_refl _)
  have hsum : has + (will - has) = will := by omega
  have hextent := h.extent
  rw [hsum] at hextent
  have hcollected : ∀ k, has ≤ k + 1 ∨ 12 ≤ k → k < 140 → w'.allBlocks k = addr' k := by
    intro k hk hk'
    rw [h.collected k]
    by_cases hin : has ≤ k ∧ k < has + (will - has)
    · rw [if_pos hin]
    · rw [if_neg hin, hall k hk hk']
      by_cases hlow : k < has
      · exact (h.old k hlow).symm
      · rw [hx.rest k (by omega), hextent.rest k (by omega)]
  let disk := blit w'.disk ((w.inode.iSectors 12).toNat * 512) (tableBytes w'.allBlocks) 0 512
  have hblocks : blockAt disk w'.inode = addr' := by
    have hwritten := blockAt_written w'.disk (h12 ▸ ht) h.direct
      (fun k hk hk' => hcollected k (.inr hk) hk') (fun k hk => hextent.rest k (by omega))
    rwa [h12] at hwritten
  refine ⟨{ w' with disk }, ?_, ⟨w'.disk, h.claims, ?_⟩, ⟨?_, ?_⟩, ?_, ?_, h12, ?_, h.inode_eq,
    h.free⟩
  · simp only [claimBehindTable, hrun, ok_bind, ↓reduceIte, ideWrite_one (hx.table ht).onDisk]
    rfl
  · intro a ha
    exact blit_out ha
  · dsimp only
    rw [hblocks, h12]
    exact hextent
  · dsimp only
    rw [h12]
    exact ⟨fun _ => hlt, fun _ => ht⟩
  · intro k hk
    dsimp only
    rw [hblocks, h.old k hk]
  · intro k hk hk'
    dsimp only
    rw [hblocks]
    exact h.new k hk (by omega)
  · intro k hk hk'
    dsimp only
    rw [hblocks]
    exact hcollected k (.inl hk) (by omega)

section Cases

variable {s : NodeState} {has will : Nat}

theorem oneBlock_eq (h : HasBlocks disk part nd has) (hpos : 1 ≤ has) (hle : has ≤ 12) {k : Nat}
    (hk : has ≤ k + 1) : oneBlock nd (has - 1) k = blockAt disk nd k := by
  by_cases he : k = has - 1
  · rw [he, oneBlock_self, blockAt_direct (by omega)]
  · rw [oneBlock_other he, h.rest k (by omega)]

theorem readTable_eq (h : HasBlocks disk part nd has) (hlt : 12 < has) :
    ∃ all, readTable disk (nd.iSectors 12) (fun _ => 0) = .ok all ∧
      ∀ k, 12 ≤ k → k < 140 → all k = blockAt disk nd k := by
  have hne := h.indirect.mpr hlt
  obtain ⟨all, hall, htable, -⟩ := readTable_ok disk (h.table hne).onDisk fun _ => 0
  exact ⟨all, hall, fun k hk hk' => htable k hk hk' hne⟩

/-- No block is added. -/
theorem writeBlocks_same (hl : DiskLayout s.part) (h : HasBlocks s.disk s.part s.inode has)
    (hpos : 1 ≤ has) (hmax : has ≤ 140) :
    ∃ w, writeBlocks s has has = .ok (true, w) ∧ Prepared s w has has := by
  by_cases h12 : has ≤ 12
  · refine ⟨_, by rw [writeBlocks, if_pos rfl, if_pos h12]; rfl, .none hl h ?_⟩
    intro k hk _
    exact oneBlock_eq h hpos h12 hk
  · obtain ⟨all, hall, htable⟩ := readTable_eq h (by omega)
    refine ⟨⟨s, all⟩, ?_, .none hl h ?_⟩
    · rw [writeBlocks, if_pos rfl, if_neg h12, ASSERT_true (h.indirect.mpr (by omega)), hall]
      rfl
    · intro k hk hk'
      exact htable k (by omega) (by omega)

/-- The direct blocks are enough. -/
theorem writeBlocks_direct (hl : DiskLayout s.part) (h : HasBlocks s.disk s.part s.inode has)
    (hpos : 1 ≤ has) (hlt : has < will) (h12 : will ≤ 12)
    (hfree : will - has ≤ s.part.blockBitmap.free.card) :
    ∃ w, writeBlocks s has will = .ok (true, w) ∧ Prepared s w has will := by
  have hz := h.noTable (by omega)
  obtain ⟨w, addr, hrun, hc⟩ := claimBlocks_ok (will - has) (n := has)
    (w := ⟨s, oneBlock s.inode (has - 1)⟩) hl h.toExtent (fun k hk => (blockAt_direct hk).symm)
    hfree
  have hsum : has + (will - has) = will := by omega
  have hextent := hc.extent
  rw [hsum] at hextent
  have hz' : w.inode.iSectors 12 = 0 := (hc.sectors 12 (Nat.le_refl _)).trans hz
  have hblocks : blockAt w.disk w.inode = addr := by
    funext k
    by_cases hk : k < 12
    · rw [blockAt_direct hk, hc.direct k hk]
    · rw [blockAt_noTable hz' (by omega), hextent.rest k (by omega)]
  refine ⟨w, ?_, ⟨w.disk, hc.claims, fun _ _ => rfl⟩, ⟨?_, ?_⟩, ?_, ?_, .inl ?_, ?_, hc.inode_eq,
    ?_⟩
  · rw [writeBlocks, if_neg (by omega), if_pos h12, if_neg (by omega),
      ASSERT_true (h.direct_ne hl (by omega) (by omega))]
    exact hrun
  · rw [hblocks, hz', ← hz]
    exact hextent
  · rw [hz']
    exact ⟨fun hn => absurd rfl hn, fun hn => by omega⟩
  · intro k hk
    rw [hblocks, hc.old k hk]
  · intro k hk hk'
    rw [hblocks]
    exact hc.new k hk (by omega)
  · rw [hz', hz]
  · intro k hk hk'
    rw [hc.collected k, hblocks]
    by_cases hin : has ≤ k
    · rw [if_pos ⟨hin, by omega⟩]
    · rw [if_neg (by omega), hc.old k (by omega)]
      exact oneBlock_eq h hpos (by omega) hk
  · have hcnt : w.part.blockBitmap.free.card + (will - has) = s.part.blockBitmap.free.card :=
      hc.free
    unfold blockCost
    rw [if_neg (by omega), if_neg (by omega)]
    omega

/-- The table is new. -/
theorem writeBlocks_newTable (hl : DiskLayout s.part) (h : HasBlocks s.disk s.part s.inode has)
    (hpos : 1 ≤ has) (hhas : has ≤ 12) (hlt : 12 < will) (hmax : will ≤ 140)
    (hfree : will - has + 1 ≤ s.part.blockBitmap.free.card) :
    ∃ w, writeBlocks s has will = .ok (true, w) ∧ Prepared s w has will := by
  have hz := h.noTable hhas
  obtain ⟨lba, disk, part, hclaim, hc⟩ := claimBlock_total hl s.disk (by omega)
  have hcard := hc.free_card
  have hlba := hc.block.ne_zero hl
  have h12 : (s.inode.setSector 12 lba).iSectors 12 = lba := setSector_self ..
  have hx : Extent part (blockAt s.disk s.inode) ((s.inode.setSector 12 lba).iSectors 12) has := by
    rw [h12]
    exact (hz ▸ h.toExtent).addTable hc
  obtain ⟨w, hrun, hb⟩ := claimBehindTable_ok
    (w := ⟨⟨disk, part, s.inode.setSector 12 lba⟩, oneBlock s.inode (has - 1)⟩)
    (hc.layout hl) hx (by rwa [h12]) hlt (by omega) hmax
    (fun k hk => (setSector_other (by omega)).trans (blockAt_direct hk).symm)
    (fun k hk _ => oneBlock_eq h hpos hhas (by omega)) (by dsimp only; omega)
  have ht : w.inode.iSectors 12 = lba := hb.table.trans h12
  obtain ⟨disk', hclaims, hdisk⟩ := hb.claims
  refine ⟨w, ?_, ⟨disk', (Claims.of_claimed hl hc).trans hclaims, ?_⟩, hb.blocks, hb.old, ?_,
    .inr ?_, hb.collected, hb.inode_eq, ?_⟩
  · rw [writeBlocks, if_neg (by omega), if_neg (by omega), if_pos hhas]
    simp only [hclaim, ok_bind, ASSERT_true hz]
    rwa [h12] at hrun
  · intro a ha
    rw [ht] at ha
    apply hdisk a
    rw [h12]
    exact ha hlba
  · intro k hk hk' hu
    exact hb.new k hk hk' (hc.keeps hu)
  · rw [ht]
    exact hc.unused
  · have hcnt : w.part.blockBitmap.free.card + (will - has) = part.blockBitmap.free.card := hb.free
    unfold blockCost
    rw [if_pos hlt, if_neg (by omega)]
    omega

/-- The table is there. -/
theorem writeBlocks_table (hl : DiskLayout s.part) (h : HasBlocks s.disk s.part s.inode has)
    (hhas : 12 < has) (hlt : has < will) (hmax : will ≤ 140)
    (hfree : will - has ≤ s.part.blockBitmap.free.card) :
    ∃ w, writeBlocks s has will = .ok (true, w) ∧ Prepared s w has will := by
  have hne := h.indirect.mpr hhas
  obtain ⟨all, hall, htable⟩ := readTable_eq h hhas
  obtain ⟨w, hrun, hb⟩ := claimBehindTable_ok (w := ⟨s, all⟩) hl h.toExtent hne (by omega)
    (by omega) hmax (fun k hk => (blockAt_direct hk).symm)
    (fun k hk hk' => htable k (by omega) hk') hfree
  have ht : w.inode.iSectors 12 = s.inode.iSectors 12 := hb.table
  obtain ⟨disk', hclaims, hdisk⟩ := hb.claims
  refine ⟨w, ?_, ⟨disk', hclaims, ?_⟩, hb.blocks, hb.old, hb.new, .inl ht, hb.collected,
    hb.inode_eq, ?_⟩
  · rw [writeBlocks, if_neg (by omega), if_neg (by omega), if_neg (by omega), ASSERT_true hne,
      ok_bind, hall, ok_bind]
    exact hrun
  · intro a ha
    rw [ht] at ha
    exact hdisk a (ha hne)
  · have hcnt : w.part.blockBitmap.free.card + (will - has) = s.part.blockBitmap.free.card :=
      hb.free
    unfold blockCost
    rw [if_pos (by omega), if_pos hhas]
    omega

/-- With blocks enough every case collects the addresses of the blocks the write uses. -/
theorem writeBlocks_ok (hl : DiskLayout s.part) (h : HasBlocks s.disk s.part s.inode has)
    (hpos : 1 ≤ has) (hle : has ≤ will) (hmax : will ≤ 140)
    (hfree : blockCost will ≤ s.part.blockBitmap.free.card + blockCost has) :
    ∃ w, writeBlocks s has will = .ok (true, w) ∧ Prepared s w has will := by
  unfold blockCost at hfree
  by_cases heq : has = will
  · subst heq
    exact writeBlocks_same hl h hpos hmax
  · by_cases h12 : will ≤ 12
    · rw [if_neg (by omega), if_neg (by omega)] at hfree
      exact writeBlocks_direct hl h hpos (by omega) h12 (by omega)
    · rw [if_pos (by omega)] at hfree
      by_cases hhas : has ≤ 12
      · rw [if_neg (by omega)] at hfree
        exact writeBlocks_newTable hl h hpos hhas (by omega) hmax (by omega)
      · rw [if_pos (by omega)] at hfree
        exact writeBlocks_table hl h (by omega) (by omega) hmax (by omega)

end Cases

/-- The first block of a file that had none. -/
theorem firstBlock_ok {s : NodeState} (hl : DiskLayout s.part)
    (hroot : s.part.blockBitmap.bit 0 = true) (h : HasBlocks s.disk s.part s.inode 0)
    (hfree : 1 ≤ s.part.blockBitmap.free.card) :
    ∃ lba disk part, firstBlock s = .ok (true, ⟨disk, part, s.inode.setSector 0 lba⟩) ∧
      Claimed s.disk s.part lba disk part ∧
      HasBlocks disk part (s.inode.setSector 0 lba) 1 := by
  obtain ⟨lba, disk, part, hclaim, hc⟩ := claimBlock_total hl s.disk hfree
  have hz : s.inode.iSectors 0 = 0 := by
    have hdirect : blockAt s.disk s.inode 0 = s.inode.iSectors 0 := blockAt_direct (by decide)
    rw [← hdirect]
    exact h.rest 0 (Nat.le_refl _)
  have hz12 := h.noTable (by decide)
  have hidx : lba - part.sb.dataStartLba ≠ 0 := by
    intro he
    have hblock := hc.block.idx_eq
    rw [← hc.sb, he] at hblock
    have hbit := hc.free
    rw [← hblock] at hbit
    exact absurd (hbit.symm.trans hroot) (by decide)
  have h12 : (s.inode.setSector 0 lba).iSectors 12 = 0 := hz12
  have hblocks : blockAt disk (s.inode.setSector 0 lba) =
      Function.update (blockAt s.disk s.inode) 0 lba := by
    funext k
    rw [Function.update_apply]
    exact blockAt_setSector (by decide) (fun hne => absurd hz12 hne) k
  refine ⟨lba, disk, part, ?_, hc, ?_, ?_⟩
  · simp only [firstBlock, hz, ↓reduceIte, hclaim, ok_bind, ASSERT_true hidx]
    rfl
  · rw [hblocks, h12, ← hz12]
    exact h.toExtent.snoc hl hc
  · rw [h12]
    exact ⟨fun hn => absurd rfl hn, fun hn => absurd hn (by decide)⟩

theorem firstBlock_there {s : NodeState} (hl : DiskLayout s.part)
    (h : HasBlocks s.disk s.part s.inode n) (hn : 1 ≤ n) : firstBlock s = .ok (true, s) := by
  rw [firstBlock, if_neg (h.direct_ne hl hn (by decide))]
  rfl

end ZhuOS
