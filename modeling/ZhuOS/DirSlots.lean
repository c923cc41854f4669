import Mathlib.Data.Finset.Prod
import ZhuOS.DirNames
import ZhuOS.Lib.Slots

/-!
# The slots of a directory

A directory is a grid of slots, 21 in each of its blocks. An insertion puts its entry into a
free one.
-/

namespace ZhuOS

open ByteMem Slots

set_option maxRecDepth 2000

def dirGrid : Finset (Nat × Nat) := Finset.range 140 ×ˢ Finset.range 21

/-- The entry `j` of a sector, where it is in use. -/
def sectorSlot (disk : Bytes) (lba : UInt32) (j : Nat) : Option DirEntry :=
  let e := entryAt (shift disk (lba.toNat * 512)) j
  if e.fType = FT_UNKNOWN then none else some e

/-- The entry in a slot, given by its block and its place there. -/
def slot (disk : Bytes) (nd : Inode) (p : Nat × Nat) : Option DirEntry :=
  if blockAt disk nd p.1 = 0 then none else sectorSlot disk (blockAt disk nd p.1) p.2

/-- An entry that is neither `.` nor `..`. -/
def DirEntry.Proper (e : DirEntry) : Prop := e.name ≠ dot ∧ e.name ≠ dotDot

instance (e : DirEntry) : Decidable e.Proper := inferInstanceAs (Decidable (_ ∧ _))

variable {disk disk' : Bytes} {part : Partition} {nd nd' : Inode} {lba : UInt32} {k j : Nat}
  {e de : DirEntry} {p : Nat × Nat} {s s' : NodeState}

theorem mem_dirGrid : p ∈ dirGrid ↔ p.1 < 140 ∧ p.2 < 21 := by
  rw [dirGrid, Finset.mem_product, Finset.mem_range, Finset.mem_range]

theorem pair_mem_dirGrid (hk : k < 140) (hj : j < 21) : (k, j) ∈ dirGrid :=
  mem_dirGrid.mpr ⟨hk, hj⟩

theorem sectorSlot_some : sectorSlot disk lba j = some e ↔
    entryAt (shift disk (lba.toNat * 512)) j = e ∧ e.fType ≠ FT_UNKNOWN := by
  unfold sectorSlot
  by_cases hfree : (entryAt (shift disk (lba.toNat * 512)) j).fType = FT_UNKNOWN
  · rw [if_pos hfree]
    constructor
    · intro h
      cases h
    · rintro ⟨rfl, hne⟩
      exact absurd hfree hne
  · rw [if_neg hfree]
    constructor
    · intro h
      cases h
      exact ⟨rfl, hfree⟩
    · rintro ⟨rfl, -⟩
      rfl

theorem sectorSlot_none : sectorSlot disk lba j = none ↔
    (entryAt (shift disk (lba.toNat * 512)) j).fType = FT_UNKNOWN := by
  unfold sectorSlot
  by_cases hfree : (entryAt (shift disk (lba.toNat * 512)) j).fType = FT_UNKNOWN
  · rw [if_pos hfree]
    exact ⟨fun _ => hfree, fun _ => rfl⟩
  · rw [if_neg hfree]
    exact ⟨(nomatch ·), fun h => absurd h hfree⟩

/-- A directory with an entry in it has at least the size of one. -/
theorem taken_le_size (hsize : 24 * (occupied dirGrid (slot disk nd)).card ≤ nd.iSize.toNat)
    (hp : p ∈ dirGrid) (hslot : slot disk nd p = some e) : (24 : UInt32) ≤ nd.iSize := by
  have hpos : 0 < (occupied dirGrid (slot disk nd)).card :=
    Finset.card_pos.mpr ⟨p, mem_occupied.mpr ⟨hp, e, hslot⟩⟩
  have h24 : (24 : UInt32).toNat = 24 := rfl
  rw [UInt32.le_iff_toNat_le, h24]
  omega

theorem slot_some : slot disk nd p = some e ↔ blockAt disk nd p.1 ≠ 0 ∧
    entryAt (shift disk ((blockAt disk nd p.1).toNat * 512)) p.2 = e ∧ e.fType ≠ FT_UNKNOWN := by
  unfold slot
  by_cases hz : blockAt disk nd p.1 = 0
  · rw [if_pos hz]
    exact ⟨(nomatch ·), fun h => absurd hz h.1⟩
  · rw [if_neg hz, sectorSlot_some, and_iff_right hz]

theorem slot_block (hne : blockAt disk nd p.1 ≠ 0) :
    slot disk nd p = sectorSlot disk (blockAt disk nd p.1) p.2 := if_neg hne

/-- A slot depends on its place in the sector of its block. -/
theorem slot_congr (hblock : blockAt disk' nd' p.1 = blockAt disk nd p.1)
    (hentry : blockAt disk nd p.1 ≠ 0 →
      entryAt (shift disk' ((blockAt disk nd p.1).toNat * 512)) p.2 =
        entryAt (shift disk ((blockAt disk nd p.1).toNat * 512)) p.2) :
    slot disk' nd' p = slot disk nd p := by
  unfold slot
  rw [hblock]
  by_cases hz : blockAt disk nd p.1 = 0
  · rw [if_pos hz, if_pos hz]
  · rw [if_neg hz, if_neg hz, sectorSlot, sectorSlot, hentry hz]

theorem slot_sector (hj : p.2 < 21) (hblock : blockAt disk' nd' p.1 = blockAt disk nd p.1)
    (hsame : blockAt disk nd p.1 ≠ 0 →
      Same disk' disk ((blockAt disk nd p.1).toNat * 512) 512) :
    slot disk' nd' p = slot disk nd p := by
  apply slot_congr hblock
  intro hne
  apply entryAt_congr hj
  intro i hi
  exact hsame hne _ (by omega) (by omega)

theorem mem_entries_of_slot (hp : p ∈ dirGrid) (h : slot disk nd p = some e) :
    e ∈ entries disk nd := by
  obtain ⟨hne, hentry, -⟩ := slot_some.mp h
  obtain ⟨hk, hj⟩ := mem_dirGrid.mp hp
  exact mem_listed.mpr ⟨p.1, hk, hne, p.2, hj, hentry⟩

/-- What is listed and in use lies in a slot. -/
theorem slot_of_mem_entries (he : e ∈ entries disk nd) (hlive : e.fType ≠ FT_UNKNOWN) :
    ∃ p ∈ dirGrid, slot disk nd p = some e := by
  obtain ⟨k, hk, hne, j, hj, hentry⟩ := mem_listed.mp he
  exact ⟨(k, j), mem_dirGrid.mpr ⟨hk, hj⟩, slot_some.mpr ⟨hne, hentry, hlive⟩⟩

/-- 24 zero bytes are a free entry without a name. -/
theorem entryAt_zero {buf : Bytes} (h : ∀ i < 24, buf (24 * j + i) = 0) :
    (entryAt buf j).fType = FT_UNKNOWN ∧ (entryAt buf j).name = [] := by
  have hread : ∀ i < 24, shift buf (SIZEOF_DIR_ENTRY * j) i = 0 := h
  constructor
  · apply getWord_wordByte
    intro i hi
    rw [hread _ (by omega)]
    interval_cases i <;> rfl
  · have hz : (entryAt buf j).filename 0 = 0 := hread 0 (by decide)
    have hrange : List.range MAX_FILE_NAME_LEN = 0 :: List.range' 1 15 := rfl
    rw [DirEntry.name, hrange, List.map_cons, hz]
    rfl

/-! ## Names -/

/-- Free entries have no name, and names occur once. -/
structure Named (disk : Bytes) (nd : Inode) : Prop where
  unnamed : ∀ e ∈ entries disk nd, e.fType = FT_UNKNOWN → e.name = []
  once : KeyOnce dirGrid (slot disk nd) (·.name) fun _ => True

/-- A lookup finds what lies in a slot. -/
theorem Named.lookup_iff (h : Named disk nd) {m : List UInt8} (hm : m ≠ []) :
    lookup disk nd m = some e ↔ ∃ p ∈ dirGrid, slot disk nd p = some e ∧ e.name = m := by
  have hlive : ∀ x ∈ entries disk nd, x.name = m → x.fType ≠ FT_UNKNOWN := by
    intro x hx hname hfree
    exact hm (hname.symm.trans (h.unnamed x hx hfree))
  constructor
  · intro hfound
    obtain ⟨hmem, hname⟩ := lookup_mem hfound
    obtain ⟨p, hp, hslot⟩ := slot_of_mem_entries hmem (hlive e hmem hname)
    exact ⟨p, hp, hslot, hname⟩
  · rintro ⟨p, hp, hslot, hname⟩
    apply lookup_of_mem (mem_entries_of_slot hp hslot) hname
    intro x hx hxname
    obtain ⟨q, hq, hxslot⟩ := slot_of_mem_entries hx (hlive x hx hxname)
    obtain rfl := h.once q hq p hp x e hxslot hslot trivial trivial (hxname.trans hname.symm)
    rw [hslot] at hxslot
    exact (Option.some.inj hxslot).symm

/-- `search_dir_entry` finds what lies in a slot. -/
theorem Named.finds_iff (h : Named s.disk s.inode) (hl : DiskLayout s.part)
    (hr : Readable s.disk s.inode) {m : List UInt8} (hm : m ≠ []) {i u : UInt32} :
    Finds s m i u ↔ ∃ p ∈ dirGrid, ∃ e, slot s.disk s.inode p = some e ∧ e.name = m ∧
      e.iNo = i ∧ e.fType = u := by
  rw [ZhuOS.finds_iff hl hr]
  constructor
  · rintro ⟨e, hfound, hno, htype⟩
    obtain ⟨p, hp, hslot, hname⟩ := (h.lookup_iff hm).mp hfound
    exact ⟨p, hp, e, hslot, hname, hno, htype⟩
  · rintro ⟨p, hp, e, hslot, hname, hno, htype⟩
    exact ⟨e, (h.lookup_iff hm).mpr ⟨p, hp, hslot, hname⟩, hno, htype⟩

/-! ## An insertion fills a slot -/

/-- An entry written over a free one. -/
theorem put_slot (hown : OwnBlocks disk part nd) (hk : k < 12) (hj : j < 21)
    (hne : nd.iSectors k ≠ 0) (hlive : de.stored.fType ≠ FT_UNKNOWN)
    (hfree : (entryAt (shift disk ((nd.iSectors k).toNat * 512)) j).fType = FT_UNKNOWN) :
    Put dirGrid (slot disk nd)
      (slot (blit disk ((nd.iSectors k).toNat * 512 + 24 * j) de.toBytes 0 24) nd.grow) (k, j)
      de.stored := by
  have hdir : blockAt disk nd k = nd.iSectors k := blockAt_direct hk
  have hblocks := slot_blocks de.toBytes hown hk hj hne
  have hwritten := fun i => @entryAt_slot de disk (nd.iSectors k) i j hj
  constructor
  · exact mem_dirGrid.mpr ⟨by omega, hj⟩
  · have hne' : blockAt disk nd (k, j).1 ≠ 0 := hdir.symm ▸ hne
    rw [slot_block hne', sectorSlot_none]
    exact hdir.symm ▸ hfree
  · apply slot_some.mpr
    rw [hblocks]
    exact ⟨hdir.symm ▸ hne, hdir.symm ▸ (hwritten j).1 rfl, hlive⟩
  · rintro ⟨i, x⟩ hq hqp
    obtain ⟨hi, hx⟩ : i < 140 ∧ x < 21 := mem_dirGrid.mp hq
    apply slot_congr (by rw [hblocks])
    intro hz
    dsimp only at hz ⊢
    by_cases hik : i = k
    · subst hik
      have hxj : x ≠ j := fun he => hqp (by rw [he])
      rw [hdir]
      exact (hwritten x).2 hxj
    · apply entryAt_congr hx
      intro y hy
      have hother : blockAt disk nd i ≠ nd.iSectors k := fun he =>
        hik (hown.apart i hi k (by omega) hz (he.trans hdir.symm))
      have hsame := @slot_same disk de.toBytes (blockAt disk nd i) (nd.iSectors k) j hj hother
      exact hsame _ (by omega) (by omega)

/-- An entry at the start of a block of its own. -/
theorem put_block {disk' : Bytes} {part' : Partition} (hl : DiskLayout part)
    (hown : OwnBlocks disk part nd) (hk : k < 12) (hz : nd.iSectors k = 0)
    (hlive : de.stored.fType ≠ FT_UNKNOWN) (hc : Claimed disk part lba disk' part') :
    Put dirGrid (slot disk nd)
      (slot (blit disk' (lba.toNat * 512) (firstSector de) 0 512) (nd.setSector k lba).grow) (k, 0)
      de.stored := by
  have hdir : blockAt disk nd k = 0 := (blockAt_direct hk).trans hz
  have hblocks := block_blocks hl hown hk hc (firstSector de)
  have hnew := hblocks k
  rw [if_pos rfl] at hnew
  have hne : lba ≠ 0 := hc.block.ne_zero hl
  constructor
  · exact mem_dirGrid.mpr ⟨Nat.lt_trans hk (by decide), (by decide : 0 < 21)⟩
  · exact if_pos hdir
  · apply slot_some.mpr
    dsimp only
    rw [hnew]
    exact ⟨hne, (entryAt_firstSector de disk' lba (by decide)).1 rfl, hlive⟩
  · rintro ⟨i, x⟩ hq hqp
    obtain ⟨hi, hx⟩ : i < 140 ∧ x < 21 := mem_dirGrid.mp hq
    by_cases hik : i = k
    · subst hik
      have hx0 : x ≠ 0 := fun he => hqp (by rw [he])
      have hold : slot disk nd (i, x) = none := if_pos hdir
      rw [hold, slot_block (by dsimp only; rwa [hnew]), sectorSlot_none]
      dsimp only
      rw [hnew]
      refine (entryAt_zero ?_).1
      intro y hy
      rw [shift_apply, blit_at (by omega), Nat.zero_add, firstSector]
      exact blit_out (.inr (by unfold SIZEOF_DIR_ENTRY; omega))
    · have hb : blockAt (blit disk' (lba.toNat * 512) (firstSector de) 0 512)
          (nd.setSector k lba).grow i = blockAt disk nd i := (hblocks i).trans (if_neg hik)
      apply slot_sector hx hb
      intro hused
      exact hc.same hl (hown.inUse i hi hused) _

/-- The entry in a slot of a direct block, which is new or was there. -/
structure SlotFilled (s s' : NodeState) (p : Nat × Nat) (de : DirEntry) : Prop where
  put : Put dirGrid (slot s.disk s.inode) (slot s'.disk s'.inode) p de
  direct : p.1 < 12
  size : s'.inode.iSize = s.inode.iSize + 24
  blocks : s'.inode.iSectors = s.inode.iSectors ∧ s'.part = s.part ∨
    ∃ lba disk, s.inode.iSectors p.1 = 0 ∧ Claimed s.disk s.part lba disk s'.part ∧
      ∀ k, s'.inode.iSectors k = if k = p.1 then lba else s.inode.iSectors k

/-- An insertion fills a slot of a direct block, as long as these have room. -/
theorem Inserted.filled (hi : Inserted s de s') (hl : DiskLayout s.part)
    (hown : OwnBlocks s.disk s.part s.inode) (hroom : ¬ DirectFull s.disk s.inode 12)
    (hlive : de.stored.fType ≠ FT_UNKNOWN) : ∃ p, SlotFilled s s' p de.stored := by
  cases hi with
  | slot k j hk hj hne hbefore hfree =>
    exact ⟨(k, j), put_slot hown hk hj hne hlive hfree, hk, rfl, .inl ⟨rfl, rfl⟩⟩
  | block k lba disk part hk hz hbefore hc =>
    refine ⟨(k, 0), put_block hl hown hk hz hlive hc, hk, rfl, .inr ⟨lba, disk, hz, hc, ?_⟩⟩
    exact fun i => Function.update_apply ..
  | table t lba disk disk' part part' hfull ht hc => exact absurd hfull hroom

end ZhuOS
