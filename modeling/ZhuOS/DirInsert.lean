import ZhuOS.Entries

/-!
# Inserting an entry

What `sync_dir_entry` has done when it returns `true`: it filled a free entry of a
direct block, or claimed a direct block, or, with all of these full, claimed a new
indirect table. It never reads the table there was, so that what lay behind it is
lost. On a block map without the blocks it claims, `bitmap_scan` fails its `ASSERT`.
-/

namespace ZhuOS

open ByteMem

set_option maxRecDepth 2000

/-- A new sector with the entry in it. -/
def firstSector (de : DirEntry) : Bytes := blit (fun _ => 0) 0 de.toBytes 0 SIZEOF_DIR_ENTRY

def SectorFull (disk : Bytes) (lba : UInt32) : Prop :=
  ∀ e ∈ sectorEntries disk lba, e.fType ≠ FT_UNKNOWN

/-- The first `n` direct blocks are there and full. -/
def DirectFull (disk : Bytes) (nd : Inode) (n : Nat) : Prop :=
  ∀ k < n, nd.iSectors k ≠ 0 ∧ SectorFull disk (nd.iSectors k)

/-- The directory with one more entry. -/
def Inode.grow (nd : Inode) : Inode := { nd with iSize := nd.iSize + 24 }

/-- What an insertion that returns `true` has done. -/
inductive Inserted (s : NodeState) (de : DirEntry) : NodeState → Prop
  | slot (k j : Nat) (hk : k < 12) (hj : j < 21) (hne : s.inode.iSectors k ≠ 0)
      (hbefore : DirectFull s.disk s.inode k)
      (hfree : (entryAt (shift s.disk ((s.inode.iSectors k).toNat * 512)) j).fType = FT_UNKNOWN) :
      Inserted s de { s with
        disk := blit s.disk ((s.inode.iSectors k).toNat * 512 + 24 * j) de.toBytes 0 24
        inode := s.inode.grow }
  | block (k : Nat) (lba : UInt32) (disk : Bytes) (part : Partition) (hk : k < 12)
      (hz : s.inode.iSectors k = 0) (hbefore : DirectFull s.disk s.inode k)
      (hc : Claimed s.disk s.part lba disk part) :
      Inserted s de {
        disk := blit disk (lba.toNat * 512) (firstSector de) 0 512
        part
        inode := (s.inode.setSector k lba).grow }
  | table (t lba : UInt32) (disk disk' : Bytes) (part part' : Partition)
      (hfull : DirectFull s.disk s.inode 12) (ht : Claimed s.disk s.part t disk part)
      (hc : Claimed disk part lba disk' part') :
      Inserted s de {
        disk := blit (blit disk' (t.toNat * 512)
          (tableBytes (Function.update (directBlocks s.inode) 12 lba)) 0 512)
          (lba.toNat * 512) (firstSector de) 0 512
        part := part'
        inode := (s.inode.setSector 12 t).grow }

variable {s s' : NodeState} {de : DirEntry}

theorem scanFree_eq (buf : Bytes) (left j : Nat) : scanFree buf left j =
    (List.range' j left).find? fun i => (entryAt buf i).fType = FT_UNKNOWN := by
  induction left generalizing j with
  | zero => rfl
  | succ left ih =>
    rw [scanFree, List.range'_succ, List.find?_cons]
    by_cases h : (entryAt buf j).fType = FT_UNKNOWN
    · simp [h]
    · simp [h, ih]

/-- The scan of a sector that was read finds a free entry, or the sector is full. -/
theorem scanFree_sector (disk buf : Bytes) (lba : UInt32) :
    match scanFree (blit buf 0 disk (lba.toNat * 512) 512) 21 0 with
    | some j => j < 21 ∧ (entryAt (shift disk (lba.toNat * 512)) j).fType = FT_UNKNOWN
    | none => SectorFull disk lba := by
  rw [scanFree_eq, ← List.range_eq_range']
  split
  · rename_i j hj
    have hlt : j < 21 := List.mem_range.mp (List.mem_of_find?_eq_some hj)
    have := List.find?_some hj
    rw [entryAt_read hlt] at this
    exact ⟨hlt, by simpa using this⟩
  · rename_i hnone
    intro e he
    obtain ⟨j, hj, rfl⟩ := mem_sectorEntries.mp he
    have := List.find?_eq_none.mp hnone j (List.mem_range.mpr hj)
    rw [entryAt_read hj] at this
    simpa using this

theorem dirEntrysPerSec_eq {part : Partition} (hl : DiskLayout part) :
    dirEntrysPerSec part.sb = .ok 21 := by
  rw [dirEntrysPerSec, hl.entrySize]
  rfl

theorem writeFirstEntry_eq (hl : DiskLayout s.part) {lba : UInt32} (hlba : lba.toNat ≤ max_lba)
    (ioBuf : Bytes) : writeFirstEntry s lba de ioBuf = .ok (true, {
      disk := blit s.disk (lba.toNat * 512) (firstSector de) 0 512
      part := s.part
      inode := s.inode.grow }) := by
  simp only [writeFirstEntry, hl.entrySize, ideWrite_one hlba, ok_bind]
  refine congrArg (fun disk => Except.ok (true, NodeState.mk disk s.part s.inode.grow)) ?_
  apply blit_congr
  intro i hi
  unfold firstSector SIZEOF_DIR_ENTRY
  have h24 : (24 : UInt32).toNat = 24 := rfl
  rw [h24]
  by_cases hin : i < 24
  · rw [blit_in (by omega) (by omega), blit_in (by omega) (by omega)]
  · rw [blit_out (by omega), blit_out (by omega), fill_in (by omega) (by omega)]

/-- The zero address: what `syncNewBlock` has done. -/
theorem syncNewBlock_inserted (hl : DiskLayout s.part) {k : Nat} (hk : k ≤ 12)
    (hz : k < 12 → s.inode.iSectors k = 0) (hbefore : DirectFull s.disk s.inode k)
    {ioBuf : Bytes} (h : syncNewBlock s (directBlocks s.inode) k de ioBuf = .ok (true, s')) :
    Inserted s de s' := by
  simp only [syncNewBlock, bind_ok] at h
  obtain ⟨⟨r, disk, part⟩, hclaim, h⟩ := h
  obtain ⟨lba, rfl, hc⟩ := claimBlock_ok hl hclaim
  by_cases hlt : k < 12
  · simp only [if_pos hlt] at h
    rw [writeFirstEntry_eq (hc.layout hl) hc.block.onDisk] at h
    cases h
    exact .block k lba disk part hlt (hz hlt) hbefore hc
  · obtain rfl : k = 12 := by omega
    simp only [lt_self_iff_false, ↓reduceIte, bind_ok] at h
    obtain ⟨⟨r, disk', part'⟩, hclaim', h⟩ := h
    obtain ⟨first, rfl, hc'⟩ := claimBlock_ok (hc.layout hl) hclaim'
    simp only [ideWrite_one hc.block.onDisk, ok_bind] at h
    rw [writeFirstEntry_eq (hc'.layout (hc.layout hl)) hc'.block.onDisk] at h
    cases h
    exact .table lba first disk disk' part part' hbefore hc hc'

theorem syncBlocks_inserted (hl : DiskLayout s.part)
    (hr : ∀ k < 12, (s.inode.iSectors k).toNat ≤ max_lba) (left k : Nat) (ioBuf : Bytes)
    (hk : k ≤ 12) (hbefore : DirectFull s.disk s.inode k)
    (h : syncBlocks s (directBlocks s.inode) de 21 left k ioBuf = .ok (true, s')) :
    Inserted s de s' := by
  induction left generalizing k ioBuf with
  | zero => cases h
  | succ left ih =>
    rw [syncBlocks] at h
    by_cases hz : directBlocks s.inode k = 0
    · rw [if_pos hz] at h
      refine syncNewBlock_inserted hl hk (fun hlt => ?_) hbefore h
      rwa [directBlocks, if_pos hlt] at hz
    · have hlt : k < 12 := by
        by_contra hge
        exact hz (by rw [directBlocks, if_neg hge])
      have hdir : directBlocks s.inode k = s.inode.iSectors k := if_pos hlt
      rw [if_neg hz] at h
      rw [hdir] at h hz
      have hscan := scanFree_sector s.disk ioBuf (s.inode.iSectors k)
      simp only [ideRead_one (hr k hlt), ok_bind] at h
      cases hfree : scanFree (blit ioBuf 0 s.disk ((s.inode.iSectors k).toNat * 512) 512) 21 0 with
      | some j =>
        rw [hfree] at hscan h
        simp only [ideWrite_one (hr k hlt), ok_bind, hl.entrySize] at h
        have h24 : (24 : UInt32).toNat = 24 := rfl
        have hin : SIZEOF_DIR_ENTRY * j + 24 ≤ 512 := by
          unfold SIZEOF_DIR_ENTRY
          omega
        rw [h24, blit_through _ _ _ _ _ hin] at h
        cases h
        exact .slot k j hlt hscan.1 hz hbefore hscan.2
      | none =>
        rw [hfree] at hscan h
        refine ih (k + 1) _ hlt (fun i hi => ?_) h
        by_cases hik : i = k
        · exact hik ▸ ⟨hz, hscan⟩
        · exact hbefore i (by omega)

/-- An insertion that returns `true` is one of the three. -/
theorem syncDirEntry_inserted (hl : DiskLayout s.part)
    (hr : ∀ k < 12, (s.inode.iSectors k).toNat ≤ max_lba) {ioBuf : Bytes}
    (h : syncDirEntry s de ioBuf = .ok (true, s')) : Inserted s de s' := by
  simp only [syncDirEntry, dirEntrysPerSec_eq hl, ok_bind, bind_ok] at h
  obtain ⟨_, -, h⟩ := h
  exact syncBlocks_inserted hl hr 140 0 ioBuf (by decide) (fun k hk => by omega) h

/-! ## An insertion that returns has made the entry -/

section
variable {b : Bool} {blocks : Nat → UInt32} {k : Nat}

/-- `bitmap_scan` does not return from a full map. -/
theorem claimBlock_some {disk disk' : Bytes} {part part' : Partition} {r : Option UInt32}
    (h : claimBlock disk part = .ok (r, disk', part')) : ∃ lba, r = some lba := by
  obtain ⟨⟨lba, part₁⟩, ha, h⟩ := bind_ok.mp h
  obtain ⟨scanned, hscan, ha⟩ := bind_ok.mp ha
  obtain ⟨i, rfl, -, -⟩ := bitmapScan_one_free hscan
  cases ha
  obtain ⟨_, -, h⟩ := bind_ok.mp h
  cases h
  exact ⟨_, rfl⟩

theorem syncNewBlock_true {ioBuf : Bytes}
    (h : syncNewBlock s blocks k de ioBuf = .ok (b, s')) : b = true := by
  have hfirst : ∀ {s s' : NodeState} {lba : UInt32} {b : Bool},
      writeFirstEntry s lba de ioBuf = .ok (b, s') → b = true := by
    intro s s' lba b h
    obtain ⟨disk, -, h⟩ := bind_ok.mp h
    cases h
    rfl
  obtain ⟨⟨r, disk, part⟩, hc, h⟩ := bind_ok.mp h
  obtain ⟨lba, rfl⟩ := claimBlock_some hc
  dsimp only at h
  by_cases hlt : k < 12
  · rw [if_pos hlt] at h
    exact hfirst h
  · rw [if_neg hlt] at h
    by_cases htable : k = 12
    · rw [if_pos htable] at h
      obtain ⟨⟨r', disk', part'⟩, hc', h⟩ := bind_ok.mp h
      obtain ⟨first, rfl⟩ := claimBlock_some hc'
      obtain ⟨disk'', -, h⟩ := bind_ok.mp h
      exact hfirst h
    · rw [if_neg htable] at h
      obtain ⟨disk', -, h⟩ := bind_ok.mp h
      exact hfirst h

/-- The loop does not get past the direct blocks. -/
theorem syncBlocks_true (left : Nat) {perSec : Nat} {ioBuf : Bytes}
    (hleft : k ≤ 12) (hlong : 12 < k + left)
    (h : syncBlocks s (directBlocks s.inode) de perSec left k ioBuf = .ok (b, s')) : b = true := by
  induction left generalizing k ioBuf with
  | zero => omega
  | succ left ih =>
    unfold syncBlocks at h
    by_cases hz : directBlocks s.inode k = 0
    · rw [if_pos hz] at h
      exact syncNewBlock_true h
    · rw [if_neg hz] at h
      have hlt : k < 12 := by
        by_contra hge
        exact hz (if_neg hge)
      obtain ⟨buf, -, h⟩ := bind_ok.mp h
      cases hfree : scanFree buf perSec 0 with
      | none =>
        simp only [hfree] at h
        exact ih hlt (by omega) h
      | some j =>
        simp only [hfree] at h
        obtain ⟨disk, -, h⟩ := bind_ok.mp h
        cases h
        rfl

/-- An insertion that returns has made the entry. -/
theorem syncDirEntry_true {ioBuf : Bytes}
    (h : syncDirEntry s de ioBuf = .ok (b, s')) : b = true := by
  obtain ⟨perSec, -, h⟩ := bind_ok.mp h
  obtain ⟨-, -, h⟩ := bind_ok.mp h
  exact syncBlocks_true 140 (Nat.zero_le _) (by omega) h

end

/-! ## With room an insertion ends -/

/-- The free blocks are enough for one more entry: one when a direct block has to come, two when
the indirect table has to come with it. -/
structure EntryRoom (disk : Bytes) (nd : Inode) (free : Nat) : Prop where
  block : ∀ k < 12, DirectFull disk nd k → nd.iSectors k = 0 → 1 ≤ free
  table : DirectFull disk nd 12 → 2 ≤ free

theorem syncNewBlock_ends_iff (hl : DiskLayout s.part) {k : Nat} (hk : k ≤ 12)
    (blocks : Nat → UInt32) (ioBuf : Bytes) :
    (∃ r, syncNewBlock s blocks k de ioBuf = .ok r) ↔
      (if k < 12 then 1 else 2) ≤ s.part.blockBitmap.free.card := by
  constructor
  · rintro ⟨r, h⟩
    obtain ⟨⟨r, disk, part⟩, hclaim, h⟩ := bind_ok.mp h
    obtain ⟨lba, rfl, hc⟩ := claimBlock_ok hl hclaim
    have hcard := hc.free_card
    by_cases hlt : k < 12
    · rw [if_pos hlt]
      omega
    · obtain rfl : k = 12 := by omega
      simp only [lt_self_iff_false, ↓reduceIte] at h
      obtain ⟨⟨r, disk', part'⟩, hclaim', -⟩ := bind_ok.mp h
      obtain ⟨first, -, hc'⟩ := claimBlock_ok (hc.layout hl) hclaim'
      have hcard' := hc'.free_card
      rw [if_neg hlt]
      omega
  · intro hfree
    have hone : 0 < s.part.blockBitmap.free.card := by
      split at hfree <;> omega
    obtain ⟨lba, disk, part, hclaim, hc⟩ := claimBlock_total hl s.disk hone
    have hl' := hc.layout hl
    by_cases hlt : k < 12
    · simp only [syncNewBlock, hclaim, ok_bind, if_pos hlt]
      rw [writeFirstEntry_eq hl' hc.block.onDisk]
      exact ⟨_, rfl⟩
    · obtain rfl : k = 12 := by omega
      have hcard := hc.free_card
      rw [if_neg hlt] at hfree
      obtain ⟨first, disk', part', hclaim', hc'⟩ := claimBlock_total hl' disk (by omega)
      simp only [syncNewBlock, hclaim, ok_bind, lt_self_iff_false, ↓reduceIte, hclaim',
        ideWrite_one hc.block.onDisk]
      rw [writeFirstEntry_eq (hc'.layout hl') hc'.block.onDisk]
      exact ⟨_, rfl⟩

/-- From a block on, when those before it are full. -/
theorem syncBlocks_ends_iff (hl : DiskLayout s.part)
    (hr : ∀ k < 12, (s.inode.iSectors k).toNat ≤ max_lba) (left k : Nat) (ioBuf : Bytes)
    (hsum : k + left = 140) (hk : k ≤ 12) (hbefore : DirectFull s.disk s.inode k) :
    (∃ r, syncBlocks s (directBlocks s.inode) de 21 left k ioBuf = .ok r) ↔
      EntryRoom s.disk s.inode s.part.blockBitmap.free.card := by
  induction left generalizing k ioBuf with
  | zero => omega
  | succ left ih =>
    rw [syncBlocks]
    by_cases hlt : k < 12
    · rw [show directBlocks s.inode k = s.inode.iSectors k from if_pos hlt]
      by_cases hz : s.inode.iSectors k = 0
      · rw [if_pos hz, syncNewBlock_ends_iff hl hk, if_pos hlt]
        constructor
        · exact fun hfree => ⟨fun _ _ _ _ => hfree, fun hfull => absurd hz (hfull k hlt).1⟩
        · exact fun hroom => hroom.block k hlt hbefore hz
      · have hscan := scanFree_sector s.disk ioBuf (s.inode.iSectors k)
        rw [if_neg hz]
        simp only [ideRead_one (hr k hlt), ok_bind]
        cases hfree :
            scanFree (blit ioBuf 0 s.disk ((s.inode.iSectors k).toNat * 512) 512) 21 0 with
        | some j =>
          -- the block has room, so no block behind it is looked at
          rw [hfree] at hscan
          have hopen : ∀ i, k < i → ¬ DirectFull s.disk s.inode i := by
            intro i hi hfull
            exact (hfull k hi).2 _ (mem_sectorEntries.mpr ⟨j, hscan.1, rfl⟩) hscan.2
          simp only [ideWrite_one (hr k hlt), ok_bind]
          refine ⟨fun _ => ⟨fun i _ hfull hzero => ?_, fun hfull => ?_⟩, fun _ => ⟨_, rfl⟩⟩
          · obtain hik | rfl | hki := Nat.lt_trichotomy i k
            · exact absurd hzero (hbefore i hik).1
            · exact absurd hzero hz
            · exact absurd hfull (hopen i hki)
          · exact absurd hfull (hopen 12 hlt)
        | none =>
          rw [hfree] at hscan
          apply ih (k + 1) _ (by omega) hlt
          intro i hi
          by_cases hik : i = k
          · exact hik ▸ ⟨hz, hscan⟩
          · exact hbefore i (by omega)
    · obtain rfl : k = 12 := by omega
      have hzero : directBlocks s.inode 12 = 0 := if_neg (lt_irrefl 12)
      rw [if_pos hzero, syncNewBlock_ends_iff hl hk, if_neg hlt]
      constructor
      · exact fun hfree => ⟨fun k hk _ hz => absurd hz (hbefore k hk).1, fun _ => hfree⟩
      · exact fun hroom => hroom.table hbefore

theorem syncDirEntry_ends_iff (hl : DiskLayout s.part)
    (hr : ∀ k < 12, (s.inode.iSectors k).toNat ≤ max_lba) (hsize : s.inode.iSize.toNat % 24 = 0)
    (ioBuf : Bytes) : (∃ r, syncDirEntry s de ioBuf = .ok r) ↔
      EntryRoom s.disk s.inode s.part.blockBitmap.free.card := by
  have h24 : (24 : UInt32).toNat = 24 := rfl
  simp only [syncDirEntry, dirEntrysPerSec_eq hl, ok_bind, hl.entrySize, h24, ASSERT_true hsize]
  exact syncBlocks_ends_iff hl hr 140 0 ioBuf rfl (Nat.zero_le 12) fun k hk => by omega

/-- With room in the direct blocks, and a free block, there is an insertion. -/
theorem syncDirEntry_room (hl : DiskLayout s.part) (hfree : 0 < s.part.blockBitmap.free.card)
    (hr : ∀ k < 12, (s.inode.iSectors k).toNat ≤ max_lba) (hsize : s.inode.iSize.toNat % 24 = 0)
    (hroom : ¬ DirectFull s.disk s.inode 12) (ioBuf : Bytes) :
    ∃ s', syncDirEntry s de ioBuf = .ok (true, s') := by
  have henough : EntryRoom s.disk s.inode s.part.blockBitmap.free.card :=
    ⟨fun _ _ _ _ => hfree, fun hfull => absurd hfull hroom⟩
  obtain ⟨⟨b, s'⟩, h⟩ := (syncDirEntry_ends_iff hl hr hsize ioBuf).mpr henough
  obtain rfl := syncDirEntry_true h
  exact ⟨s', h⟩

/-! ## What is listed afterwards -/

/-- The entry as it is read back. -/
def DirEntry.stored (de : DirEntry) : DirEntry := .ofBytes de.toBytes

/-- A listing with one more entry; entries without a name do not count. -/
structure Adds (old new : List DirEntry) (de : DirEntry) : Prop where
  added : de ∈ new
  kept : ∀ e ∈ old, e.name ≠ [] → e ∈ new
  only : ∀ e ∈ new, e.name ≠ [] → e ∈ old ∨ e = de

theorem entryAt_firstSector (de : DirEntry) (disk : Bytes) (lba : UInt32) {j : Nat} (hj : j < 21) :
    let disk' := blit disk (lba.toNat * 512) (firstSector de) 0 512
    (j = 0 → entryAt (shift disk' (lba.toNat * 512)) j = de.stored) ∧
      (j ≠ 0 → (entryAt (shift disk' (lba.toNat * 512)) j).name = []) := by
  intro disk'
  have hread : ∀ i < 24, shift (shift disk' (lba.toNat * 512)) (SIZEOF_DIR_ENTRY * j) i =
      firstSector de (24 * j + i) := by
    intro i hi
    unfold SIZEOF_DIR_ENTRY
    rw [shift_apply, shift_apply]
    exact (blit_at (by omega)).trans (congrArg _ (Nat.zero_add _))
  constructor
  · rintro rfl
    apply DirEntry.ofBytes_congr
    intro i hi
    unfold SIZEOF_DIR_ENTRY at hi
    rw [hread i hi, firstSector, blit_in (by omega) (by unfold SIZEOF_DIR_ENTRY; omega)]
    exact congrArg de.toBytes (by omega)
  · intro hne
    have hz : (entryAt (shift disk' (lba.toNat * 512)) j).filename 0 = 0 := by
      have := hread 0 (by decide)
      rw [firstSector, blit_out (by unfold SIZEOF_DIR_ENTRY; omega)] at this
      exact this
    rw [DirEntry.name, show List.range MAX_FILE_NAME_LEN = 0 :: List.range' 1 15 from rfl,
      List.map_cons, hz]
    rfl

theorem entryAt_slot (de : DirEntry) (disk : Bytes) (lba : UInt32) {i j : Nat} (hj : j < 21) :
    let disk' := blit disk (lba.toNat * 512 + 24 * j) de.toBytes 0 24
    (i = j → entryAt (shift disk' (lba.toNat * 512)) i = de.stored) ∧
      (i ≠ j → entryAt (shift disk' (lba.toNat * 512)) i =
        entryAt (shift disk (lba.toNat * 512)) i) := by
  intro disk'
  constructor
  · rintro rfl
    apply DirEntry.ofBytes_congr
    intro x hx
    unfold SIZEOF_DIR_ENTRY at hx ⊢
    rw [shift_apply, shift_apply, ← Nat.add_assoc]
    exact (blit_at hx).trans (congrArg _ (Nat.zero_add _))
  · intro hne
    apply DirEntry.ofBytes_congr
    intro x hx
    unfold SIZEOF_DIR_ENTRY at hx ⊢
    simp only [shift_apply]
    exact blit_out (by omega)

theorem mem_listed {disk : Bytes} {nd : Inode} {e : DirEntry} : e ∈ entries disk nd ↔
    ∃ k < 140, blockAt disk nd k ≠ 0 ∧
      ∃ j < 21, entryAt (shift disk ((blockAt disk nd k).toNat * 512)) j = e := by
  simp only [mem_entries, mem_sectorEntries]

/-- Writing within a sector leaves the others alone. -/
theorem slot_same {disk src : Bytes} {a lba : UInt32} {j : Nat} (hj : j < 21) (ha : a ≠ lba) :
    Same (blit disk (lba.toNat * 512 + 24 * j) src 0 24) disk (a.toNat * 512) 512 := by
  have := sectors_apart ha
  exact blit_same (by omega)

theorem slot_blocks {disk : Bytes} (src : Bytes) {part : Partition} {nd : Inode}
    (hown : OwnBlocks disk part nd) {k j : Nat} (hk : k < 12) (hj : j < 21)
    (hne : nd.iSectors k ≠ 0) :
    blockAt (blit disk ((nd.iSectors k).toNat * 512 + 24 * j) src 0 24) nd.grow =
      blockAt disk nd := by
  have hdir : blockAt disk nd k = nd.iSectors k := blockAt_direct hk
  have htable := hown.tableApart k (by omega) (hdir.symm ▸ hne)
  exact blockAt_congr (fun _ _ => rfl) fun _ => slot_same hj (hdir ▸ htable).symm

/-- An entry written over a free one is listed with the others. -/
theorem adds_slot {disk : Bytes} {part : Partition} {nd : Inode}
    (hown : OwnBlocks disk part nd)
    (hunnamed : ∀ e ∈ entries disk nd, e.fType = FT_UNKNOWN → e.name = []) {k j : Nat}
    (hk : k < 12) (hj : j < 21) (hne : nd.iSectors k ≠ 0)
    (hfree : (entryAt (shift disk ((nd.iSectors k).toNat * 512)) j).fType = FT_UNKNOWN) :
    Adds (entries disk nd)
      (entries (blit disk ((nd.iSectors k).toNat * 512 + 24 * j) de.toBytes 0 24) nd.grow)
      de.stored := by
  have hdir : blockAt disk nd k = nd.iSectors k := blockAt_direct hk
  have hblocks := slot_blocks de.toBytes hown hk hj hne
  have hsame := fun a : UInt32 => @slot_same disk de.toBytes a (nd.iSectors k) j hj
  generalize hd : blit disk ((nd.iSectors k).toNat * 512 + 24 * j) de.toBytes 0 24 = disk'
    at hsame hblocks ⊢
  have hother : ∀ i < 140, i ≠ k → blockAt disk nd i ≠ 0 →
      sectorEntries disk' (blockAt disk nd i) = sectorEntries disk (blockAt disk nd i) := by
    intro i hi hik hz
    refine sectorEntries_congr (hsame _ fun he => hik ?_)
    exact hown.apart i hi k (by omega) hz (he.trans hdir.symm)
  have hslot := fun i => @entryAt_slot de disk (nd.iSectors k) i j hj
  simp only [hd] at hslot
  constructor
  · rw [mem_listed, hblocks]
    exact ⟨k, by omega, hdir.symm ▸ hne, j, hj, hdir.symm ▸ (hslot j).1 rfl⟩
  · intro e he hname
    rw [mem_entries, hblocks]
    obtain ⟨i, hi, hz, hmem⟩ := mem_entries.mp he
    refine ⟨i, hi, hz, ?_⟩
    by_cases hik : i = k
    · subst hik
      rw [hdir] at hmem ⊢
      obtain ⟨x, hx, hxe⟩ := mem_sectorEntries.mp hmem
      refine mem_sectorEntries.mpr ⟨x, hx, ?_⟩
      by_cases hxj : x = j
      · subst hxj
        exact absurd (hunnamed e he (hxe ▸ hfree)) hname
      · rw [(hslot x).2 hxj, hxe]
    · rwa [hother i hi hik hz]
  · intro e he _
    rw [mem_entries, hblocks] at he
    obtain ⟨i, hi, hz, hmem⟩ := he
    by_cases hik : i = k
    · subst hik
      rw [hdir] at hmem
      obtain ⟨x, hx, hxe⟩ := mem_sectorEntries.mp hmem
      by_cases hxj : x = j
      · exact .inr (hxe ▸ (hslot x).1 hxj)
      · left
        rw [(hslot x).2 hxj] at hxe
        exact mem_listed.mpr ⟨i, hi, hz, x, hx, hdir.symm ▸ hxe⟩
    · left
      rw [hother i hi hik hz] at hmem
      exact mem_entries.mpr ⟨i, hi, hz, hmem⟩

/-- An entry in a sector of its own is listed with those of the blocks that stay. -/
theorem adds_sector (disk d : Bytes) (nd : Inode) (stays : Nat → Bool) {k : Nat} {lba : UInt32}
    {disk' : Bytes} {nd' : Inode} {old : List DirEntry}
    (hold : ∀ e, e ∈ old ↔ ∃ i < 140, stays i = true ∧ blockAt disk nd i ≠ 0 ∧
      e ∈ sectorEntries disk (blockAt disk nd i))
    (hblocks : ∀ i < 140, blockAt disk' nd' i =
      if i = k then lba else if stays i then blockAt disk nd i else 0)
    (hk : k < 140) (hlba : lba ≠ 0) (hz : stays k = true → blockAt disk nd k = 0)
    (hsame : ∀ i < 140, stays i = true → blockAt disk nd i ≠ 0 →
      Same disk' disk ((blockAt disk nd i).toNat * 512) 512)
    (hnew : disk' = blit d (lba.toNat * 512) (firstSector de) 0 512) :
    Adds old (entries disk' nd') de.stored := by
  have hfirst := fun j (hj : j < 21) => entryAt_firstSector de d lba hj
  simp only [← hnew] at hfirst
  have hkeep : ∀ i < 140, stays i = true → blockAt disk nd i ≠ 0 →
      i ≠ k ∧ blockAt disk' nd' i = blockAt disk nd i ∧
        sectorEntries disk' (blockAt disk nd i) = sectorEntries disk (blockAt disk nd i) := by
    intro i hi hs hne
    have hik : i ≠ k := by
      rintro rfl
      exact hne (hz hs)
    refine ⟨hik, ?_, sectorEntries_congr (hsame i hi hs hne)⟩
    rw [hblocks i hi, if_neg hik, if_pos hs]
  constructor
  · rw [mem_listed]
    refine ⟨k, hk, ?_, 0, by decide, ?_⟩
    · rwa [hblocks k hk, if_pos rfl]
    · rw [hblocks k hk, if_pos rfl]
      exact (hfirst 0 (by decide)).1 rfl
  · intro e he _
    obtain ⟨i, hi, hs, hne, hmem⟩ := (hold e).mp he
    obtain ⟨-, hb, hsec⟩ := hkeep i hi hs hne
    rw [mem_entries]
    exact ⟨i, hi, hb ▸ hne, by rwa [hb, hsec]⟩
  · intro e he hname
    obtain ⟨i, hi, hne, hmem⟩ := mem_entries.mp he
    rw [hblocks i hi] at hne hmem
    by_cases hik : i = k
    · rw [if_pos hik] at hmem
      obtain ⟨j, hj, hje⟩ := mem_sectorEntries.mp hmem
      by_cases hj0 : j = 0
      · exact .inr (hje ▸ (hfirst j hj).1 hj0)
      · exact absurd (hje ▸ (hfirst j hj).2 hj0) hname
    · rw [if_neg hik] at hne hmem
      by_cases hs : stays i = true
      · rw [if_pos hs] at hne hmem
        rw [(hkeep i hi hs hne).2.2] at hmem
        exact .inl ((hold e).mpr ⟨i, hi, hs, hne, hmem⟩)
      · rw [if_neg hs] at hne
        exact absurd rfl hne

/-- The entries in the direct blocks. -/
def directEntries (disk : Bytes) (nd : Inode) : List DirEntry :=
  (List.range' 0 12).flatMap fun k =>
    if blockAt disk nd k = 0 then [] else sectorEntries disk (blockAt disk nd k)

/-- The entries behind the indirect table. -/
def tableEntries (disk : Bytes) (nd : Inode) : List DirEntry :=
  (List.range' 12 128).flatMap fun k =>
    if blockAt disk nd k = 0 then [] else sectorEntries disk (blockAt disk nd k)

theorem entries_split (disk : Bytes) (nd : Inode) :
    entries disk nd = directEntries disk nd ++ tableEntries disk nd := by
  rw [directEntries, tableEntries, ← List.flatMap_append]
  rfl

theorem mem_directEntries {disk : Bytes} {nd : Inode} {e : DirEntry} :
    e ∈ directEntries disk nd ↔ ∃ i < 140, decide (i < 12) = true ∧ blockAt disk nd i ≠ 0 ∧
      e ∈ sectorEntries disk (blockAt disk nd i) := by
  simp only [directEntries, List.mem_flatMap, List.mem_range'_1, decide_eq_true_eq]
  constructor
  · rintro ⟨i, ⟨-, hi⟩, hmem⟩
    by_cases hz : blockAt disk nd i = 0
    · rw [if_pos hz] at hmem
      cases hmem
    · rw [if_neg hz] at hmem
      exact ⟨i, by omega, by omega, hz, hmem⟩
  · rintro ⟨i, _, hi, hz, hmem⟩
    exact ⟨i, ⟨Nat.zero_le _, by omega⟩, by rwa [if_neg hz]⟩

theorem grow_block (disk : Bytes) (nd : Inode) : blockAt disk nd.grow = blockAt disk nd := rfl

theorem block_blocks {disk disk' : Bytes} {part part' : Partition} {nd : Inode} {lba : UInt32}
    (hl : DiskLayout part) (hown : OwnBlocks disk part nd) {k : Nat} (hk : k < 12)
    (hc : Claimed disk part lba disk' part') (src : Bytes) (i : Nat) :
    blockAt (blit disk' (lba.toNat * 512) src 0 512) (nd.setSector k lba).grow i =
      if i = k then lba else blockAt disk nd i :=
  blockAt_setSector hk (fun h => hc.same hl (hown.table h) src) i

/-- The new table holds the address of one block. -/
theorem table_blocks {disk : Bytes} {nd : Inode} {t lba : UInt32} (ht : t ≠ 0) (hne : t ≠ lba)
    (disk' src : Bytes) {i : Nat} (hi : i < 140) :
    blockAt (blit (blit disk' (t.toNat * 512)
      (tableBytes (Function.update (directBlocks nd) 12 lba)) 0 512) (lba.toNat * 512) src 0 512)
      (nd.setSector 12 t).grow i =
      if i = 12 then lba else if decide (i < 12) then blockAt disk nd i else 0 := by
  have h12 : (nd.setSector 12 t).iSectors 12 = t := setSector_self ..
  rw [grow_block]
  by_cases hlow : i < 12
  · rw [blockAt_direct hlow, if_neg (by omega), if_pos (by simpa using hlow), blockAt_direct hlow]
    exact setSector_other (by omega)
  · rw [blockAt_table (h12 ▸ ht) (by omega) hi, h12,
      (blit_same (sectors_apart hne)).getWord (by omega) (by omega), tableBytes,
      getWord_blit_packWords _ (by omega), show 12 + (i - 12) = i by omega, Function.update_apply]
    split
    · rfl
    · rw [directBlocks, if_neg hlow, if_neg (by simpa using hlow)]

/-- What is listed after an insertion: the entry with all there were, or, when a new
table took the place of the old one, with those in the direct blocks. -/
theorem Inserted.adds (hi : Inserted s de s') (hl : DiskLayout s.part)
    (hown : OwnBlocks s.disk s.part s.inode)
    (hunnamed : ∀ e ∈ entries s.disk s.inode, e.fType = FT_UNKNOWN → e.name = []) :
    ¬ DirectFull s.disk s.inode 12 ∧
        Adds (entries s.disk s.inode) (entries s'.disk s'.inode) de.stored ∨
      DirectFull s.disk s.inode 12 ∧
        Adds (directEntries s.disk s.inode) (entries s'.disk s'.inode) de.stored := by
  cases hi with
  | slot k j hk hj hne hbefore hfree =>
    refine .inl ⟨fun hfull => ?_, adds_slot hown hunnamed hk hj hne hfree⟩
    exact (hfull k hk).2 _ (mem_sectorEntries.mpr ⟨j, hj, rfl⟩) hfree
  | block k lba disk part hk hz hbefore hc =>
    refine .inl ⟨fun hfull => (hfull k hk).1 hz, ?_⟩
    refine adds_sector s.disk disk s.inode (fun _ => true) ?_ (fun i _ => ?_) (by omega : k < 140)
      (hc.block.ne_zero hl) ?_ ?_ rfl
    · intro e
      simp only [mem_entries, true_and]
    · rw [block_blocks hl hown hk hc]
      rfl
    · intro _
      rw [blockAt_direct hk, hz]
    · intro i hi _ hne
      exact hc.same hl (hown.inUse i hi hne) _
  | table t lba disk disk' part part' hfull ht hc =>
    refine .inr ⟨hfull, ?_⟩
    have hne : t ≠ lba := hc.ne ht.inUse
    have htz : t ≠ 0 := ht.block.ne_zero hl
    have hl' := ht.layout hl
    refine adds_sector s.disk _ s.inode _ (fun e => mem_directEntries)
      (fun i hi => table_blocks htz hne _ _ hi) (by decide : 12 < 140) (hc.block.ne_zero hl')
      ?_ ?_ rfl
    · intro h
      simp at h
    · intro i hi hlow hz
      have ha := hown.inUse i hi hz
      have hclaims := ((hc.outside hl').same hl' (ht.keeps ha).toDataBlock).trans
        ((ht.outside hl).same hl ha.toDataBlock)
      exact (blit_same (sectors_apart (hc.ne (ht.keeps ha)))).trans
        ((blit_same (sectors_apart (ht.ne ha))).trans hclaims)

theorem Inserted.layout (hi : Inserted s de s') (hl : DiskLayout s.part) :
    DiskLayout s'.part := by
  cases hi with
  | slot => exact hl
  | block _ _ _ _ _ _ _ hc => exact hc.layout hl
  | table _ _ _ _ _ _ _ ht hc => exact hc.layout (ht.layout hl)

/-- The new block is the directory's own like the others. -/
theorem OwnBlocks.add {disk disk' : Bytes} {part part' : Partition} {nd nd' : Inode}
    {stays : Nat → Bool} {k : Nat} {lba : UInt32} (hown : OwnBlocks disk part nd)
    (hkeeps : ∀ a, InUse part a → InUse part' a) (hnew : ∀ a, InUse part a → a ≠ lba)
    (hlba : InUse part' lba)
    (hblocks : ∀ i < 140, blockAt disk' nd' i =
      if i = k then lba else if stays i then blockAt disk nd i else 0)
    (htable : nd'.iSectors 12 ≠ 0 → InUse part' (nd'.iSectors 12))
    (happart : nd'.iSectors 12 ≠ lba ∧ ∀ i < 140, blockAt disk nd i ≠ 0 → stays i = true →
      blockAt disk nd i ≠ nd'.iSectors 12) : OwnBlocks disk' part' nd' := by
  -- a block of the directory is the new one or one that stays
  have hcases : ∀ i < 140, blockAt disk' nd' i ≠ 0 →
      i = k ∧ blockAt disk' nd' i = lba ∨
        stays i = true ∧ blockAt disk nd i ≠ 0 ∧ blockAt disk' nd' i = blockAt disk nd i := by
    intro i hi hne
    rw [hblocks i hi] at hne ⊢
    by_cases hik : i = k
    · exact .inl ⟨hik, if_pos hik⟩
    · rw [if_neg hik] at hne ⊢
      by_cases hs : stays i = true
      · rw [if_pos hs] at hne ⊢
        exact .inr ⟨hs, hne, rfl⟩
      · rw [if_neg hs] at hne
        exact absurd rfl hne
  constructor
  · intro i hi hne
    obtain ⟨-, hb⟩ | ⟨-, hz, hb⟩ := hcases i hi hne
    · exact hb ▸ hlba
    · exact hb ▸ hkeeps _ (hown.inUse i hi hz)
  · exact htable
  · intro i hi j hj hne he
    obtain ⟨hik, hb⟩ | ⟨-, hz, hb⟩ := hcases i hi hne
    · obtain ⟨hjk, -⟩ | ⟨-, hz', hb'⟩ := hcases j hj (he ▸ hne)
      · rw [hik, hjk]
      · exact absurd (hb'.symm.trans (he.symm.trans hb)) (hnew _ (hown.inUse j hj hz'))
    · obtain ⟨-, hb'⟩ | ⟨-, -, hb'⟩ := hcases j hj (he ▸ hne)
      · exact absurd (hb.symm.trans (he.trans hb')) (hnew _ (hown.inUse i hi hz))
      · exact hown.apart i hi j hj hz (hb.symm.trans (he.trans hb'))
  · intro i hi hne
    obtain ⟨-, hb⟩ | ⟨hs, hz, hb⟩ := hcases i hi hne
    · exact hb ▸ happart.1.symm
    · exact hb ▸ happart.2 i hi hz hs

/-- An insertion keeps the blocks of the directory its own. -/
theorem Inserted.own (hi : Inserted s de s') (hl : DiskLayout s.part)
    (hown : OwnBlocks s.disk s.part s.inode) : OwnBlocks s'.disk s'.part s'.inode := by
  cases hi with
  | slot k j hk hj hne hbefore hfree =>
    have hblocks := slot_blocks de.toBytes hown hk hj hne
    constructor
    · simpa only [hblocks] using hown.inUse
    · exact hown.table
    · simpa only [hblocks] using hown.apart
    · rw [hblocks]
      exact hown.tableApart
  | block k lba disk part hk hz hbefore hc =>
    have h12 : (s.inode.setSector k lba).iSectors 12 = s.inode.iSectors 12 :=
      setSector_other (by omega)
    have hblocks : ∀ i < 140, _ = if i = k then lba else if true = true then _ else 0 :=
      fun i _ => block_blocks hl hown hk hc (firstSector de) i
    refine hown.add (fun _ => hc.keeps) (fun _ => hc.ne) hc.inUse hblocks (fun h => ?_) ⟨?_, ?_⟩
    · exact hc.keeps (h12 ▸ hown.table (h12 ▸ h))
    · intro he
      have he : s.inode.iSectors 12 = lba := h12.symm.trans he
      have hne : s.inode.iSectors 12 ≠ 0 := he ▸ hc.block.ne_zero hl
      exact hc.ne (hown.table hne) he
    · intro i hi hz _
      exact h12 ▸ hown.tableApart i hi hz
  | table t lba disk disk' part part' hfull ht hc =>
    have h12 : (s.inode.setSector 12 t).iSectors 12 = t := setSector_self ..
    refine hown.add (fun _ ha => hc.keeps (ht.keeps ha)) (fun _ ha => hc.ne (ht.keeps ha)) hc.inUse
      (fun i hi => table_blocks (ht.block.ne_zero hl) (hc.ne ht.inUse) _ _ hi) (fun _ => ?_)
      ⟨?_, ?_⟩
    · exact hc.keeps (h12.symm ▸ ht.inUse)
    · exact h12.symm ▸ hc.ne ht.inUse
    · intro i hi hz _
      exact h12.symm ▸ ht.ne (hown.inUse i hi hz)

end ZhuOS
