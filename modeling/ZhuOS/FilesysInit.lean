import Mathlib.Data.List.Count
import ZhuOS.Ata
import ZhuOS.PartitionScan

/-!
# `fs/fs.c`: the search of `filesys_init`

`part_idx` is set to zero before the first channel and not again, so behind the disk of the first
channel it stands at twelve.
-/

namespace ZhuOS

open ByteMem

/-- The slot has a partition. -/
def Disk.Has (hd : Disk) (ptr : PartPtr) : Prop :=
  ∃ part, hd.part ptr = .ok part ∧ part.secCnt ≠ 0

instance (hd : Disk) (ptr : PartPtr) : Decidable (hd.Has ptr) :=
  match h : hd.part ptr with
  | .ok part => decidable_of_iff (part.secCnt ≠ 0) ⟨fun hne => ⟨part, h, hne⟩, fun ⟨_, hp, hne⟩ =>
      Except.ok.inj (h.symm.trans hp) ▸ hne⟩
  | .error _ => isFalse fun ⟨_, hp, _⟩ => nomatch h.symm.trans hp

namespace FilesysInit

/-- A super block that was read: its disk's channel, its partition, its magic number, and whether
the partition was formatted then. -/
structure Visit where
  place : Nat × PartPtr
  magic : UInt32
  formatted : Bool

/-- What a call of `partition_format` finds in its local, and the answers of `sys_malloc` to it. -/
abbrev Calls : Type := Nat × PartPtr → SuperBlock × (Nat → Bool)

/-- `if(part->sec_cnt != 0)` -/
def examine (calls : Calls) (channelNo : Nat) (hd : Disk) (ptr : PartPtr) :
    Except Fault (Disk × List Visit) := do
  let part ← hd.part ptr
  if part.secCnt ≠ 0 then
    let sbBuf ← ideRead hd.bytes (part.startLba + 1).toNat (fun _ => 0) 1
    let magic := (SuperBlock.ofBytes sbBuf).magic
    if magic = 0x19590318 then return (hd, [⟨(channelNo, ptr), magic, false⟩])
    else
      let (junk, heap) := calls (channelNo, ptr)
      let bytes ← partitionFormat part junk heap hd.bytes
      return ({ hd with bytes }, [⟨(channelNo, ptr), magic, true⟩])
  else return (hd, [])

/-- `while(part_idx < 12)`, with that many rounds left. -/
def partLoop (calls : Calls) (channelNo : Nat) :
    (left partIdx : Nat) → PartPtr → Disk → Except Fault (Nat × Disk × List Visit)
  | 0, partIdx, _, hd => return (partIdx, hd, [])
  | left + 1, partIdx, part, hd => do
    let part := if partIdx = 4 then ⟨true, 0⟩ else part
    let (hd, visits) ← examine calls channelNo hd part
    let (partIdx, hd, visits') ← partLoop calls channelNo left (partIdx + 1) part.next hd
    return (partIdx, hd, visits ++ visits')

/-- `while(channel_no < channel_cnt)`; the first disk of each channel is left out. -/
def channelLoop (calls : Calls) :
    (channelNo partIdx : Nat) → List Disk → Except Fault (List Disk × List Visit)
  | _, _, [] => return ([], [])
  | channelNo, partIdx, hd :: rest => do
    let (partIdx, hd, visits) ← partLoop calls channelNo (12 - partIdx) partIdx ⟨false, 0⟩ hd
    let (rest, visits') ← channelLoop calls (channelNo + 1) partIdx rest
    return (hd :: rest, visits ++ visits')

/-- The search, over the second disk of each channel. -/
def searchFilesystems (calls : Calls) (disks : List Disk) :
    Except Fault (List Disk × List Visit) := channelLoop calls 0 0 disks

/-! ## What is visited -/

/-- The disk of the channel has the partition. -/
def Existing (disks : List Disk) (place : Nat × PartPtr) : Prop :=
  ∃ hd, disks[place.1]? = some hd ∧ hd.Has place.2

/-- Every partition that exists is visited once, no other one is, and those without the magic
number are formatted. -/
structure SearchedRight (disks : List Disk) (visits : List Visit) : Prop where
  once : ∀ place, Existing disks place → (visits.map Visit.place).count place = 1
  only : ∀ v ∈ visits, Existing disks v.place
  formats : ∀ v ∈ visits, v.formatted = true ↔ v.magic ≠ 0x19590318

/-- Whatever is on the disk, the partition can be read, and formatted. -/
def Usable (calls : Calls) (channelNo : Nat) (hd : Disk) : Prop :=
  ∀ ptr bytes, hd.Has ptr → ∃ s, examine calls channelNo { hd with bytes } ptr = .ok s

/-- The twelve slots in the order of `part_idx`. -/
def slot (k : Nat) : PartPtr := if k < 4 then ⟨false, k⟩ else ⟨true, k - 4⟩

def slots : List PartPtr := (List.range' 0 12).map slot

variable {calls : Calls} {disks : List Disk} {hd : Disk} {channelNo : Nat}

theorem part_slot (hd : Disk) {k : Nat} (h : k < 12) : ∃ part, hd.part (slot k) = .ok part := by
  unfold slot Disk.part
  by_cases hprim : k < 4
  · rw [if_pos hprim]
    exact ⟨_, dif_pos hprim⟩
  · have hlt : k - 4 < 8 := by omega
    rw [if_neg hprim]
    exact ⟨_, dif_pos hlt⟩

theorem slots_nodup : slots.Nodup := by decide

theorem mem_slots {ptr : PartPtr} (h : hd.Has ptr) : ptr ∈ slots := by
  obtain ⟨logic, idx⟩ := ptr
  obtain ⟨part, hpart, -⟩ := h
  have hmem : ∀ k < 12, slot k ∈ slots := fun k hk =>
    List.mem_map_of_mem (List.mem_range'_1.mpr ⟨Nat.zero_le k, by omega⟩)
  unfold Disk.part at hpart
  cases logic with
  | false =>
    rw [if_neg Bool.false_ne_true] at hpart
    split at hpart
    · rename_i hlt
      replace hlt : idx < 4 := hlt
      have hk := hmem idx (by omega)
      rwa [slot, if_pos hlt] at hk
    · cases hpart
  | true =>
    rw [if_pos rfl] at hpart
    split at hpart
    · rename_i hlt
      replace hlt : idx < 8 := hlt
      have hk := hmem (idx + 4) (by omega)
      rwa [slot, if_neg (by omega), Nat.add_sub_cancel] at hk
    · cases hpart

/-- What visits of one disk come from. -/
structure Visited (channelNo : Nat) (hd : Disk) (ptrs : List PartPtr) (visits : List Visit) :
    Prop where
  places : visits.map Visit.place = (ptrs.filter (hd.Has ·)).map (channelNo, ·)
  formats : ∀ v ∈ visits, v.formatted = true ↔ v.magic ≠ 0x19590318

theorem Visited.append {ptrs ptrs' : List PartPtr} {visits visits' : List Visit}
    (h : Visited channelNo hd ptrs visits) (h' : Visited channelNo hd ptrs' visits') :
    Visited channelNo hd (ptrs ++ ptrs') (visits ++ visits') where
  places := by rw [List.map_append, h.places, h'.places, List.filter_append, List.map_append]
  formats v hv := (List.mem_append.mp hv).elim (h.formats v) (h'.formats v)

theorem examine_ok (hU : Usable calls channelNo hd) (bytes : Bytes) {k : Nat} (hk : k < 12) :
    ∃ bytes' visits, examine calls channelNo { hd with bytes } (slot k) =
        .ok ({ hd with bytes := bytes' }, visits) ∧ Visited channelNo hd [slot k] visits := by
  obtain ⟨part, hpart⟩ := part_slot hd hk
  have hpart' : Disk.part { hd with bytes } (slot k) = .ok part := hpart
  by_cases hcnt : part.secCnt ≠ 0
  · have hhas : hd.Has (slot k) := ⟨part, hpart, hcnt⟩
    have hplace : [slot k].filter (hd.Has ·) = [slot k] :=
      List.filter_cons_of_pos (decide_eq_true hhas)
    obtain ⟨s, hs⟩ := hU (slot k) bytes hhas
    simp only [examine, hpart', ok_bind, if_pos hcnt, bind_ok] at hs ⊢
    obtain ⟨sbBuf, hread, hs⟩ := hs
    by_cases hmagic : (SuperBlock.ofBytes sbBuf).magic = 0x19590318
    · refine ⟨bytes, [⟨(channelNo, slot k), (SuperBlock.ofBytes sbBuf).magic, false⟩],
        ⟨sbBuf, hread, if_pos hmagic⟩, by rw [hplace]; rfl, fun v hv => ?_⟩
      obtain rfl := List.mem_singleton.mp hv
      exact iff_of_false Bool.false_ne_true (not_not.mpr hmagic)
    · rw [if_neg hmagic, bind_ok] at hs
      obtain ⟨bytes', hformat, -⟩ := hs
      refine ⟨bytes', [⟨(channelNo, slot k), (SuperBlock.ofBytes sbBuf).magic, true⟩],
        ⟨sbBuf, hread, ?_⟩, by rw [hplace]; rfl, fun v hv => ?_⟩
      · rw [if_neg hmagic, bind_ok]
        exact ⟨bytes', hformat, rfl⟩
      · obtain rfl := List.mem_singleton.mp hv
        exact iff_of_true rfl hmagic
  · have hnone : ¬ hd.Has (slot k) := fun ⟨p, hp, hne⟩ =>
      hcnt (Except.ok.inj (hpart.symm.trans hp) ▸ hne)
    refine ⟨bytes, [], ?_, ?_, fun _ hv => nomatch hv⟩
    · simp only [examine, hpart', ok_bind, if_neg hcnt]
      rfl
    · rw [List.filter_cons_of_neg (by simpa using hnone)]
      rfl

/-- The induction is on the rounds; `k` is `part_idx`, and the pointer is at that slot except
where it jumps. -/
theorem partLoop_ok (hU : Usable calls channelNo hd) (left k : Nat) (hk : k + left = 12)
    (part : PartPtr) (hpart : k ≠ 4 → part = slot k) (bytes : Bytes) :
    ∃ bytes' visits, partLoop calls channelNo left k part { hd with bytes } =
        .ok (12, { hd with bytes := bytes' }, visits) ∧
      Visited channelNo hd ((List.range' k left).map slot) visits := by
  induction left generalizing k part bytes with
  | zero =>
    obtain rfl : k = 12 := hk
    exact ⟨bytes, [], rfl, rfl, fun _ hv => nomatch hv⟩
  | succ left ih =>
    have hslot : (if k = 4 then ⟨true, 0⟩ else part) = slot k := by
      by_cases hjump : k = 4
      · rw [if_pos hjump, hjump]
        rfl
      · rw [if_neg hjump, hpart hjump]
    have hnext : k + 1 ≠ 4 → (slot k).next = slot (k + 1) := by
      intro hne
      unfold slot PartPtr.next
      by_cases hprim : k < 4
      · rw [if_pos hprim, if_pos (by omega)]
      · rw [if_neg hprim, if_neg (by omega), show k - 4 + 1 = k + 1 - 4 by omega]
    obtain ⟨bytes₁, visits₁, hfirst, hvisited₁⟩ := examine_ok hU bytes (show k < 12 by omega)
    obtain ⟨bytes₂, visits₂, hrest, hvisited₂⟩ := ih (k + 1) (by omega) _ hnext bytes₁
    refine ⟨bytes₂, visits₁ ++ visits₂, ?_, hvisited₁.append hvisited₂⟩
    simp only [partLoop, hslot, hfirst, ok_bind, hrest]
    rfl

/-- Behind the first channel there are no rounds left. -/
theorem channelLoop_done (calls : Calls) (disks : List Disk) (channelNo : Nat) :
    channelLoop calls channelNo 12 disks = .ok (disks, []) := by
  induction disks generalizing channelNo with
  | nil => rfl
  | cons hd rest ih =>
    simp only [channelLoop, Nat.sub_self, partLoop, pure_bind, ih, ok_bind]
    rfl

/-- Only the first channel's disk is visited. -/
theorem search_visits (hU : Usable calls 0 hd) (rest : List Disk) :
    ∃ disks' visits, searchFilesystems calls (hd :: rest) = .ok (disks', visits) ∧
      Visited 0 hd slots visits := by
  obtain ⟨bytes, visits, hloop, hvisited⟩ :=
    partLoop_ok hU 12 0 rfl ⟨false, 0⟩ (fun _ => rfl) hd.bytes
  have hloop' : partLoop calls 0 12 0 ⟨false, 0⟩ hd = .ok (12, { hd with bytes }, visits) := hloop
  refine ⟨{ hd with bytes } :: rest, visits, ?_, hvisited⟩
  simp only [searchFilesystems, channelLoop, Nat.sub_zero, hloop', ok_bind, channelLoop_done]
  rw [List.append_nil]
  rfl

theorem Visited.count {visits : List Visit} (h : Visited channelNo hd slots visits)
    {ptr : PartPtr} (hhas : hd.Has ptr) :
    (visits.map Visit.place).count (channelNo, ptr) = 1 := by
  have hmem : ptr ∈ slots.filter (hd.Has ·) :=
    List.mem_filter.mpr ⟨mem_slots hhas, decide_eq_true hhas⟩
  rw [h.places, List.count_map_of_injective _ (channelNo, ·) fun _ _ heq => (Prod.ext_iff.mp heq).2]
  exact List.count_eq_one_of_mem (slots_nodup.filter _) hmem

theorem Visited.place {visits : List Visit} (h : Visited channelNo hd slots visits)
    {place : Nat × PartPtr} (hmem : place ∈ visits.map Visit.place) :
    place.1 = channelNo ∧ hd.Has place.2 := by
  rw [h.places] at hmem
  obtain ⟨ptr, hptr, rfl⟩ := List.mem_map.mp hmem
  exact ⟨rfl, of_decide_eq_true (List.mem_filter.mp hptr).2⟩

/-- The search comes to its end, and it has visited every partition just when those that exist
are all on the first channel. -/
theorem search_right_iff (hU : ∀ c hd, disks[c]? = some hd → Usable calls c hd) :
    ∃ disks' visits, searchFilesystems calls disks = .ok (disks', visits) ∧
      (SearchedRight disks visits ↔ ∀ place, Existing disks place → place.1 = 0) := by
  cases disks with
  | nil =>
    have hnone : ∀ place, ¬ Existing [] place := fun _ ⟨_, h, _⟩ => nomatch h
    have hright : SearchedRight [] [] :=
      ⟨fun place h => absurd h (hnone place), fun _ hv => (nomatch hv), fun _ hv => (nomatch hv)⟩
    exact ⟨[], [], rfl, iff_of_true hright fun place h => absurd h (hnone place)⟩
  | cons hd rest =>
    obtain ⟨disks', visits, hsearch, hvisited⟩ := search_visits (hU 0 hd rfl) rest
    refine ⟨disks', visits, hsearch, fun hright place hplace => ?_, fun hfirst => ⟨?_, ?_, ?_⟩⟩
    · have hone := hright.once place hplace
      exact (hvisited.place (List.count_pos_iff.mp (by omega))).1
    · rintro ⟨c, ptr⟩ hplace
      obtain rfl : c = 0 := hfirst _ hplace
      obtain ⟨hd', hhd', hhas⟩ := hplace
      obtain rfl := Option.some.inj hhd'
      exact hvisited.count hhas
    · intro v hv
      obtain ⟨hzero, hhas⟩ := hvisited.place (List.mem_map_of_mem hv)
      exact ⟨hd, by rw [hzero]; rfl, hhas⟩
    · exact hvisited.formats

/-! ## Disks that can be formatted -/

/-- Every sector that `partition_format` writes, and the one behind the start that is read, lies
where the driver lets it through. -/
structure Writable (part : Partition) (sb : SuperBlock) : Prop where
  super : (part.startLba + 1).toNat ≤ max_lba
  buffer : 0 < (max (max sb.blockBitmapSects sb.inodeBitmapSects) sb.inodeTableSects *
    SECTOR_SIZE).toNat
  blockBitmap : 0 < sb.blockBitmapSects.toNat ∧
    Ata.Starts sb.blockBitmapLba.toNat sb.blockBitmapSects.toNat
  inodeBitmap : 0 < sb.inodeBitmapSects.toNat ∧
    Ata.Starts sb.inodeBitmapLba.toNat sb.inodeBitmapSects.toNat
  inodeTable : 0 < sb.inodeTableSects.toNat ∧
    Ata.Starts sb.inodeTableLba.toNat sb.inodeTableSects.toNat
  root : sb.dataStartLba.toNat ≤ max_lba

theorem partitionFormat_ok {part : Partition} {junk : SuperBlock} {heap : Nat → Bool}
    (h : Writable part (formatSuperBlock part.startLba part.secCnt junk)) (hheap : heap 0 = true)
    (disk : Bytes) : ∃ disk', partitionFormat part junk heap disk = .ok disk' := by
  have hfound : (askMalloc heap (max (max (formatSuperBlock part.startLba part.secCnt
      junk).blockBitmapSects (formatSuperBlock part.startLba part.secCnt junk).inodeBitmapSects)
      (formatSuperBlock part.startLba part.secCnt junk).inodeTableSects * SECTOR_SIZE).toNat).1 =
        true := by
    rw [askMalloc, hheap, decide_eq_true h.buffer]
    rfl
  simp only [partitionFormat, ideWrite_one h.super, ok_bind, hfound, orNull_true,
    Ata.ideWrite_starts _ _ h.blockBitmap.1 h.blockBitmap.2,
    Ata.ideWrite_starts _ _ h.inodeBitmap.1 h.inodeBitmap.2,
    Ata.ideWrite_starts _ _ h.inodeTable.1 h.inodeTable.2, ideWrite_one h.root]
  exact ⟨_, rfl⟩

theorem usable_of_writable (h : ∀ ptr part, hd.part ptr = .ok part → part.secCnt ≠ 0 →
    Writable part (formatSuperBlock part.startLba part.secCnt (calls (channelNo, ptr)).1) ∧
      (calls (channelNo, ptr)).2 0 = true) : Usable calls channelNo hd := by
  rintro ptr bytes ⟨part, hpart, hcnt⟩
  obtain ⟨hwritable, hheap⟩ := h ptr part hpart hcnt
  have hpart' : Disk.part { hd with bytes } ptr = .ok part := hpart
  obtain ⟨bytes', hformat⟩ := partitionFormat_ok hwritable hheap bytes
  simp only [examine, hpart', ok_bind, if_pos hcnt, ideRead_one hwritable.super, hformat]
  split
  · exact ⟨_, rfl⟩
  · exact ⟨_, rfl⟩

/-- A partition of the sectors from 2048 on. -/
def somePartition (secCnt : UInt32) : Partition :=
  { startLba := 2048, secCnt, name := [], sb := .ofBytes fun _ => 0
    blockBitmap := ⟨0, fun _ => 0⟩, inodeBitmap := ⟨0, fun _ => 0⟩, openInodes := [] }

/-- A disk whose first slot is the only one that may have a partition. -/
def someDisk (secCnt : UInt32) : Disk :=
  ⟨[], fun i => somePartition (if i = 0 then secCnt else 0), fun _ => somePartition 0, fun _ => 0⟩

def someCalls : Calls := fun _ => (.ofBytes fun _ => 0, fun _ => true)

theorem someDisk_part {secCnt : UInt32} {ptr : PartPtr} {part : Partition}
    (h : (someDisk secCnt).part ptr = .ok part) (hcnt : part.secCnt ≠ 0) :
    part = somePartition secCnt := by
  unfold Disk.part at h
  split at h <;> split at h
  · obtain rfl := Except.ok.inj h
    exact absurd rfl hcnt
  · cases h
  · obtain rfl := Except.ok.inj h
    by_cases hzero : (⟨ptr.idx, ‹_›⟩ : Fin 4) = 0
    · exact congrArg somePartition (if_pos hzero)
    · exact absurd (if_neg hzero) hcnt
  · cases h

theorem somePartition_writable :
    Writable (somePartition 8192) (formatSuperBlock 2048 8192 (.ofBytes fun _ => 0)) := by
  refine ⟨by decide, by decide, ⟨by decide, fun k hk => ?_⟩, ⟨by decide, fun k hk => ?_⟩,
    ⟨by decide, fun k hk => ?_⟩, by decide⟩
  · replace hk : 256 * k < 2 := hk
    change 2050 + 256 * k ≤ 163839
    omega
  · replace hk : 256 * k < 1 := hk
    change 2050 + 256 * k ≤ 163839
    omega
  · replace hk : 256 * k < 608 := hk
    change 2050 + 256 * k ≤ 163839
    omega

theorem someDisk_usable (channelNo : Nat) : Usable someCalls channelNo (someDisk 8192) := by
  refine usable_of_writable fun ptr part hpart hcnt => ?_
  obtain rfl := someDisk_part hpart hcnt
  exact ⟨somePartition_writable, rfl⟩

/-- A disk on the first channel and none behind it. -/
theorem search_right_iff_one : ∃ disks' visits,
    searchFilesystems someCalls [someDisk 8192] = .ok (disks', visits) ∧
      (SearchedRight [someDisk 8192] visits ↔
        ∀ place, Existing [someDisk 8192] place → place.1 = 0) := by
  refine search_right_iff fun c hd hhd => ?_
  obtain rfl := List.mem_singleton.mp (List.mem_of_getElem? hhd)
  exact someDisk_usable c

/-- The second channel's disk has a partition, and nothing is visited. -/
theorem search_misses : ∃ disks' visits,
    searchFilesystems someCalls [someDisk 0, someDisk 8192] = .ok (disks', visits) ∧
      Existing [someDisk 0, someDisk 8192] (1, ⟨false, 0⟩) ∧
      ¬ SearchedRight [someDisk 0, someDisk 8192] visits := by
  refine ⟨_, [], rfl, ⟨someDisk 8192, rfl, somePartition 8192, rfl, by decide⟩, fun h => ?_⟩
  have hone := h.once (1, ⟨false, 0⟩) ⟨someDisk 8192, rfl, somePartition 8192, rfl, by decide⟩
  exact absurd hone (by decide)

end FilesysInit

end ZhuOS
