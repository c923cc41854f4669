import ZhuOS.Dir

/-!
# What a directory lists

A directory is the list of the entries in its blocks. `search_dir_entry` returns
the first of them with the name, so that the list is all a lookup depends on.
-/

namespace ZhuOS

open ByteMem

set_option maxRecDepth 2000

/-- The entries of a sector. -/
def sectorEntries (disk : Bytes) (lba : UInt32) : List DirEntry :=
  (List.range 21).map (entryAt (shift disk (lba.toNat * 512)))

/-- The entries of a directory, in the order a lookup meets them. -/
def entries (disk : Bytes) (nd : Inode) : List DirEntry :=
  (List.range 140).flatMap fun k =>
    if blockAt disk nd k = 0 then [] else sectorEntries disk (blockAt disk nd k)

def lookup (disk : Bytes) (nd : Inode) (name : List UInt8) : Option DirEntry :=
  (entries disk nd).find? (·.name = name)

variable {disk disk' : Bytes} {nd nd' : Inode} {name : List UInt8}

theorem entryAt_congr {a b : Bytes} {j : Nat} (hj : j < 21) (h : ∀ i < 512, a i = b i) :
    entryAt a j = entryAt b j := by
  apply DirEntry.ofBytes_congr
  intro i hi
  unfold SIZEOF_DIR_ENTRY at hi
  exact h _ (by unfold SIZEOF_DIR_ENTRY; omega)

/-- The entry `j` of the sector, out of a buffer the sector was read into. -/
theorem entryAt_read {buf : Bytes} {lba j : Nat} (hj : j < 21) :
    entryAt (blit buf 0 disk (lba * 512) 512) j = entryAt (shift disk (lba * 512)) j :=
  entryAt_congr hj fun i hi => by rw [blit_in (by omega) (by omega), shift_apply, Nat.sub_zero]

theorem sectorEntries_congr {lba : UInt32} (h : Same disk' disk (lba.toNat * 512) 512) :
    sectorEntries disk' lba = sectorEntries disk lba := by
  refine List.map_congr_left fun j hj => entryAt_congr (List.mem_range.mp hj) fun i hi => ?_
  exact h _ (by omega) (by omega)

theorem mem_sectorEntries {lba : UInt32} {e : DirEntry} : e ∈ sectorEntries disk lba ↔
    ∃ j < 21, entryAt (shift disk (lba.toNat * 512)) j = e := by
  simp only [sectorEntries, List.mem_map, List.mem_range]

theorem mem_entries {e : DirEntry} : e ∈ entries disk nd ↔ ∃ k < 140, blockAt disk nd k ≠ 0 ∧
    e ∈ sectorEntries disk (blockAt disk nd k) := by
  simp only [entries, List.mem_flatMap, List.mem_range]
  refine exists_congr fun k => and_congr_right fun _ => ?_
  split <;> simp_all

/-- A directory lists what its sectors hold. -/
theorem entries_congr (hblocks : ∀ k < 140, blockAt disk' nd' k = blockAt disk nd k)
    (hsame : ∀ k < 140, blockAt disk nd k ≠ 0 →
      Same disk' disk ((blockAt disk nd k).toNat * 512) 512) :
    entries disk' nd' = entries disk nd := by
  unfold entries
  apply List.flatMap_congr
  intro k hk
  have hk := List.mem_range.mp hk
  rw [hblocks k hk]
  split
  · rfl
  · rename_i hne
    exact sectorEntries_congr (hsame k hk hne)

/-! ## `search_dir_entry` finds what is listed -/

theorem scanName_eq (buf : Bytes) (name : List UInt8) (left j : Nat) :
    scanName buf name left j =
      (List.range' j left).find? fun i => (entryAt buf i).name = name := by
  induction left generalizing j with
  | zero => rfl
  | succ left ih =>
    rw [scanName, List.range'_succ, List.find?_cons]
    by_cases h : (entryAt buf j).name = name
    · simp [h]
    · simp [h, ih]

/-- The scan of a sector that was read is the search of its entries. -/
theorem scanName_sector (disk buf : Bytes) (lba : UInt32) (name : List UInt8) :
    let buf := blit buf 0 disk (lba.toNat * 512) 512
    (scanName buf name 21 0).map (entryAt buf) =
      (sectorEntries disk lba).find? (·.name = name) := by
  intro buf
  have hentry : ∀ j ∈ List.range 21,
      entryAt buf j = entryAt (shift disk (lba.toNat * 512)) j :=
    fun j hj => entryAt_read (List.mem_range.mp hj)
  rw [sectorEntries, ← List.map_congr_left hentry, List.find?_map, scanName_eq,
    ← List.range_eq_range']
  rfl

theorem searchBlocks_eq (hread : ∀ k < 140, (blockAt disk nd k).toNat ≤ max_lba)
    (left k : Nat) (buf : Bytes) (hsum : k + left = 140) :
    searchBlocks disk (blockAt disk nd) name true 21 left k buf =
      .ok (((List.range' k left).flatMap fun k =>
        if blockAt disk nd k = 0 then [] else sectorEntries disk (blockAt disk nd k)).find?
          (·.name = name)) := by
  induction left generalizing k buf with
  | zero => rfl
  | succ left ih =>
    rw [List.range'_succ, List.flatMap_cons, List.find?_append, searchBlocks]
    by_cases hz : blockAt disk nd k = 0
    · rw [if_pos hz, if_pos hz, ih _ _ (by omega)]
      rfl
    · have hscan := scanName_sector disk buf (blockAt disk nd k) name
      rw [if_neg hz, if_neg hz]
      simp only [orNull_true, ok_bind, ideRead_one (hread k (by omega))]
      rw [← hscan]
      cases scanName (blit buf 0 disk ((blockAt disk nd k).toNat * 512) 512) name 21 0 with
      | some j => rfl
      | none => exact ih _ _ (by omega)

/-- `search_dir_entry` is the lookup in the list. -/
theorem searchDirEntry_eq {fs : Fs} (hheap : fs.heap = fun _ => true)
    (hsize : fs.part.sb.dirEntrySize = 24) (hr : Readable fs.disk nd) (name : List UInt8) :
    searchDirEntry fs nd name = .ok (lookup fs.disk nd name, fs) := by
  have hper : dirEntrysPerSec fs.part.sb = .ok 21 := by
    rw [dirEntrysPerSec, hsize]
    rfl
  simp only [searchDirEntry, Fs.askMalloc_found hheap (by decide : 0 < 48 + 512), not_true,
    ↓reduceIte, allBlocks_eq (fun _ => hr.table), ok_bind,
    Fs.askMalloc_found hheap (by decide : 0 < 512), hper,
    searchBlocks_eq hr.blocks 140 0 _ rfl, ← List.range_eq_range']
  rfl

/-! ## Names that occur once -/

/-- With one entry of the name, the lookup returns it. -/
theorem lookup_of_mem {e : DirEntry} (he : e ∈ entries disk nd) (hname : e.name = name)
    (hone : ∀ x ∈ entries disk nd, x.name = name → x = e) : lookup disk nd name = some e := by
  have hsome : (lookup disk nd name).isSome := by
    rw [lookup, List.find?_isSome]
    exact ⟨e, he, by simpa using hname⟩
  obtain ⟨x, hx⟩ := Option.isSome_iff_exists.mp hsome
  rw [hx, hone x (List.mem_of_find?_eq_some hx) (by simpa using List.find?_some hx)]

theorem lookup_mem {e : DirEntry} (h : lookup disk nd name = some e) :
    e ∈ entries disk nd ∧ e.name = name :=
  ⟨List.mem_of_find?_eq_some h, by simpa using List.find?_some h⟩

theorem lookup_none : lookup disk nd name = none ↔ ∀ e ∈ entries disk nd, e.name ≠ name := by
  simp [lookup, List.find?_eq_none]

end ZhuOS
