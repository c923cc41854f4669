import ZhuOS.Deletions
import ZhuOS.Lib.CStrings

/-!
# Names of sixteen bytes

`create_dir_entry` takes names of up to 16 bytes, for which the field of an entry has no
zero left. `search_dir_entry` compares with `strcmp`, which then goes on into the inode
number; here the lookup is the one over the bytes.
-/

namespace ZhuOS

open ByteMem Slots

set_option maxRecDepth 2000

/-! ## `strcmp` -/

/-- `strcmp` of the string at `off` with `name`, whose zero is not listed. -/
def strcmp (a : Bytes) : (off : Nat) → (name : List UInt8) → Int
  | off, [] => if (a off).toInt8 < 0 then -1 else if 0 < (a off).toInt8 then 1 else 0
  | off, c :: name =>
    if a off ≠ 0 ∧ a off = c then strcmp a (off + 1) name
    else if (a off).toInt8 < c.toInt8 then -1 else if c.toInt8 < (a off).toInt8 then 1 else 0

theorem compare_zero {x y : UInt8} :
    (if x.toInt8 < y.toInt8 then -1 else if y.toInt8 < x.toInt8 then 1 else 0 : Int) = 0 ↔
      x = y := by
  constructor
  · intro h
    have hsame : x.toInt8 = y.toInt8 := by
      by_contra hne
      obtain hlt | hlt := Int8.lt_or_lt_of_ne hne
      · simp [hlt] at h
      · simp [hlt, Int8.lt_asymm hlt] at h
    simpa using congrArg Int8.toUInt8 hsame
  · rintro rfl
    simp

theorem strcmp_zero {a : Bytes} {off : Nat} {name : List UInt8} (hn : ∀ c ∈ name, c ≠ 0) :
    strcmp a off name = 0 ↔ CStringAt a off name := by
  induction name generalizing off with
  | nil =>
    rw [cStringAt_nil, strcmp]
    exact compare_zero
  | cons c name ih =>
    have hc : c ≠ 0 := hn c (by simp)
    rw [cStringAt_cons, and_iff_right hc, strcmp]
    by_cases hsame : a off = c
    · rw [if_pos ⟨hsame ▸ hc, hsame⟩, ih fun x hx => hn x (by simp [hx]), and_iff_right hsame]
    · rw [if_neg fun h => hsame h.2, compare_zero]
      exact ⟨fun h => absurd h hsame, fun h => absurd h.1 hsame⟩

/-! ## `search_dir_entry` over the bytes -/

/-- The first entry of the sector whose file name compares equal. -/
def scanStr (buf : Bytes) (name : List UInt8) : (left dirEntryIdx : Nat) → Option Nat
  | 0, _ => none
  | left + 1, j =>
    if strcmp buf (SIZEOF_DIR_ENTRY * j) name = 0 then some j else scanStr buf name left (j + 1)

def searchBlocksStr (disk : Bytes) (blocks : Nat → UInt32) (name : List UInt8) (bufFound : Bool)
    (dirEntryCnt : Nat) : (left blockIdx : Nat) → Bytes → Except Fault (Option DirEntry)
  | 0, _, _ => return none
  | left + 1, k, buf =>
    if blocks k = 0 then searchBlocksStr disk blocks name bufFound dirEntryCnt left (k + 1) buf
    else do
      orNull bufFound
      let buf ← ideRead disk (blocks k).toNat buf 1
      match scanStr buf name dirEntryCnt 0 with
      | some j => return some (entryAt buf j)
      | none =>
        searchBlocksStr disk blocks name bufFound dirEntryCnt left (k + 1) (fill buf 0 512 0)

/-- `search_dir_entry` with the `strcmp` it calls. -/
def searchDirEntryStr (fs : Fs) (dir : Inode) (name : List UInt8) :
    Except Fault (Option DirEntry × Fs) := do
  let (blocksFound, fs) := fs.askMalloc (48 + 512)
  if ¬ blocksFound then return (none, fs)
  let blocks ← allBlocks fs.disk dir
  let (bufFound, fs) := fs.askMalloc 512
  let dirEntryCnt ← dirEntrysPerSec fs.part.sb
  let found ← searchBlocksStr fs.disk blocks name bufFound dirEntryCnt 140 0 (fun _ => 0)
  return (found, fs)

/-- The entry compares equal: a name of 16 bytes needs the low byte of the number for
its zero. -/
def DirEntry.Matches (e : DirEntry) (name : List UInt8) : Prop :=
  e.name = name ∧ (name.length = 16 → e.iNo.toNat % 2 ^ 8 = 0)

instance (e : DirEntry) (name : List UInt8) : Decidable (e.Matches name) :=
  inferInstanceAs (Decidable (_ ∧ _))

/-- A name that `create_dir_entry` accepts. -/
structure EntryName (name : List UInt8) : Prop where
  ne : name ≠ []
  le : name.length ≤ MAX_FILE_NAME_LEN
  noZero : ∀ c ∈ name, c ≠ 0

section
variable {name : List UInt8} {buf : Bytes} {j : Nat}

theorem getWord_low (b : Bytes) (off : Nat) : (getWord b off).toNat % 2 ^ 8 = (b off).toNat := by
  have hlt := (b off).toNat_lt
  simp only [getWord, UInt32.toNat_ofNat']
  omega

theorem entryAt_name : (entryAt buf j).name = field buf (SIZEOF_DIR_ENTRY * j) 16 := by
  have hbytes : (List.range MAX_FILE_NAME_LEN).map (entryAt buf j).filename =
      (List.range' (SIZEOF_DIR_ENTRY * j) 16).map buf := by
    rw [List.range'_eq_map_range, List.map_map]
    refine List.map_congr_left fun i hi => if_pos ?_
    exact List.mem_range.mp hi
  rw [DirEntry.name, hbytes, field]

/-- `search_dir_entry` tells the entries by name and number. -/
theorem strcmp_entry (hn : EntryName name) :
    strcmp buf (SIZEOF_DIR_ENTRY * j) name = 0 ↔ (entryAt buf j).Matches name := by
  have hnum : (entryAt buf j).iNo.toNat % 2 ^ 8 = (buf (SIZEOF_DIR_ENTRY * j + 16)).toNat :=
    getWord_low ..
  rw [strcmp_zero hn.noZero, cStringAt_iff_field hn.le, DirEntry.Matches, entryAt_name, hnum]
  simp only [MAX_FILE_NAME_LEN, ← UInt8.toNat_inj]
  rfl

theorem scanStr_eq (hn : EntryName name) (left j : Nat) : scanStr buf name left j =
    (List.range' j left).find? fun i => (entryAt buf i).Matches name := by
  induction left generalizing j with
  | zero => rfl
  | succ left ih =>
    rw [scanStr, List.range'_succ, List.find?_cons, ih]
    by_cases h : (entryAt buf j).Matches name
    · rw [if_pos ((strcmp_entry hn).mpr h), decide_eq_true h]
    · rw [if_neg fun hs => h ((strcmp_entry hn).mp hs), decide_eq_false h]

/-- Up to 15 bytes it is the name alone. -/
theorem matches_short {e : DirEntry} (h : name.length < MAX_FILE_NAME_LEN) :
    e.Matches name ↔ e.name = name :=
  and_iff_left fun h16 => by rw [h16] at h; exact absurd h (by decide)

end

/-! ## The lookup -/

/-- What a search returns, whoever searches. -/
def SearchGives (s : NodeState) (name : List UInt8) (r : Option DirEntry) : Prop :=
  ∀ fs : Fs, fs.disk = s.disk → fs.part = s.part → (fs.heap = fun _ => true) →
    searchDirEntryStr fs s.inode name = .ok (r, fs)

section
variable {disk : Bytes} {nd : Inode} {name : List UInt8} {s : NodeState}

theorem scanStr_sector (hn : EntryName name) (disk buf : Bytes) (lba : UInt32) :
    let buf := blit buf 0 disk (lba.toNat * 512) 512
    (scanStr buf name 21 0).map (entryAt buf) =
      (sectorEntries disk lba).find? fun e => e.Matches name := by
  intro buf
  have hentry : ∀ j ∈ List.range 21,
      entryAt buf j = entryAt (shift disk (lba.toNat * 512)) j :=
    fun j hj => entryAt_read (List.mem_range.mp hj)
  rw [sectorEntries, ← List.map_congr_left hentry, List.find?_map, scanStr_eq hn,
    ← List.range_eq_range']
  rfl

theorem searchBlocksStr_eq (hn : EntryName name)
    (hread : ∀ k < 140, (blockAt disk nd k).toNat ≤ max_lba) (left k : Nat) (buf : Bytes)
    (hsum : k + left = 140) :
    searchBlocksStr disk (blockAt disk nd) name true 21 left k buf =
      .ok (((List.range' k left).flatMap fun k =>
        if blockAt disk nd k = 0 then [] else sectorEntries disk (blockAt disk nd k)).find?
          fun e => e.Matches name) := by
  induction left generalizing k buf with
  | zero => rfl
  | succ left ih =>
    rw [List.range'_succ, List.flatMap_cons, List.find?_append, searchBlocksStr]
    by_cases hz : blockAt disk nd k = 0
    · rw [if_pos hz, if_pos hz, ih _ _ (by omega)]
      rfl
    · have hscan := scanStr_sector hn disk buf (blockAt disk nd k)
      rw [if_neg hz, if_neg hz]
      simp only [orNull_true, ok_bind, ideRead_one (hread k (by omega))]
      rw [← hscan]
      cases scanStr (blit buf 0 disk ((blockAt disk nd k).toNat * 512) 512) name 21 0 with
      | some j => rfl
      | none => exact ih _ _ (by omega)

theorem searchDirEntryStr_eq (hn : EntryName name) {fs : Fs} (hheap : fs.heap = fun _ => true)
    (hsize : fs.part.sb.dirEntrySize = 24) (hr : Readable fs.disk nd) :
    searchDirEntryStr fs nd name =
      .ok ((entries fs.disk nd).find? fun e => e.Matches name, fs) := by
  have hper : dirEntrysPerSec fs.part.sb = .ok 21 := by
    rw [dirEntrysPerSec, hsize]
    rfl
  simp only [searchDirEntryStr, Fs.askMalloc_found hheap (by decide : 0 < 48 + 512), not_true,
    ↓reduceIte, allBlocks_eq (fun _ => hr.table), ok_bind,
    Fs.askMalloc_found hheap (by decide : 0 < 512), hper,
    searchBlocksStr_eq hn hr.blocks 140 0 _ rfl, ← List.range_eq_range']
  rfl

/-- For the names of up to 15 bytes this is the search by names. -/
theorem searchDirEntryStr_short (hn : FileName name) {fs : Fs} (hheap : fs.heap = fun _ => true)
    (hsize : fs.part.sb.dirEntrySize = 24) (hr : Readable fs.disk nd) :
    searchDirEntryStr fs nd name = searchDirEntry fs nd name := by
  rw [searchDirEntryStr_eq ⟨hn.ne, Nat.le_of_lt hn.short, hn.noZero⟩ hheap hsize hr,
    searchDirEntry_eq hheap hsize hr, lookup]
  simp only [matches_short hn.short]

theorem searchGives_iff (hn : EntryName name) (hl : DiskLayout s.part)
    (hr : Readable s.disk s.inode) {r : Option DirEntry} :
    SearchGives s name r ↔ (entries s.disk s.inode).find? (fun e => e.Matches name) = r := by
  have hsearch : ∀ fs : Fs, fs.disk = s.disk → fs.part = s.part → (fs.heap = fun _ => true) →
      searchDirEntryStr fs s.inode name =
        .ok ((entries s.disk s.inode).find? fun e => e.Matches name, fs) := by
    intro fs hdisk hpart hheap
    rw [searchDirEntryStr_eq hn hheap (hpart ▸ hl.entrySize) (hdisk.symm ▸ hr), hdisk]
  constructor
  · intro h
    let fs : Fs :=
      { disk := s.disk, part := s.part, rootDir := 0, fileTable := fun _ => ⟨0, 0, none⟩
        fdTable := fun _ => none, heap := fun _ => true, junk := fun _ => 0 }
    have hfound := (hsearch fs rfl rfl rfl).symm.trans (h fs rfl rfl rfl)
    simpa only [Except.ok.injEq, Prod.mk.injEq, and_true] using hfound
  · rintro rfl fs hdisk hpart hheap
    exact hsearch fs hdisk hpart hheap

theorem searchGives_none (hn : EntryName name) (hl : DiskLayout s.part)
    (hr : Readable s.disk s.inode) :
    SearchGives s name none ↔ ∀ e ∈ entries s.disk s.inode, ¬ e.Matches name := by
  simp [searchGives_iff hn hl hr, List.find?_eq_none]

end

/-! ## Where a new entry lies -/

/-- The entry lies in the slot, and the others hold what they held or nothing. -/
structure StoredAt (s s' : NodeState) (p : Nat × Nat) (e : DirEntry) : Prop where
  mem : p ∈ dirGrid
  self : slot s'.disk s'.inode p = some e
  other : ∀ q ∈ dirGrid, q ≠ p → ∀ a, slot s'.disk s'.inode q = some a →
    slot s.disk s.inode q = some a

section
variable {s s' : NodeState} {p : Nat × Nat} {e de : DirEntry}

theorem StoredAt.of_put (h : Put dirGrid (slot s.disk s.inode) (slot s'.disk s'.inode) p e) :
    StoredAt s s' p e where
  mem := h.mem
  self := h.self
  other q hq hqp _ ha := (h.other q hq hqp).symm.trans ha

/-- The numbers still occur once. -/
theorem StoredAt.numbers (h : StoredAt s s' p e)
    (hone : KeyOnce dirGrid (slot s.disk s.inode) (·.iNo) DirEntry.Proper)
    (hnew : ∀ q ∈ dirGrid, ∀ a, slot s.disk s.inode q = some a → a.Proper → a.iNo ≠ e.iNo) :
    KeyOnce dirGrid (slot s'.disk s'.inode) (·.iNo) DirEntry.Proper := by
  have hcases : ∀ q ∈ dirGrid, ∀ a, slot s'.disk s'.inode q = some a → a.Proper →
      q = p ∧ a = e ∨ slot s.disk s.inode q = some a ∧ a.iNo ≠ e.iNo := by
    intro q hq a ha hproper
    by_cases hqp : q = p
    · subst hqp
      exact .inl ⟨rfl, Option.some.inj (ha.symm.trans h.self)⟩
    · have hold := h.other q hq hqp a ha
      exact .inr ⟨hold, hnew q hq a hold hproper⟩
  intro q hq r hr a b ha hb hPa hPb hkey
  obtain ⟨rfl, rfl⟩ | ⟨holda, hnea⟩ := hcases q hq a ha hPa
  · obtain ⟨rfl, -⟩ | ⟨-, hneb⟩ := hcases r hr b hb hPb
    · rfl
    · exact absurd hkey.symm hneb
  · obtain ⟨-, rfl⟩ | ⟨holdb, -⟩ := hcases r hr b hb hPb
    · exact absurd hkey hnea
    · exact hone q hq r hr a b holda holdb hPa hPb hkey

/-- Behind a new table lies the entry alone. -/
theorem table_slots {t lba : UInt32} {disk disk' : Bytes} {part part' : Partition}
    (hl : DiskLayout s.part) (hown : OwnBlocks s.disk s.part s.inode)
    (ht : Claimed s.disk s.part t disk part) (hc : Claimed disk part lba disk' part')
    (hlive : de.stored.fType ≠ FT_UNKNOWN) :
    let disk₁ := blit (blit disk' (t.toNat * 512)
      (tableBytes (Function.update (directBlocks s.inode) 12 lba)) 0 512) (lba.toNat * 512)
      (firstSector de) 0 512
    let nd := (s.inode.setSector 12 t).grow
    slot disk₁ nd (12, 0) = some de.stored ∧
      (∀ q ∈ dirGrid, 12 ≤ q.1 → q ≠ (12, 0) → slot disk₁ nd q = none) ∧
      ∀ q ∈ dirGrid, q.1 < 12 → slot disk₁ nd q = slot s.disk s.inode q := by
  intro disk₁ nd
  have hne : t ≠ lba := hc.ne ht.inUse
  have htz : t ≠ 0 := ht.block.ne_zero hl
  have hl' := ht.layout hl
  have hlbaz : lba ≠ 0 := hc.block.ne_zero hl'
  have hblocks : ∀ i < 140, blockAt disk₁ nd i =
      if i = 12 then lba else if decide (i < 12) then blockAt s.disk s.inode i else 0 :=
    fun i hi => table_blocks htz hne _ _ hi
  have hfirst := fun j hj => @entryAt_firstSector de (blit disk' (t.toNat * 512)
    (tableBytes (Function.update (directBlocks s.inode) 12 lba)) 0 512) lba j hj
  refine ⟨?_, ?_, ?_⟩
  · apply slot_some.mpr
    dsimp only
    rw [hblocks 12 (by decide), if_pos rfl]
    exact ⟨hlbaz, (hfirst 0 (by decide)).1 rfl, hlive⟩
  · rintro ⟨i, j⟩ hq hi hqne
    obtain ⟨hi', hj⟩ : i < 140 ∧ j < 21 := mem_dirGrid.mp hq
    dsimp only at hi
    by_cases hi12 : i = 12
    · subst hi12
      have hj0 : j ≠ 0 := fun he => hqne (by rw [he])
      have hb : blockAt disk₁ nd 12 = lba := (hblocks 12 hi').trans (if_pos rfl)
      rw [slot_block (by dsimp only; rwa [hb]), sectorSlot_none]
      dsimp only
      rw [hb]
      refine (entryAt_zero ?_).1
      intro y hy
      dsimp only [disk₁]
      rw [shift_apply, blit_at (by omega), Nat.zero_add, firstSector]
      exact blit_out (.inr (by unfold SIZEOF_DIR_ENTRY; omega))
    · apply if_pos
      rw [hblocks i hi', if_neg hi12, if_neg (by simpa using hi)]
  · rintro ⟨i, j⟩ hq hi
    obtain ⟨hi', hj⟩ : i < 140 ∧ j < 21 := mem_dirGrid.mp hq
    dsimp only at hi
    have hb : blockAt disk₁ nd i = blockAt s.disk s.inode i := by
      rw [hblocks i hi', if_neg (by omega), if_pos (by simpa using hi)]
    apply slot_sector hj hb
    intro hused
    have ha := hown.inUse i hi' hused
    have hclaims := ((hc.outside hl').same hl' (ht.keeps ha).toDataBlock).trans
      ((ht.outside hl).same hl ha.toDataBlock)
    exact (blit_same (sectors_apart (hc.ne (ht.keeps ha)))).trans
      ((blit_same (sectors_apart (ht.ne ha))).trans hclaims)

/-- An insertion stores the entry in a direct block, or alone behind a new table. -/
theorem Inserted.storedAt (hi : Inserted s de s') (hl : DiskLayout s.part)
    (hown : OwnBlocks s.disk s.part s.inode) (hlive : de.stored.fType ≠ FT_UNKNOWN) :
    ∃ p, StoredAt s s' p de.stored ∧ (¬ DirectFull s.disk s.inode 12 ∧ p.1 < 12 ∨
      DirectFull s.disk s.inode 12 ∧ 12 ≤ p.1 ∧
        ∀ j < 21, j ≠ p.2 → ZhuOS.slot s'.disk s'.inode (p.1, j) = none) := by
  by_cases hfull : DirectFull s.disk s.inode 12
  · cases hi with
    | slot k j hk hj hne hbefore hfree =>
      exact absurd hfree ((hfull k hk).2 _ (mem_sectorEntries.mpr ⟨j, hj, rfl⟩))
    | block k lba disk part hk hz hbefore hc => exact absurd hz (hfull k hk).1
    | table t lba disk disk' part part' _ ht hc =>
      obtain ⟨hself, hbehind, hdirect⟩ := table_slots hl hown ht hc hlive
      refine ⟨(12, 0), ⟨by decide, hself, ?_⟩, .inr ⟨hfull, by decide, ?_⟩⟩
      · intro q hq hqp a ha
        by_cases hq12 : q.1 < 12
        · exact (hdirect q hq hq12).symm.trans ha
        · have hnone := (hbehind q hq (by omega) hqp).symm.trans ha
          cases hnone
      · intro j hj hj0
        exact hbehind (12, j) (pair_mem_dirGrid (by decide) hj) (Nat.le_refl 12)
          fun he => hj0 (congrArg Prod.snd he)
  · obtain ⟨p, hp⟩ := hi.filled hl hown hfull hlive
    exact ⟨p, .of_put hp.put, .inl ⟨hfull, hp.direct⟩⟩

end

/-! ## Storing, searching and deleting -/

/-- A directory: its blocks are its own, a free entry has no name, the numbers of the entries
but `.` and `..` occur once, and there is room in its size. -/
structure StoredDir (s : NodeState) : Prop extends OwnBlocks s.disk s.part s.inode where
  layout : DiskLayout s.part
  unnamed : ∀ e ∈ entries s.disk s.inode, e.fType = FT_UNKNOWN → e.name = []
  numbers : KeyOnce dirGrid (slot s.disk s.inode) (·.iNo) DirEntry.Proper
  size : s.inode.iSize.toNat + 24 < 2 ^ 32

/-- The entry of this number is found under the name and can be deleted, and under no other
name does it compare equal. -/
structure EntryRight (s : NodeState) (name : List UInt8) (iNo fType : UInt32) : Prop where
  found : ∃ e, SearchGives s name (some e) ∧ e.iNo = iNo ∧ e.fType = fType
  removed : ∃ s', deleteDirEntry s iNo.toNat (fun _ => 0) = .ok (true, s') ∧
    SearchGives s' name none
  alone : ∀ p ∈ dirGrid, ∀ e, slot s.disk s.inode p = some e → e.Proper → e.iNo = iNo →
    ∀ m, (∀ c ∈ m, c ≠ 0) → strcmp (shift s.disk ((blockAt s.disk s.inode p.1).toNat * 512))
      (SIZEOF_DIR_ENTRY * p.2) m = 0 → m = name

/-- The name ends where it should: within the field, or in the low byte of the number. -/
def NameEnds (name : List UInt8) (iNo : UInt32) : Prop :=
  name.length < MAX_FILE_NAME_LEN ∨ iNo.toNat % 2 ^ 8 = 0

instance (name : List UInt8) (iNo : UInt32) : Decidable (NameEnds name iNo) :=
  inferInstanceAs (Decidable (_ ∨ _))

/-- What is known of an entry that has been stored under a new name and a new number. -/
structure Storing (s s' : NodeState) (p : Nat × Nat) (e : DirEntry) (name : List UInt8)
    (iNo fType : UInt32) : Prop where
  before : StoredDir s
  after : OwnBlocks s'.disk s'.part s'.inode
  layout : DiskLayout s'.part
  at_ : StoredAt s s' p e
  valid : EntryName name
  nameEq : e.name = name
  iNoEq : e.iNo = iNo
  fTypeEq : e.fType = fType
  live : e.fType ≠ FT_UNKNOWN
  newName : ∀ a ∈ entries s.disk s.inode, ¬ a.Matches name
  newNumber : ∀ q ∈ dirGrid, ∀ a, slot s.disk s.inode q = some a → a.Proper → a.iNo ≠ iNo
  listed : e ∈ entries s'.disk s'.inode
  only : ∀ a ∈ entries s'.disk s'.inode, a.Matches name → a = e
  size : (24 : UInt32) ≤ s'.inode.iSize
  place : ¬ DirectFull s.disk s.inode 12 ∧ p.1 < 12 ∨ DirectFull s.disk s.inode 12 ∧ 12 ≤ p.1 ∧
    ∀ j < 21, j ≠ p.2 → slot s'.disk s'.inode (p.1, j) = none

section
variable {s s' : NodeState} {p : Nat × Nat} {e de : DirEntry} {name : List UInt8}
  {iNo fType : UInt32}

theorem Inserted.size (hi : Inserted s de s') : s'.inode.iSize = s.inode.iSize + 24 := by
  cases hi <;> rfl

theorem matches_ends (hn : EntryName name) (hname : e.name = name) (hno : e.iNo = iNo) :
    e.Matches name ↔ NameEnds name iNo := by
  have hle : name.length ≤ 16 := hn.le
  unfold DirEntry.Matches NameEnds MAX_FILE_NAME_LEN
  rw [and_iff_right hname, hno]
  constructor
  · intro h
    by_cases h16 : name.length = 16
    · exact .inr (h h16)
    · exact .inl (by omega)
  · rintro (hlt | hlow) h16
    · omega
    · exact hlow

/-- Every insertion under a new name and a new number is one. -/
theorem storing (hd : StoredDir s) (hn : EntryName name) (hnew : SearchGives s name none)
    (hnumber : ∀ q ∈ dirGrid, ∀ a, slot s.disk s.inode q = some a → a.Proper → a.iNo ≠ iNo)
    (hlive : fType ≠ FT_UNKNOWN) (hde : createDirEntry name iNo fType = .ok de) {ioBuf : Bytes}
    (hsync : syncDirEntry s de ioBuf = .ok (true, s')) :
    ∃ p, Storing s s' p de.stored name iNo fType := by
  have hown := hd.toOwnBlocks
  have hi := syncDirEntry_inserted hd.layout hown.readable.direct hsync
  obtain ⟨hname, hno, htype⟩ := createDirEntry_stored hn.le hn.noZero hde
  have hlive' : de.stored.fType ≠ FT_UNKNOWN := htype ▸ hlive
  obtain ⟨p, hat, hplace⟩ := hi.storedAt hd.layout hown hlive'
  have hnone := (searchGives_none hn hd.layout hown.readable).mp hnew
  have hadds : de.stored ∈ entries s'.disk s'.inode ∧
      ∀ a ∈ entries s'.disk s'.inode, a.name ≠ [] → a ∈ entries s.disk s.inode ∨ a = de.stored := by
    obtain ⟨-, h⟩ | ⟨-, h⟩ := hi.adds hd.layout hown hd.unnamed
    · exact ⟨h.added, h.only⟩
    · refine ⟨h.added, fun a ha hne => (h.only a ha hne).imp_left fun hold => ?_⟩
      rw [entries_split]
      exact List.mem_append_left _ hold
  refine ⟨p, hd, hi.own hd.layout hown, hi.layout hd.layout, hat, hn, hname, hno, htype, hlive',
    hnone, hnumber, hadds.1, ?_, ?_, hplace⟩
  · intro a ha hmatch
    obtain hold | heq := hadds.2 a ha (hmatch.1 ▸ hn.ne)
    · exact absurd hmatch (hnone a hold)
    · exact heq
  · have hsize := hd.size
    have h24 : (24 : UInt32).toNat = 24 := rfl
    rw [hi.size, UInt32.le_iff_toNat_le, UInt32.toNat_add, h24]
    omega

namespace Storing

theorem numbers (h : Storing s s' p e name iNo fType) :
    KeyOnce dirGrid (slot s'.disk s'.inode) (·.iNo) DirEntry.Proper :=
  h.at_.numbers h.before.numbers (h.iNoEq.symm ▸ h.newNumber)

/-- The search finds the entry just when its name ends. -/
theorem found_iff (h : Storing s s' p e name iNo fType) :
    (∃ a, SearchGives s' name (some a) ∧ a.iNo = iNo ∧ a.fType = fType) ↔ NameEnds name iNo := by
  rw [← matches_ends h.valid h.nameEq h.iNoEq]
  have hr := h.after.readable
  constructor
  · rintro ⟨a, hgives, -⟩
    have hfound := (searchGives_iff h.valid h.layout hr).mp hgives
    have hmatch : a.Matches name := by simpa using List.find?_some hfound
    exact h.only a (List.mem_of_find?_eq_some hfound) hmatch ▸ hmatch
  · intro hmatch
    have hsome : ((entries s'.disk s'.inode).find? fun a => a.Matches name).isSome := by
      rw [List.find?_isSome]
      exact ⟨e, h.listed, by simpa using hmatch⟩
    obtain ⟨a, ha⟩ := Option.isSome_iff_exists.mp hsome
    have hae : a = e :=
      h.only a (List.mem_of_find?_eq_some ha) (by simpa using List.find?_some ha)
    rw [hae] at ha
    exact ⟨e, (searchGives_iff h.valid h.layout hr).mpr ha, h.iNoEq, h.fTypeEq⟩

/-- Without the slot of the entry nothing compares equal. -/
theorem gone (h : Storing s s' p e name iNo fType) {disk : Bytes} {part : Partition} {nd : Inode}
    (hleaves : Leaves s'.disk s'.inode disk nd p) (hl : DiskLayout part)
    (hr : Readable disk nd) : SearchGives ⟨disk, part, nd⟩ name none := by
  refine (searchGives_none h.valid hl hr).mpr fun a ha hmatch => ?_
  obtain ⟨q, hq, hqp, hne, hentry⟩ | hnone := hleaves.listed ha
  · obtain ⟨hk, hj⟩ := mem_dirGrid.mp hq
    have hae : a = e := h.only a (mem_listed.mpr ⟨q.1, hk, hne, q.2, hj, hentry⟩) hmatch
    -- the same entry in another slot would have been there before
    have hslot : slot s'.disk s'.inode q = some e :=
      slot_some.mpr ⟨hne, hae ▸ hentry, h.live⟩
    have hold := h.at_.other q hq hqp e hslot
    exact h.newName e (mem_entries_of_slot hq hold) (hae ▸ hmatch)
  · exact h.valid.ne (hmatch.1.symm.trans hnone)

/-- The deletion goes right for an entry in a direct block that is neither `.` nor `..`. -/
theorem removed_iff (h : Storing s s' p e name iNo fType) :
    (∃ s'', deleteDirEntry s' iNo.toNat (fun _ => 0) = .ok (true, s'') ∧
      SearchGives s'' name none) ↔ e.Proper ∧ ¬ DirectFull s.disk s.inode 12 := by
  have hown := h.after
  obtain ⟨hne, -, -⟩ := slot_some.mp h.at_.self
  by_cases hproper : e.Proper
  · rw [and_iff_right hproper]
    have hrun := deleteDirEntry_found h.layout hown h.numbers h.at_.mem h.at_.self hproper h.size
      fun _ => 0
    rw [h.iNoEq] at hrun
    generalize deleteDirEntry s' iNo.toNat (fun _ => 0) = result at hrun ⊢
    obtain ⟨hroom, hk⟩ | ⟨hfull, hk, halone⟩ := h.place
    · refine iff_of_true ?_ hroom
      cases hrun with
      | clear hmore =>
        exact ⟨_, rfl, h.gone (clearSlot_leaves h.layout hown h.at_.mem hne) h.layout
          (clearSlot_own h.layout hown h.at_.mem hne).readable⟩
      | drop hlone hk =>
        have haddr := (hown.inUse p.1 (by omega) hne).addr
        have hmax := (hown.inUse p.1 (by omega) hne).onDisk
        exact ⟨_, rfl, h.gone (dropBlock_leaves h.layout hown hk hne)
          (h.layout.setBlock fun _ => by omega) (dropBlock_own h.layout hown hk hne).readable⟩
      | stuck hlone hk' => omega
    · refine iff_of_false ?_ (not_not.mpr hfull)
      have hlone : Lone s'.disk s'.inode p := by
        have hself : ∀ j < 21, ∀ a, slot s'.disk s'.inode (p.1, j) = some a → j = p.2 := by
          intro j hj a ha
          by_contra hjp
          rw [halone j hj hjp] at ha
          cases ha
        refine ⟨fun j hj a ha _ => hself j hj a ha, fun j hj a ha hdot => ?_⟩
        obtain rfl := hself j hj a ha
        have hae := Option.some.inj (ha.symm.trans h.at_.self)
        exact hproper.1 (hae ▸ hdot)
      cases hrun with
      | clear hmore => exact absurd hlone hmore
      | drop hlone hk' => omega
      | stuck hlone hk =>
        rintro ⟨s'', hstuck, -⟩
        cases hstuck
  · refine iff_of_false ?_ fun hand => hproper hand.1
    have habsent : ∀ q ∈ dirGrid, ∀ a, slot s'.disk s'.inode q = some a → a.Proper →
        a.iNo.toNat ≠ iNo.toNat := by
      intro q hq a ha hpa hno
      by_cases hqp : q = p
      · subst hqp
        have hae := Option.some.inj (ha.symm.trans h.at_.self)
        exact hproper (hae ▸ hpa)
      · exact h.newNumber q hq a (h.at_.other q hq hqp a ha) hpa (UInt32.toNat_inj.mp hno)
    rw [deleteDirEntry_absent h.layout hown.readable h.numbers habsent]
    rintro ⟨s'', hfalse, -⟩
    cases hfalse

/-- A name that ends is the only one. -/
theorem alone (h : Storing s s' p e name iNo fType) (hproper : e.Proper)
    (hends : NameEnds name iNo) {q : Nat × Nat} (hq : q ∈ dirGrid) {a : DirEntry}
    (ha : slot s'.disk s'.inode q = some a) (hpa : a.Proper) (hno : a.iNo = iNo)
    {m : List UInt8} (hm : ∀ c ∈ m, c ≠ 0)
    (hcmp : strcmp (shift s'.disk ((blockAt s'.disk s'.inode q.1).toNat * 512))
      (SIZEOF_DIR_ENTRY * q.2) m = 0) : m = name := by
  obtain rfl := h.numbers q hq p h.at_.mem a e ha h.at_.self hpa hproper
    (hno.trans h.iNoEq.symm)
  obtain ⟨-, hentry, -⟩ := slot_some.mp h.at_.self
  have hmatch := (matches_ends h.valid h.nameEq h.iNoEq).mpr hends
  rw [← hentry, ← strcmp_entry h.valid, strcmp_zero h.valid.noZero] at hmatch
  exact ((strcmp_zero hm).mp hcmp).unique hmatch

end Storing

/-- An entry stored under a new name is found, deleted and told from all others just when its
name ends within the field or in a zero byte of the number, is neither `.` nor `..`, and a
direct block took it. -/
theorem entryRight_iff (hd : StoredDir s) (hn : EntryName name) (hnew : SearchGives s name none)
    (hnumber : ∀ q ∈ dirGrid, ∀ a, slot s.disk s.inode q = some a → a.Proper → a.iNo ≠ iNo)
    (hlive : fType ≠ FT_UNKNOWN) (hde : createDirEntry name iNo fType = .ok de) {ioBuf : Bytes}
    (hsync : syncDirEntry s de ioBuf = .ok (true, s')) :
    EntryRight s' name iNo fType ↔
      NameEnds name iNo ∧ name ≠ dot ∧ name ≠ dotDot ∧ ¬ DirectFull s.disk s.inode 12 := by
  obtain ⟨p, h⟩ := storing hd hn hnew hnumber hlive hde hsync
  have hproper : de.stored.Proper ↔ name ≠ dot ∧ name ≠ dotDot := by
    rw [DirEntry.Proper, h.nameEq]
  constructor
  · intro hright
    obtain ⟨hp, hroom⟩ := h.removed_iff.mp hright.removed
    obtain ⟨hdot, hdotDot⟩ := hproper.mp hp
    exact ⟨h.found_iff.mp hright.found, hdot, hdotDot, hroom⟩
  · rintro ⟨hends, hdot, hdotDot, hroom⟩
    have hp := hproper.mpr ⟨hdot, hdotDot⟩
    exact ⟨h.found_iff.mpr hends, h.removed_iff.mpr ⟨hp, hroom⟩,
      fun q hq a ha hpa hno m hm hcmp => h.alone hp hends hq ha hpa hno hm hcmp⟩

end

theorem holesDir_storedDir : StoredDir holesDir where
  toOwnBlocks := holesDir_own
  layout := holesDir_layout
  unnamed := holesDir_well.unnamed
  numbers := holesDir_well.numbers
  size := by decide

theorem holesDir_numbers : ∀ q ∈ dirGrid, ∀ a, slot holesDir.disk holesDir.inode q = some a →
    a.Proper → a.iNo ≠ 5 := by
  have hcheck : ∀ q ∈ holesSlots, ∀ a ∈ slot holesDir.disk holesDir.inode q, a.iNo ≠ 5 := by
    decide +kernel
  intro q hq a ha _
  exact hcheck q (holesDir_slots q hq (Option.isSome_iff_exists.mpr ⟨a, ha⟩)) a ha

theorem holesDir_stores (de : DirEntry) :
    ∃ s', syncDirEntry holesDir de (fun _ => 0) = .ok (true, s') :=
  syncDirEntry_room holesDir_layout (Bitmap.free_pos.mpr ⟨4, by decide, by decide⟩)
    holesDir_own.readable.direct (by decide) (fun hfull => (hfull 1 (by decide)).1 rfl) _

theorem entryRight_iff_holes : ∃ de s', createDirEntry [110] 5 FT_REGULAR = .ok de ∧
    syncDirEntry holesDir de (fun _ => 0) = .ok (true, s') ∧
    (EntryRight s' [110] 5 FT_REGULAR ↔ NameEnds [110] 5 ∧ [110] ≠ dot ∧ [110] ≠ dotDot ∧
      ¬ DirectFull holesDir.disk holesDir.inode 12) := by
  have hn : EntryName [110] := ⟨by decide, by decide, by decide⟩
  have hnew : ∀ a ∈ entries holesDir.disk holesDir.inode, ¬ a.Matches [110] := by decide +kernel
  obtain ⟨s', hs'⟩ := holesDir_stores ⟨fun i => [110].getD i 0, 5, FT_REGULAR⟩
  exact ⟨_, s', rfl, hs', entryRight_iff holesDir_storedDir hn
    ((searchGives_none hn holesDir_layout holesDir_own.readable).mpr hnew) holesDir_numbers
    (by decide) rfl hs'⟩

/-- Sixteen bytes, and no zero behind them: the file is not found by its name. -/
theorem sixteen_not_found : ∃ de s',
    createDirEntry (List.replicate 16 97) 5 FT_REGULAR = .ok de ∧
    syncDirEntry holesDir de (fun _ => 0) = .ok (true, s') ∧
    SearchGives holesDir (List.replicate 16 97) none ∧
    ¬ EntryRight s' (List.replicate 16 97) 5 FT_REGULAR := by
  have hn : EntryName (List.replicate 16 97) := ⟨by decide, by decide, by decide⟩
  have hnone : ∀ a ∈ entries holesDir.disk holesDir.inode,
      ¬ a.Matches (List.replicate 16 97) := by
    decide +kernel
  have hnew := (searchGives_none hn holesDir_layout holesDir_own.readable).mpr hnone
  obtain ⟨s', hs'⟩ := holesDir_stores
    ⟨fun i => (List.replicate 16 97).getD i 0, 5, FT_REGULAR⟩
  obtain ⟨p, h⟩ := storing holesDir_storedDir hn hnew holesDir_numbers (by decide) rfl hs'
  refine ⟨_, s', rfl, hs', hnew, fun hright => ?_⟩
  have hends := h.found_iff.mp hright.found
  revert hends
  decide

end ZhuOS
