import Mathlib.Data.List.GetD
import Mathlib.Data.List.TakeWhile
import ZhuOS.DirInsert

/-!
# Names across an insertion

Which names a lookup finds before and after `sync_dir_entry`.
-/

namespace ZhuOS

open ByteMem

set_option maxRecDepth 2000

/-- A file name: 1 to 15 bytes, none of them zero. -/
structure FileName (name : List UInt8) : Prop where
  ne : name ≠ []
  short : name.length < MAX_FILE_NAME_LEN
  noZero : ∀ c ∈ name, c ≠ 0

/-- A directory: its blocks are its own, its names are short and occur once, and a
free entry has none. -/
structure DirOk (disk : Bytes) (part : Partition) (nd : Inode) : Prop
    extends OwnBlocks disk part nd where
  unnamed : ∀ e ∈ entries disk nd, e.fType = FT_UNKNOWN → e.name = []
  short : ∀ e ∈ entries disk nd, e.name.length < MAX_FILE_NAME_LEN
  once : (((entries disk nd).map (·.name)).filter (· ≠ [])).Nodup

/-- `search_dir_entry` finds the name, with this inode number and type. -/
def Finds (s : NodeState) (name : List UInt8) (iNo fType : UInt32) : Prop :=
  ∀ fs : Fs, fs.disk = s.disk → fs.part = s.part → (fs.heap = fun _ => true) →
    ∃ e, searchDirEntry fs s.inode name = .ok (some e, fs) ∧ e.iNo = iNo ∧ e.fType = fType

/-- The new name is found, and every name that was found still is. -/
structure InsertedRight (s s' : NodeState) (name : List UInt8) (iNo fType : UInt32) : Prop where
  new : Finds s' name iNo fType
  old : ∀ m, FileName m → ∀ i u, Finds s m i u → Finds s' m i u

variable {s s' : NodeState} {de : DirEntry} {name : List UInt8} {iNo fType : UInt32}

theorem finds_iff (hl : DiskLayout s.part) (hr : Readable s.disk s.inode) :
    Finds s name iNo fType ↔
      ∃ e, lookup s.disk s.inode name = some e ∧ e.iNo = iNo ∧ e.fType = fType := by
  have hsearch : ∀ fs : Fs, fs.disk = s.disk → fs.part = s.part → (fs.heap = fun _ => true) →
      searchDirEntry fs s.inode name = .ok (lookup s.disk s.inode name, fs) := by
    intro fs hdisk hpart hheap
    rw [searchDirEntry_eq hheap (hpart ▸ hl.entrySize) (hdisk.symm ▸ hr), hdisk]
  constructor
  · intro h
    let fs : Fs :=
      { disk := s.disk, part := s.part, rootDir := 0, fileTable := fun _ => ⟨0, 0, none⟩
        fdTable := fun _ => none, heap := fun _ => true, junk := fun _ => 0 }
    obtain ⟨e, he, hno, htype⟩ := h fs rfl rfl rfl
    rw [hsearch fs rfl rfl rfl] at he
    simp only [Except.ok.injEq, Prod.mk.injEq, and_true] at he
    exact ⟨e, he, hno, htype⟩
  · rintro ⟨e, he, hno, htype⟩ fs hdisk hpart hheap
    exact ⟨e, he ▸ hsearch fs hdisk hpart hheap, hno, htype⟩

/-- The name of a new entry is the one it was made with. -/
theorem createDirEntry_stored (hle : name.length ≤ MAX_FILE_NAME_LEN) (hzero : ∀ c ∈ name, c ≠ 0)
    (h : createDirEntry name iNo fType = .ok de) :
    de.stored.name = name ∧ de.stored.iNo = iNo ∧ de.stored.fType = fType := by
  simp only [createDirEntry, bind_ok] at h
  obtain ⟨_, -, h⟩ := h
  cases h
  obtain ⟨hname, hno, htype⟩ := DirEntry.ofBytes_toBytes
    { filename := fun i => name.getD i 0, iNo := iNo, fType := fType }
  refine ⟨hname.trans ?_, hno, htype⟩
  unfold MAX_FILE_NAME_LEN at hle
  have hpad : (List.range MAX_FILE_NAME_LEN).map (fun i => name.getD i 0) =
      name ++ List.replicate (16 - name.length) 0 := by
    apply List.ext_getElem
    · simp [MAX_FILE_NAME_LEN]
      omega
    · intro i hi hi'
      simp only [List.getElem_map, List.getElem_range]
      by_cases hlt : i < name.length
      · rw [List.getElem_append_left hlt, List.getD_eq_getElem _ _ hlt]
      · rw [List.getElem_append_right (by omega), List.getElem_replicate,
          List.getD_eq_default _ _ (by omega)]
  rw [DirEntry.name, hpad, List.takeWhile_append_of_pos (by simpa using hzero),
    List.takeWhile_replicate]
  simp

theorem createDirEntry_ok (hn : FileName name) (h : createDirEntry name iNo fType = .ok de) :
    de.stored.name = name ∧ de.stored.iNo = iNo ∧ de.stored.fType = fType :=
  createDirEntry_stored (Nat.le_of_lt hn.short) hn.noZero h

/-- Two entries of one name are one. -/
theorem once_eq {l : List DirEntry} (h : ((l.map (·.name)).filter (· ≠ [])).Nodup)
    {a b : DirEntry} (ha : a ∈ l) (hb : b ∈ l) (hne : a.name ≠ []) (he : a.name = b.name) :
    a = b := by
  rw [List.filter_map] at h
  refine List.inj_on_of_nodup_map h ?_ ?_ he
  · simpa [ha] using hne
  · simpa [hb] using he ▸ hne

/-- In a listing with one more entry, the lookups of the old one go on. -/
theorem Adds.lookup {old : List DirEntry} {e : DirEntry} {disk : Bytes} {nd : Inode}
    (h : Adds old (entries disk nd) e) (hnew : ∀ x ∈ old, x.name ≠ e.name) (hne : e.name ≠ []) :
    ZhuOS.lookup disk nd e.name = some e ∧
      ∀ x ∈ old, x.name ≠ [] → (∀ y ∈ old, x.name = y.name → x = y) →
        ZhuOS.lookup disk nd x.name = some x := by
  constructor
  · apply lookup_of_mem h.added rfl
    intro x hx hname
    obtain hold | rfl := h.only x hx (hname ▸ hne)
    · exact absurd hname (hnew x hold)
    · rfl
  · intro x hx hxne hone
    refine lookup_of_mem (h.kept x hx hxne) rfl fun y hy hname => ?_
    obtain hold | rfl := h.only y hy (hname ▸ hxne)
    · exact (hone y hold hname.symm).symm
    · exact absurd hname.symm (hnew x hx)

/-- What `sync_dir_entry` loses: entries behind a table, when it makes a new one. -/
def LosesTable (s : NodeState) : Prop :=
  DirectFull s.disk s.inode 12 ∧ ∃ e ∈ tableEntries s.disk s.inode, e.name ≠ []

theorem Readable.direct {disk : Bytes} {nd : Inode} (hr : Readable disk nd) :
    ∀ k < 12, (nd.iSectors k).toNat ≤ max_lba := by
  intro k hk
  simpa only [blockAt_direct hk] using hr.blocks k (by omega)

theorem Inserted.right_iff (hins : Inserted s de s') (hl : DiskLayout s.part)
    (hd : DirOk s.disk s.part s.inode) (hn : FileName name) (hnew : ∀ i u, ¬ Finds s name i u)
    (hde : createDirEntry name iNo fType = .ok de) :
    InsertedRight s s' name iNo fType ↔ ¬ LosesTable s := by
  have hown := hd.toOwnBlocks
  have hr := hown.readable
  have hl' := hins.layout hl
  have hr' := (hins.own hl hown).readable
  obtain ⟨hname, hno, htype⟩ := createDirEntry_ok hn hde
  have hnone : ∀ x ∈ entries s.disk s.inode, x.name ≠ de.stored.name := by
    rw [hname]
    refine lookup_none.mp (Option.eq_none_iff_forall_ne_some.mpr fun x hx => ?_)
    exact hnew x.iNo x.fType ((finds_iff hl hr).mpr ⟨x, hx, rfl, rfl⟩)
  have hne : de.stored.name ≠ [] := hname ▸ hn.ne
  have hone : ∀ x ∈ entries s.disk s.inode, x.name ≠ [] →
      ∀ y ∈ entries s.disk s.inode, x.name = y.name → x = y :=
    fun x hx hxne y hy he => once_eq hd.once hx hy hxne he
  have hsub : ∀ x ∈ directEntries s.disk s.inode, x ∈ entries s.disk s.inode := fun x hx => by
    rw [entries_split]
    exact List.mem_append_left _ hx
  -- the names that a lookup finds, when all named entries are among the listed ones
  have hright : ∀ old : List DirEntry, Adds old (entries s'.disk s'.inode) de.stored →
      (∀ x ∈ old, x ∈ entries s.disk s.inode) →
      (∀ x ∈ entries s.disk s.inode, x.name ≠ [] → x ∈ old) →
      InsertedRight s s' name iNo fType := by
    intro old hadds hin hall
    obtain ⟨hlnew, hlold⟩ := hadds.lookup (fun x hx => hnone x (hin x hx)) hne
    refine ⟨(finds_iff hl' hr').mpr ⟨_, hname ▸ hlnew, hno, htype⟩, fun m hm i u hfind => ?_⟩
    obtain ⟨x, hx, rfl, rfl⟩ := (finds_iff hl hr).mp hfind
    obtain ⟨hmem, rfl⟩ := lookup_mem hx
    refine (finds_iff hl' hr').mpr
      ⟨x, hlold x (hall x hmem hm.ne) hm.ne fun y hy he => ?_, rfl, rfl⟩
    exact hone x hmem hm.ne y (hin y hy) he
  obtain ⟨hroom, hadds⟩ | ⟨hfull, hadds⟩ := hins.adds hl hown hd.unnamed
  · exact ⟨fun _ hlose => hroom hlose.1,
      fun _ => hright _ hadds (fun _ hx => hx) fun _ hx _ => hx⟩
  · constructor
    · rintro hright' ⟨-, e, he, hename⟩
      have hmem : e ∈ entries s.disk s.inode := by
        rw [entries_split]
        exact List.mem_append_right _ he
      have hfile : FileName e.name :=
        ⟨hename, hd.short e hmem, fun c hc => by simpa using List.mem_takeWhile_imp hc⟩
      have hfound : Finds s e.name e.iNo e.fType := (finds_iff hl hr).mpr
        ⟨e, lookup_of_mem hmem rfl fun y hy hy' => (hone e hmem hename y hy hy'.symm).symm,
          rfl, rfl⟩
      obtain ⟨x, hx, -, -⟩ := (finds_iff hl' hr').mp (hright'.old e.name hfile _ _ hfound)
      obtain ⟨hxmem, hxname⟩ := lookup_mem hx
      obtain hold | rfl := hadds.only x hxmem (hxname ▸ hename)
      · -- a name of a direct block is not one behind the table
        have hnodup := hd.once
        rw [entries_split, List.map_append, List.filter_append] at hnodup
        refine (List.nodup_append.mp hnodup).2.2 e.name ?_ e.name ?_ rfl
        · simpa [hename] using ⟨x, hold, hxname⟩
        · simpa [hename] using ⟨e, he, rfl⟩
      · exact hnone e hmem hxname.symm
    · intro hkeep
      apply hright _ hadds hsub
      intro x hx hxne
      rw [entries_split] at hx
      obtain hx | hx := List.mem_append.mp hx
      · exact hx
      · exact absurd ⟨hfull, x, hx, hxne⟩ hkeep

/-- An insertion that returns `true` keeps every name exactly when the direct blocks
have room or no name lies behind the table. -/
theorem syncDirEntry_right_iff (hl : DiskLayout s.part) (hd : DirOk s.disk s.part s.inode)
    (hn : FileName name) (hnew : ∀ i u, ¬ Finds s name i u)
    (hde : createDirEntry name iNo fType = .ok de) {ioBuf : Bytes}
    (h : syncDirEntry s de ioBuf = .ok (true, s')) :
    InsertedRight s s' name iNo fType ↔ ¬ LosesTable s :=
  (syncDirEntry_inserted hl hd.readable.direct h).right_iff hl hd hn hnew hde

theorem tablePartition_layout : DiskLayout tablePartition :=
  ⟨rfl, rfl, by decide, by decide, by decide, by decide, by decide,
    fun i hi _ => by
      have hi : i < 4096 := hi
      have hstart : tablePartition.sb.dataStartLba.toNat = 612 := rfl
      unfold max_lba
      omega, rfl⟩

/-- A directory without blocks. -/
def emptyDir : NodeState := ⟨fun _ => 0, tablePartition, inodeInit 0⟩

theorem emptyDir_blocks (k : Nat) : blockAt emptyDir.disk emptyDir.inode k = 0 := by
  by_cases hk : k < 12
  · exact blockAt_direct hk
  · exact blockAt_noTable rfl (by omega)

theorem emptyDir_entries : entries emptyDir.disk emptyDir.inode = [] := by
  rw [entries, List.flatMap_eq_nil_iff]
  exact fun k _ => if_pos (emptyDir_blocks k)

theorem emptyDir_ok : DirOk emptyDir.disk emptyDir.part emptyDir.inode where
  inUse k _ h := absurd (emptyDir_blocks k) h
  table h := absurd rfl h
  apart k _ _ _ h := absurd (emptyDir_blocks k) h
  tableApart k _ h := absurd (emptyDir_blocks k) h
  unnamed e he := by simp [emptyDir_entries] at he
  short e he := by simp [emptyDir_entries] at he
  once := by simp [emptyDir_entries]

/-- The first entry of an empty directory. -/
theorem syncDirEntry_right_iff_first : ∃ de s', createDirEntry [102] 1 FT_REGULAR = .ok de ∧
    syncDirEntry emptyDir de (fun _ => 0) = .ok (true, s') ∧
    (InsertedRight emptyDir s' [102] 1 FT_REGULAR ↔ ¬ LosesTable emptyDir) := by
  have hfree : 0 < tablePartition.blockBitmap.free.card :=
    Bitmap.free_pos.mpr ⟨0, by decide, by decide⟩
  have hnone : ∀ i u, ¬ Finds emptyDir [102] i u := by
    intro i u hfind
    obtain ⟨e, he, -⟩ := (finds_iff tablePartition_layout emptyDir_ok.readable).mp hfind
    have := (lookup_mem he).1
    simp [emptyDir_entries] at this
  obtain ⟨s', hs'⟩ := syncDirEntry_room (s := emptyDir) tablePartition_layout hfree
    emptyDir_ok.readable.direct rfl (fun hfull => (hfull 0 (by decide)).1 rfl) (fun _ => 0)
  exact ⟨_, s', rfl, hs', syncDirEntry_right_iff tablePartition_layout emptyDir_ok
    ⟨by decide, by decide, by decide⟩ hnone rfl hs'⟩

/-! ## A directory that loses a name -/

/-- The byte `x` of the entry `j` of a sector: a name of two bytes, a regular file. -/
def fullEntryByte (lba j x : Nat) : UInt8 :=
  if x = 0 then UInt8.ofNat (lba - 612) else if x = 1 then UInt8.ofNat (j + 1)
  else if x = 20 then 1 else 0

/-- Twelve full blocks from 613 on, one more entry in 625, and its table in 626. -/
def fullDisk : Bytes := fun a =>
  let lba := a / 512
  let j := a % 512 / 24
  if (613 ≤ lba ∧ lba ≤ 624 ∧ j < 21) ∨ (lba = 625 ∧ j = 0) then fullEntryByte lba j (a % 512 % 24)
  else if a = 626 * 512 then 0x71 else if a = 626 * 512 + 1 then 0x02 else 0

def fullDir : NodeState where
  disk := fullDisk
  part := { tablePartition with blockBitmap := ⟨512, fun i => if i < 3 then 0xff else 0⟩ }
  inode := { inodeInit 0 with
    iSize := 24 * 253
    iSectors := fun k => if k < 12 then UInt32.ofNat (613 + k) else if k = 12 then 626 else 0 }

theorem fullDir_layout : DiskLayout fullDir.part :=
  ⟨rfl, rfl, by decide, by decide, by decide, by decide, by decide,
    fun i hi _ => by
      have hi : i < 4096 := hi
      have hstart : fullDir.part.sb.dataStartLba.toNat = 612 := rfl
      unfold max_lba
      omega, rfl⟩

/-- Its blocks, its names and the form of its entries; it has entries to lose. -/
theorem fullDir_holds :
    (∀ k < 140, (blockAt fullDir.disk fullDir.inode k).toNat = if k < 13 then 613 + k else 0) ∧
      ((entries fullDir.disk fullDir.inode).map (·.name)).filter (· ≠ []) =
        (List.range 253).map (fun i => [UInt8.ofNat (i / 21 + 1), UInt8.ofNat (i % 21 + 1)]) ∧
      (∀ e ∈ entries fullDir.disk fullDir.inode,
        (e.fType = FT_UNKNOWN → e.name = []) ∧ e.name.length < MAX_FILE_NAME_LEN) ∧
      LosesTable fullDir := by
  have hfull : ∀ k < 12, fullDir.inode.iSectors k ≠ 0 ∧
      ∀ e ∈ sectorEntries fullDir.disk (fullDir.inode.iSectors k), e.fType ≠ FT_UNKNOWN := by
    decide +kernel
  exact ⟨by decide +kernel, by decide +kernel, by decide +kernel, hfull, by decide +kernel⟩

theorem fullDir_inUse {lba : UInt32} (h : 613 ≤ lba.toNat) (h' : lba.toNat ≤ 626) :
    InUse fullDir.part lba := by
  have hstart : fullDir.part.sb.dataStartLba.toNat = 612 := rfl
  have hidx : blockIdx fullDir.part lba = lba.toNat - 612 := rfl
  have hbit : ∀ i < 15, fullDir.part.blockBitmap.bit i = true := by decide
  refine ⟨⟨by omega, by unfold max_lba; omega, ?_⟩, hidx ▸ hbit _ (by omega)⟩
  rw [hidx]
  exact show lba.toNat - 612 < 4096 by omega

theorem fullDir_ok : DirOk fullDir.disk fullDir.part fullDir.inode where
  inUse k hk hne := by
    have hb := fullDir_holds.1 k hk
    by_cases hlt : k < 13
    · rw [if_pos hlt] at hb
      exact fullDir_inUse (by omega) (by omega)
    · rw [if_neg hlt] at hb
      exact absurd (UInt32.toNat_inj.mp hb) hne
  table _ := fullDir_inUse (by decide) (by decide)
  apart k hk i hi hne he := by
    have hb := fullDir_holds.1 k hk
    have hb' := fullDir_holds.1 i hi
    have hz : (blockAt fullDir.disk fullDir.inode k).toNat ≠ 0 := fun h =>
      hne (UInt32.toNat_inj.mp h)
    rw [he] at hb hz
    split at hb <;> split at hb' <;> omega
  tableApart k hk hne he := by
    have hb := fullDir_holds.1 k hk
    rw [he, show (fullDir.inode.iSectors 12).toNat = 626 from rfl] at hb
    split at hb <;> omega
  unnamed e he := (fullDir_holds.2.2.1 e he).1
  short e he := (fullDir_holds.2.2.1 e he).2
  once := by
    rw [fullDir_holds.2.1]
    refine List.Nodup.map_on (fun x hx y hy h => ?_) List.nodup_range
    have hx := List.mem_range.mp hx
    have hy := List.mem_range.mp hy
    simp only [List.cons.injEq, and_true, ← UInt8.toNat_inj, UInt8.toNat_ofNat'] at h
    omega

theorem fullDir_new (i u : UInt32) : ¬ Finds fullDir [120] i u := by
  intro hfind
  obtain ⟨e, he, -⟩ := (finds_iff fullDir_layout fullDir_ok.readable).mp hfind
  obtain ⟨hmem, hname⟩ := lookup_mem he
  have hlisted : [120] ∈ ((entries fullDir.disk fullDir.inode).map (·.name)).filter (· ≠ []) :=
    List.mem_filter.mpr ⟨List.mem_map.mpr ⟨e, hmem, hname⟩, rfl⟩
  rw [fullDir_holds.2.1] at hlisted
  obtain ⟨_, -, heq⟩ := List.mem_map.mp hlisted
  -- the names there have two bytes
  exact absurd (List.cons.inj heq).2 (List.cons_ne_nil _ _)

/-- The next entry of the full directory makes it lose a name. -/
theorem syncDirEntry_full_loses : ∃ de s', createDirEntry [120] 300 FT_REGULAR = .ok de ∧
    syncDirEntry fullDir de (fun _ => 0) = .ok (true, s') ∧
    ¬ InsertedRight fullDir s' [120] 300 FT_REGULAR := by
  have hde : createDirEntry [120] 300 FT_REGULAR =
      .ok ⟨fun i => [120].getD i 0, 300, FT_REGULAR⟩ := rfl
  have htrue : (match syncDirEntry fullDir ⟨fun i => [120].getD i 0, 300, FT_REGULAR⟩
      (fun _ => 0) with
    | .ok (b, _) => b
    | .error _ => false) = true := by decide +kernel
  split at htrue
  · rename_i b s' hs'
    subst htrue
    refine ⟨_, s', hde, hs', fun hright => ?_⟩
    have hins := syncDirEntry_inserted fullDir_layout fullDir_ok.readable.direct hs'
    exact (hins.right_iff fullDir_layout fullDir_ok ⟨by decide, by decide, by decide⟩ fullDir_new
      hde).mp hright fullDir_holds.2.2.2
  · cases htrue

end ZhuOS
