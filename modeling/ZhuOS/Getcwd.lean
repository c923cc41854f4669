import ZhuOS.DirCalls
import ZhuOS.Trees

/-!
# `sys_getcwd`

The names are collected from the directory up to the root: the second entry of a directory's
first block has the number of its parent, and the parent's entry with the directory's number
has its name. What turns the path around looks for the first slash of it, where the last one
is meant, and so copies it as it is.
-/

namespace ZhuOS

open ByteMem

/-! ## One level up -/

/-- `get_parent_dir_inode_nr`, with the buffer it leaves. -/
def getParentDirInodeNr (fs : Fs) (childInodeNr : UInt32) (ioBuf : Bytes) :
    Except Fault (UInt32 × Bytes × Fs) := do
  let (ref, fs) ← inodeOpen fs childInodeNr.toNat
  let childDirInode ← fs.inodeAt ref
  let blockLba := childDirInode.iSectors 0
  ASSERT (fs.part.sb.dataStartLba ≤ blockLba)
  let fs ← inodeClose fs ref
  let ioBuf ← ideRead fs.disk blockLba.toNat ioBuf 1
  let dirE := entryAt ioBuf 1
  ASSERT (dirE.iNo < 4096 ∧ dirE.fType = FT_DIRECTORY)
  return (dirE.iNo, ioBuf, fs)

/-- The first entry of the sector with this number, in use or not. -/
def scanNumber (buf : Bytes) (cInodeNr : UInt32) : (left dirEIdx : Nat) → Option DirEntry
  | 0, _ => none
  | left + 1, j =>
    if (entryAt buf j).iNo = cInodeNr then some (entryAt buf j)
    else scanNumber buf cInodeNr left (j + 1)

/-- The loop over the blocks; an address of zero is passed over. -/
def numberBlocks (disk : Bytes) (blocks : Nat → UInt32) (cInodeNr : UInt32) (perSec : Nat) :
    (left blockIdx : Nat) → Bytes → Except Fault (Option DirEntry × Bytes)
  | 0, _, ioBuf => return (none, ioBuf)
  | left + 1, k, ioBuf =>
    if blocks k = 0 then numberBlocks disk blocks cInodeNr perSec left (k + 1) ioBuf
    else do
      let ioBuf ← ideRead disk (blocks k).toNat ioBuf 1
      match scanNumber ioBuf cInodeNr perSec 0 with
      | some e => return (some e, ioBuf)
      | none => numberBlocks disk blocks cInodeNr perSec left (k + 1) ioBuf

/-- `strcat` of a slash and the file name. -/
def catName (path : List UInt8) (e : DirEntry) : Except Fault (List UInt8) :=
  recordName path e.name

/-- `get_child_dir_name`: the path with the name, `none` for -1. -/
def getChildDirName (fs : Fs) (pInodeNr cInodeNr : UInt32) (path : List UInt8) (ioBuf : Bytes) :
    Except Fault (Option (List UInt8) × Bytes × Fs) := do
  let (ref, fs) ← inodeOpen fs pInodeNr.toNat
  let parentDirInode ← fs.inodeAt ref
  let blocks ← allBlocks fs.disk parentDirInode
  let blockCnt := if parentDirInode.iSectors 12 ≠ 0 then 140 else 12
  let fs ← inodeClose fs ref
  let perSec ← dirEntrysPerSec fs.part.sb
  let (found, ioBuf) ← numberBlocks fs.disk blocks cInodeNr perSec blockCnt 0 ioBuf
  match found with
  | none => return (none, ioBuf, fs)
  | some e => return (some (← catName path e), ioBuf, fs)

/-! ## `sys_getcwd` -/

/-- The loop up to the root; `none` when a name is not found. -/
def getcwdLoop : (fuel : Nat) → (childInodeNr : UInt32) → (fullPathReverse : List UInt8) →
    Bytes → Fs → Except Fault (Option (List UInt8) × Fs)
  | 0, _, _, _, _ => .error .stuck
  | fuel + 1, child, path, ioBuf, fs =>
    if child = 0 then return (some path, fs)
    else do
      let (parent, ioBuf, fs) ← getParentDirInodeNr fs child ioBuf
      let (path, ioBuf, fs) ← getChildDirName fs parent child path ioBuf
      match path with
      | none => return (none, fs)
      | some path => getcwdLoop fuel parent path ioBuf fs

/-- `strchr`: what begins with the first such byte. -/
def strchr (str : List UInt8) (ch : UInt8) : Option (List UInt8) :=
  if ch ∈ str then some (str.dropWhile (· ≠ ch)) else none

/-- The loop that is to turn the path around: what begins with the slash found goes behind
what `buf` holds, and is cut off. -/
def turnAround (size : Nat) : (fuel : Nat) → (buf fullPathReverse : List UInt8) →
    Except Fault (List UInt8)
  | 0, _, _ => .error .stuck
  | fuel + 1, buf, path =>
    match strchr path slash with
    | none => return buf
    | some lastSlash =>
      if (buf ++ lastSlash).length < size then
        turnAround size fuel (buf ++ lastSlash) (path.takeWhile (· ≠ slash))
      else .error .outOfBounds

/-- `sys_getcwd` with a buffer of `size` bytes: the string in it, or `none` for `NULL`. Each
round appends a slash at least, so that 512 bytes do not last for more rounds than these. -/
def sysGetcwd (fs : Fs) (cwdInodeNr size : UInt32) : Except Fault (Option (List UInt8) × Fs) := do
  let (ioBuf, fs) := fs.askMalloc 512
  if ¬ ioBuf then return (none, fs)
  else
    ASSERT (cwdInodeNr < 4096)
    if cwdInodeNr = 0 then
      if 1 < size.toNat then return (some rootPath, fs) else .error .outOfBounds
    else
      let (path, fs) ← getcwdLoop (MAX_PATH_LEN + 1) cwdInodeNr [] (fun _ => 0) fs
      match path with
      | none => return (none, fs)
      | some fullPathReverse =>
        ASSERT (fullPathReverse.length ≤ size.toNat)
        let buf ← turnAround size.toNat (MAX_PATH_LEN + 1) [] fullPathReverse
        return (some buf, fs)

/-! ## The tree above a directory -/

/-- The directory `p` lists the directory `c` under a name of its own. -/
structure Child (fs : Fs) (p : UInt32) (name : List UInt8) (c : UInt32) : Prop where
  listed : walkStep fs.disk fs.part (p, FT_DIRECTORY) name = some (c, FT_DIRECTORY)
  proper : name ≠ dot ∧ name ≠ dotDot
  word : name ≠ [] ∧ slash ∉ name
  short : name.length < MAX_FILE_NAME_LEN

/-- The second entry of the first block of a directory. -/
def secondEntry (fs : Fs) (n : UInt32) : DirEntry :=
  entryAt (shift fs.disk (((diskInode fs.disk fs.part n.toNat).iSectors 0).toNat * 512)) 1

/-- A tree: each directory but the root lies in one other, which its second entry gives, and no
other entry there has its number. -/
structure DirTree (fs : Fs) (dirs : Nat → Prop) : Prop extends TreeOk fs dirs where
  notRoot : ∀ p name c, dirs p.toNat → Child fs p name c → c ≠ 0
  data : ∀ p name c, dirs p.toNat → Child fs p name c →
    fs.part.sb.dataStartLba ≤ (diskInode fs.disk fs.part c.toNat).iSectors 0
  up : ∀ p name c, dirs p.toNat → Child fs p name c →
    (secondEntry fs c).iNo = p ∧ (secondEntry fs c).fType = FT_DIRECTORY
  once : ∀ p name c, dirs p.toNat → Child fs p name c →
    ∀ e ∈ entries fs.disk (diskInode fs.disk fs.part p.toNat), e.iNo = c → e.name = name

/-- The names from the root down to a directory. -/
inductive PathTo (fs : Fs) : List (List UInt8) → UInt32 → Prop
  | root : PathTo fs [] 0
  | step (names : List (List UInt8)) (name : List UInt8) (p c : UInt32) :
      PathTo fs names p → Child fs p name c → PathTo fs (names ++ [name]) c

/-- The path with these names. -/
def fullPath (names : List (List UInt8)) : List UInt8 :=
  if names = [] then rootPath else joinPath names

variable {fs : Fs} {dirs : Nat → Prop} {p c n : UInt32} {name pre : List UInt8}
  {names : List (List UInt8)} {ioBuf : Bytes} {disk : Bytes} {nd : Inode}

theorem Child.lookup (h : Child fs p name c) :
    ∃ e, ZhuOS.lookup fs.disk (diskInode fs.disk fs.part p.toNat) name = some e ∧ e.iNo = c ∧
      e.fType = FT_DIRECTORY := by
  have hlisted := h.listed
  rw [walkStep_dir, Option.map_eq_some_iff] at hlisted
  obtain ⟨e, he, heq⟩ := hlisted
  exact ⟨e, he, congrArg Prod.fst heq, congrArg Prod.snd heq⟩

theorem TreeOk.child (ht : TreeOk fs dirs) (hp : dirs p.toNat) (h : Child fs p name c) :
    dirs c.toNat := by
  obtain ⟨e, he, rfl, htype⟩ := h.lookup
  obtain ⟨hmem, hname⟩ := lookup_mem he
  obtain ⟨-, hfile | ⟨-, hdirs⟩⟩ := ht.listed _ hp e hmem (hname ▸ h.word.1)
  · rw [hfile] at htype
    cases htype
  · exact hdirs

theorem PathTo.isDir (h : PathTo fs names n) (ht : TreeOk fs dirs) : dirs n.toNat := by
  induction h with
  | root => exact ht.root
  | step names name p c _ hchild ih => exact ht.child ih hchild

theorem PathTo.walk (h : PathTo fs names n) :
    ZhuOS.walk fs.disk fs.part (0, FT_DIRECTORY) names = some (n, FT_DIRECTORY) := by
  induction h with
  | root => rfl
  | step names name p c _ hchild ih =>
    rw [walk_append, ih, Option.bind_some, walk_cons, hchild.listed]
    rfl

theorem PathTo.words (h : PathTo fs names n) :
    ∀ c ∈ names, (c ≠ [] ∧ slash ∉ c) ∧ c.length < MAX_FILE_NAME_LEN := by
  induction h with
  | root => exact fun c hc => nomatch hc
  | step names name p c _ hchild ih =>
    intro d hd
    obtain hd | hd := List.mem_append.mp hd
    · exact ih d hd
    · rw [List.mem_singleton.mp hd]
      exact ⟨hchild.word, hchild.short⟩

/-! ## One level up, in a tree -/

/-- An inode that was not changed is closed without a trace. -/
theorem TreeOk.opensInode (ht : TreeOk fs dirs) (hheap : fs.heap = fun _ => true) {n : Nat}
    (hn : dirs n) : ∃ ref l nd, inodeOpen fs n = .ok (ref, fs.setOpenInodes l) ∧
      (fs.setOpenInodes l).inodeAt ref = .ok nd ∧
      Inode.SameStored nd (diskInode fs.disk fs.part n) ∧
      inodeClose (fs.setOpenInodes l) ref = .ok fs := by
  obtain ⟨dir, l, nd, hopen, hroot, hat⟩ := ht.opens hheap hn
  have hclose := hat.close_same
  rw [dirClose, if_neg (by simp [hroot])] at hclose
  simp only [dirOpen, Fs.askMalloc_found hheap (by decide : 0 < SIZEOF_DIR)] at hopen
  obtain ⟨⟨ref, fs₁⟩, hinode, hopen⟩ := bind_ok.mp hopen
  cases hopen
  exact ⟨ref, l, nd, hinode, hat.inodeAt, hat.stored, hclose⟩

/-- The number in the second entry is the answer. -/
theorem getParentDirInodeNr_eq (ht : TreeOk fs dirs) (hheap : fs.heap = fun _ => true)
    (hc : dirs c.toNat) (hp : p.toNat < 4096)
    (hdata : fs.part.sb.dataStartLba ≤ (diskInode fs.disk fs.part c.toNat).iSectors 0)
    (hup : (secondEntry fs c).iNo = p ∧ (secondEntry fs c).fType = FT_DIRECTORY) (ioBuf : Bytes) :
    ∃ ioBuf', getParentDirInodeNr fs c ioBuf = .ok (p, ioBuf', fs) := by
  obtain ⟨ref, l, nd, hopen, hat, hstored, hclose⟩ := ht.opensInode hheap hc
  obtain ⟨hno, htype⟩ := hup
  have hlba := (ht.readable _ hc).blocks 0 (by decide)
  rw [blockAt_direct (by decide)] at hlba
  have hsmall : p < 4096 := UInt32.lt_iff_toNat_lt.mpr hp
  have hassert : (fs.setOpenInodes l).part.sb.dataStartLba ≤
      (diskInode fs.disk fs.part c.toNat).iSectors 0 := hdata
  have hentry : (entryAt (blit ioBuf 0 fs.disk
      (((diskInode fs.disk fs.part c.toNat).iSectors 0).toNat * 512) 512) 1) =
      secondEntry fs c := entryAt_read (by decide)
  simp only [getParentDirInodeNr, hopen, ok_bind, hat, hstored.iSectors 0 (by decide),
    ASSERT_true hassert, hclose, ideRead_one hlba, hentry, hno, htype, and_true,
    ASSERT_true hsmall]
  exact ⟨_, rfl⟩

theorem getParentDirInodeNr_ok (ht : DirTree fs dirs) (hheap : fs.heap = fun _ => true)
    (hp : dirs p.toNat) (h : Child fs p name c) (ioBuf : Bytes) :
    ∃ ioBuf', getParentDirInodeNr fs c ioBuf = .ok (p, ioBuf', fs) :=
  getParentDirInodeNr_eq ht.toTreeOk hheap (ht.child hp h) (ht.small _ hp) (ht.data p name c hp h)
    (ht.up p name c hp h) ioBuf

theorem scanNumber_eq (buf : Bytes) (c : UInt32) (left j : Nat) :
    scanNumber buf c left j = ((List.range' j left).map (entryAt buf)).find? (·.iNo = c) := by
  induction left generalizing j with
  | zero => rfl
  | succ left ih =>
    rw [scanNumber, List.range'_succ, List.map_cons, List.find?_cons]
    by_cases h : (entryAt buf j).iNo = c
    · simp [h]
    · simp [h, ih]

/-- The scan of a sector that was read is the search of its entries. -/
theorem scanNumber_sector (disk buf : Bytes) (lba c : UInt32) :
    scanNumber (blit buf 0 disk (lba.toNat * 512) 512) c 21 0 =
      (sectorEntries disk lba).find? (·.iNo = c) := by
  rw [scanNumber_eq, sectorEntries, ← List.range_eq_range']
  congr 1
  apply List.map_congr_left
  intro j hj
  exact entryAt_read (List.mem_range.mp hj)

theorem numberBlocks_eq (hread : ∀ k < 140, (blockAt disk nd k).toNat ≤ max_lba)
    (left k : Nat) (ioBuf : Bytes) (hsum : k + left ≤ 140) :
    ∃ ioBuf', numberBlocks disk (blockAt disk nd) c 21 left k ioBuf =
      .ok (((List.range' k left).flatMap fun k =>
        if blockAt disk nd k = 0 then [] else sectorEntries disk (blockAt disk nd k)).find?
          (·.iNo = c), ioBuf') := by
  induction left generalizing k ioBuf with
  | zero => exact ⟨ioBuf, rfl⟩
  | succ left ih =>
    rw [List.range'_succ, List.flatMap_cons, List.find?_append, numberBlocks]
    by_cases hz : blockAt disk nd k = 0
    · rw [if_pos hz, if_pos hz]
      exact ih _ _ (by omega)
    · rw [if_neg hz, if_neg hz]
      simp only [ideRead_one (hread k (by omega)), ok_bind, scanNumber_sector]
      cases (sectorEntries disk (blockAt disk nd k)).find? (·.iNo = c) with
      | some e => exact ⟨_, rfl⟩
      | none => exact ih _ _ (by omega)

/-- Without a table the direct blocks hold all entries. -/
theorem entries_noTable (ht : nd.iSectors 12 = 0) : entries disk nd = directEntries disk nd := by
  have htable : tableEntries disk nd = [] := by
    rw [tableEntries, List.flatMap_eq_nil_iff]
    intro k hk
    exact if_pos (blockAt_noTable ht (List.mem_range'_1.mp hk).1)
  rw [entries_split, htable, List.append_nil]

theorem getChildDirName_ok (ht : DirTree fs dirs) (hheap : fs.heap = fun _ => true)
    (hp : dirs p.toNat) (h : Child fs p name c) (path : List UInt8) (ioBuf : Bytes)
    (hlen : (path ++ slash :: name).length < MAX_PATH_LEN) :
    ∃ ioBuf', getChildDirName fs p c path ioBuf =
      .ok (some (path ++ slash :: name), ioBuf', fs) := by
  obtain ⟨ref, l, nd, hopen, hat, hstored, hclose⟩ := ht.opensInode hheap hp
  obtain ⟨e, he, hno, -⟩ := h.lookup
  have hr := readable_stored hstored (ht.readable _ hp)
  have hsame : entries fs.disk nd = entries fs.disk (diskInode fs.disk fs.part p.toNat) := by
    have hblocks : blockAt fs.disk nd = blockAt fs.disk (diskInode fs.disk fs.part p.toNat) :=
      blockAt_congr hstored.iSectors fun _ _ _ _ => rfl
    exact entries_congr (fun k _ => congrFun hblocks k) fun _ _ _ _ _ _ => rfl
  have hper : dirEntrysPerSec fs.part.sb = .ok 21 := by
    rw [dirEntrysPerSec, ht.entrySize]
    rfl
  -- the scan is the search of all entries, in both cases of the table
  have hscan : ∃ ioBuf', numberBlocks fs.disk (blockAt fs.disk nd) c 21
      (if nd.iSectors 12 ≠ 0 then 140 else 12) 0 ioBuf =
        .ok ((entries fs.disk nd).find? (·.iNo = c), ioBuf') := by
    by_cases htable : nd.iSectors 12 = 0
    · rw [if_neg (not_not.mpr htable), entries_noTable htable]
      exact numberBlocks_eq hr.blocks 12 0 ioBuf (by omega)
    · rw [if_pos htable, entries, List.range_eq_range']
      exact numberBlocks_eq hr.blocks 140 0 ioBuf (by omega)
  obtain ⟨ioBuf', hscan⟩ := hscan
  -- an entry is found, and its name is the child's
  have hsome : ((entries fs.disk nd).find? (·.iNo = c)).isSome := by
    rw [List.find?_isSome]
    exact ⟨e, hsame.symm ▸ (lookup_mem he).1, by simpa using hno⟩
  obtain ⟨x, hx⟩ := Option.isSome_iff_exists.mp hsome
  have hxname : x.name = name :=
    ht.once p name c hp h x (hsame ▸ List.mem_of_find?_eq_some hx)
      (by simpa using List.find?_some hx)
  have hcat : catName path x = .ok (path ++ slash :: name) := by
    rw [catName, hxname]
    exact if_pos ⟨h.short, hlen⟩
  have hblocks : allBlocks (fs.setOpenInodes l).disk nd = .ok (blockAt fs.disk nd) :=
    allBlocks_eq fun _ => hr.table
  simp only [getChildDirName, hopen, ok_bind, hat, hblocks, hclose, hper, hscan, hx, hcat]
  exact ⟨ioBuf', rfl⟩

/-! ## The way up -/

theorem joinPath_reverse_length (names : List (List UInt8)) :
    (joinPath names.reverse).length = (joinPath names).length :=
  ((List.reverse_perm names).flatMap_right _).length_eq

/-- The loop collects the names from the directory up. -/
theorem getcwdLoop_ok (ht : DirTree fs dirs) (hheap : fs.heap = fun _ => true)
    (h : PathTo fs names n) (fuel : Nat) (path : List UInt8) (ioBuf : Bytes)
    (hlen : (path ++ joinPath names.reverse).length < MAX_PATH_LEN)
    (hfuel : names.length < fuel) :
    getcwdLoop fuel n path ioBuf fs = .ok (some (path ++ joinPath names.reverse), fs) := by
  induction h generalizing fuel path ioBuf with
  | root =>
    obtain ⟨fuel, rfl⟩ : ∃ k, fuel = k + 1 := ⟨fuel - 1, by omega⟩
    rw [getcwdLoop, if_pos rfl, List.reverse_nil, joinPath, List.flatMap_nil, List.append_nil]
    rfl
  | step names name p c hpath hchild ih =>
    obtain ⟨fuel, rfl⟩ : ∃ k, fuel = k + 1 := ⟨fuel - 1, by omega⟩
    have hp := hpath.isDir ht.toTreeOk
    have hjoin : path ++ joinPath (names ++ [name]).reverse =
        path ++ slash :: name ++ joinPath names.reverse := by
      rw [List.reverse_append, List.reverse_singleton, List.singleton_append, joinPath_cons,
        List.append_assoc]
    rw [hjoin] at hlen ⊢
    have hname : (path ++ slash :: name).length < MAX_PATH_LEN := by
      rw [List.length_append] at hlen
      omega
    rw [List.length_append] at hfuel
    obtain ⟨buf₁, hparent⟩ := getParentDirInodeNr_ok ht hheap hp hchild ioBuf
    obtain ⟨buf₂, hchildName⟩ := getChildDirName_ok ht hheap hp hchild path buf₁ hname
    rw [getcwdLoop, if_neg (ht.notRoot p name c hp hchild)]
    simp only [hparent, ok_bind, hchildName]
    exact ih fuel _ _ hlen (by simp at hfuel; omega)

/-- From a path that begins with a slash, the first round takes all of it. -/
theorem turnAround_all {size fuel : Nat} {path : List UInt8} (hlen : (slash :: path).length < size)
    (hfuel : 1 < fuel) : turnAround size fuel [] (slash :: path) = .ok (slash :: path) := by
  obtain ⟨fuel, rfl⟩ : ∃ k, fuel = k + 2 := ⟨fuel - 2, by omega⟩
  have hfirst : strchr (slash :: path) slash = some (slash :: path) := by
    rw [strchr, if_pos (.head _), List.dropWhile_cons_of_neg (by simp)]
  have hnone : strchr [] slash = none := by
    rw [strchr, if_neg (by simp)]
  rw [turnAround, hfirst]
  simp only [List.nil_append]
  rw [if_pos hlen, List.takeWhile_cons_of_neg (by simp), turnAround, hnone]
  rfl

/-- `sys_getcwd` gives the names from the directory up. -/
theorem sysGetcwd_ok (ht : DirTree fs dirs) (hheap : fs.heap = fun _ => true)
    (h : PathTo fs names n) {size : UInt32} (hsize : (fullPath names).length < size.toNat)
    (hlen : (fullPath names).length < MAX_PATH_LEN) :
    sysGetcwd fs n size = .ok (some (fullPath names.reverse), fs) := by
  have hsmall : n < 4096 := UInt32.lt_iff_toNat_lt.mpr (ht.small _ (h.isDir ht.toTreeOk))
  simp only [sysGetcwd, Fs.askMalloc_found hheap (by decide : 0 < 512), not_true, ↓reduceIte,
    ASSERT_true hsmall, ok_bind]
  cases hpath : h with
  | root =>
    have hsize : 1 < size.toNat := hsize
    rw [if_pos rfl, if_pos hsize]
    rfl
  | step names name p c hparent hchild =>
    have hp := hparent.isDir ht.toTreeOk
    have hne : names ++ [name] ≠ [] := by simp
    have hner : (names ++ [name]).reverse ≠ [] := by simp
    rw [fullPath, if_neg hne, ← joinPath_reverse_length] at hsize hlen
    have hcount := length_le_joinPath (names ++ [name])
    rw [← joinPath_reverse_length] at hcount
    have hloop : getcwdLoop (MAX_PATH_LEN + 1) n [] (fun _ => 0) fs =
        .ok (some (joinPath (names ++ [name]).reverse), fs) :=
      getcwdLoop_ok ht hheap h _ [] _ hlen (by omega)
    have hcons : joinPath (names ++ [name]).reverse =
        slash :: (name ++ joinPath names.reverse) := by
      rw [List.reverse_append, List.reverse_singleton, List.singleton_append, joinPath_cons]
      rfl
    rw [if_neg (ht.notRoot p name n hp hchild)]
    simp only [hloop, ok_bind, ASSERT_true (Nat.le_of_lt hsize)]
    rw [fullPath, if_neg hner]
    rw [hcons] at hsize ⊢
    rw [turnAround_all hsize (by decide)]
    rfl

/-! ## After `sys_chdir` -/

/-- The directory a search has left open is closed without a trace. -/
theorem searchFile_closes (ht : TreeOk fs dirs) (hheap : fs.heap = fun _ => true)
    {path : List UInt8} (hslash : path.head? = some slash) (hlen : path.length < MAX_PATH_LEN)
    (hshort : ∀ c ∈ components path, c.length < MAX_FILE_NAME_LEN) :
    ∃ r, searchFile fs path = .ok r ∧ dirClose r.2.2 r.2.1.parentDir = .ok fs := by
  by_cases hknown : path = rootPath ∨ path = rootDotPath ∨ path = rootDotDotPath
  · exact ⟨(0, ⟨[], fs.root, FT_DIRECTORY⟩, fs), if_pos hknown, rfl⟩
  · obtain ⟨r, hr, hstop⟩ := searchFile_stop ht hheap hslash hlen hshort hknown
    refine ⟨r, hr, ?_⟩
    cases hstop with
    | missing front rest name p dir l nd hsplit hwalk hat hmiss => exact hat.close_same
    | file front rest name p e dir l nd hsplit hwalk hat hfound htype hsmall =>
      exact hat.close_same
    | directory p parent dir l nd hwalk hsmall hat => exact hat.close_same

theorem sysChdir_same (ht : TreeOk fs dirs) (hheap : fs.heap = fun _ => true) {path : List UInt8}
    (hslash : path.head? = some slash) (hlen : path.length < MAX_PATH_LEN)
    (hshort : ∀ c ∈ components path, c.length < MAX_FILE_NAME_LEN) {cwd : UInt32} {ret : Int}
    {fs' : Fs} (h : sysChdir fs cwd path = .ok (ret, n, fs')) : fs' = fs := by
  obtain ⟨r, hr, hclose⟩ := searchFile_closes ht hheap hslash hlen hshort
  simp only [sysChdir, hr, ok_bind, hclose] at h
  by_cases hdir : r.1 ≠ -1 ∧ r.2.1.fileType = FT_DIRECTORY
  · rw [if_pos hdir] at h
    cases h
    rfl
  · rw [if_neg hdir] at h
    cases h
    rfl

theorem fullPath_slash (names : List (List UInt8)) : (fullPath names).head? = some slash := by
  cases names with
  | nil => rfl
  | cons name names => rfl

theorem components_fullPath (h : ∀ c ∈ names, c ≠ [] ∧ slash ∉ c) :
    components (fullPath names) = names := by
  unfold fullPath
  split
  · rename_i hnil
    rw [hnil, rootPath, components_slash, components_nil]
  · exact components_joinPath h

/-- The path of a directory leads there. -/
theorem PathTo.search (h : PathTo fs names n) (ht : TreeOk fs dirs)
    (hheap : fs.heap = fun _ => true) (hlen : (fullPath names).length < MAX_PATH_LEN) :
    ∃ r, searchFile fs (fullPath names) = .ok r ∧ r.1 = n ∧ r.2.1.fileType = FT_DIRECTORY := by
  have hcomps := components_fullPath fun c hc => (h.words c hc).1
  have hwalk := h.walk
  by_cases hnil : names = []
  · subst hnil
    cases hwalk
    exact ⟨_, if_pos (.inl rfl), rfl, rfl⟩
  · rw [← hcomps] at hwalk
    exact searchFile_walk ht hheap (fullPath_slash names) hlen
      (fun c hc => (h.words c (hcomps ▸ hc)).2) (by rwa [hcomps]) hwalk

theorem sysChdir_path (h : PathTo fs names n) (ht : TreeOk fs dirs)
    (hheap : fs.heap = fun _ => true) (hlen : (fullPath names).length < MAX_PATH_LEN)
    (cwd : UInt32) : sysChdir fs cwd (fullPath names) = .ok (0, n, fs) := by
  have hcomps := components_fullPath fun c hc => (h.words c hc).1
  obtain ⟨r, hr, rfl, htype⟩ := h.search ht hheap hlen
  obtain ⟨r', hr', hclose⟩ := searchFile_closes ht hheap (fullPath_slash names) hlen fun c hc =>
    (h.words c (hcomps ▸ hc)).2
  cases Except.ok.inj (hr.symm.trans hr')
  simp only [sysChdir, hr, ok_bind, hclose]
  rw [if_pos ⟨ne_minusOne (ht.small _ (h.isDir ht)), htype⟩]
  rfl

/-- What `sys_getcwd` should give: the path of the directory, with which a search finds it. -/
structure CwdRight (n : UInt32) (names : List (List UInt8)) (r : Option (List UInt8) × Fs) :
    Prop where
  filled : r.1 = some (fullPath names)
  found : ∃ r', searchFile r.2 (fullPath names) = .ok r' ∧ r'.1 = n

/-- The names come from the directory up, so that the path is right when they read the same
in both directions. -/
theorem sysGetcwd_right_iff (ht : DirTree fs dirs) (hheap : fs.heap = fun _ => true)
    {path : List UInt8} (hslash : path.head? = some slash) (hlen : path.length < MAX_PATH_LEN)
    (hshort : ∀ c ∈ components path, c.length < MAX_FILE_NAME_LEN) {cwd size : UInt32} {fs' : Fs}
    (hchdir : sysChdir fs cwd path = .ok (0, n, fs')) (hpath : PathTo fs names n)
    (hsize : (fullPath names).length < size.toNat)
    (hfits : (fullPath names).length < MAX_PATH_LEN) :
    ∃ r, sysGetcwd fs' n size = .ok r ∧ (CwdRight n names r ↔ names.reverse = names) := by
  have hwords : ∀ c ∈ names, c ≠ [] ∧ slash ∉ c := fun c hc => (hpath.words c hc).1
  rw [sysChdir_same ht.toTreeOk hheap hslash hlen hshort hchdir]
  refine ⟨_, sysGetcwd_ok ht hheap hpath hsize hfits, ?_⟩
  constructor
  · intro hright
    have hsame : fullPath names.reverse = fullPath names := Option.some.inj hright.filled
    have hcomps := congrArg components hsame
    rwa [components_fullPath fun c hc => hwords c (List.mem_reverse.mp hc),
      components_fullPath hwords] at hcomps
  · intro hsame
    obtain ⟨r, hr, hno, -⟩ := hpath.search ht.toTreeOk hheap hfits
    exact ⟨by rw [hsame], r, hr, hno⟩

/-- The bytes of an image with the directories `/a` and `/a/b`, at 612, 613 and 614. -/
def belowBytes : List (Nat × UInt8) :=
  [(2048 + 4, 72), (2048 + 16, 0x64), (2048 + 17, 2),
   (2124, 1), (2124 + 4, 72), (2124 + 16, 0x65), (2124 + 17, 2),
   (2200, 2), (2200 + 4, 48), (2200 + 16, 0x66), (2200 + 17, 2),
   (612 * 512, 46), (612 * 512 + 20, 2),
   (612 * 512 + 24, 46), (612 * 512 + 25, 46), (612 * 512 + 44, 2),
   (612 * 512 + 48, 97), (612 * 512 + 64, 1), (612 * 512 + 68, 2),
   (613 * 512, 46), (613 * 512 + 16, 1), (613 * 512 + 20, 2),
   (613 * 512 + 24, 46), (613 * 512 + 25, 46), (613 * 512 + 44, 2),
   (613 * 512 + 48, 98), (613 * 512 + 64, 2), (613 * 512 + 68, 2),
   (614 * 512, 46), (614 * 512 + 16, 2), (614 * 512 + 20, 2),
   (614 * 512 + 24, 46), (614 * 512 + 25, 46), (614 * 512 + 40, 1), (614 * 512 + 44, 2)]

def belowDisk : Bytes := fun a => (belowBytes.lookup a).getD 0

def belowFs : Fs where
  disk := belowDisk
  part := { tablePartition with
    blockBitmap := ⟨512, fun i => if i = 0 then 7 else 0⟩
    inodeBitmap := ⟨512, fun i => if i = 0 then 7 else 0⟩
    openInodes := [⟨1, { diskInode belowDisk tablePartition 0 with iOpenCnts := 1 }⟩] }
  rootDir := 1
  fileTable := fun _ => ⟨0, 0, none⟩
  fdTable := fun _ => none
  heap := fun _ => true
  junk := fun _ => 0

theorem belowFs_rootDots (name : List UInt8) (h : name = dot ∨ name = dotDot) :
    (lookup belowFs.disk (diskInode belowFs.disk belowFs.part 0) name).map
      (fun e => (e.iNo, e.fType)) = some (0, FT_DIRECTORY) := by
  obtain rfl | rfl := h <;> decide +kernel

theorem belowFs_readable : ∀ n < 3,
    (diskInode belowFs.disk belowFs.part n).iNo.toNat = n ∧
    ((diskInode belowFs.disk belowFs.part n).iSectors 12).toNat ≤ max_lba ∧ ∀ k < 140,
      (blockAt belowFs.disk (diskInode belowFs.disk belowFs.part n) k).toNat ≤ max_lba := by
  decide +kernel

theorem belowFs_listed : ∀ n < 3,
    ∀ e ∈ entries belowFs.disk (diskInode belowFs.disk belowFs.part n), e.name ≠ [] →
      e.iNo.toNat < 3 ∧ e.fType = FT_DIRECTORY := by
  decide +kernel

theorem belowFs_up : ∀ n < 3,
    ∀ e ∈ entries belowFs.disk (diskInode belowFs.disk belowFs.part n),
      e.name ≠ [] ∧ e.name ≠ dot ∧ e.name ≠ dotDot → e.iNo ≠ 0 ∧
      belowFs.part.sb.dataStartLba ≤
        (diskInode belowFs.disk belowFs.part e.iNo.toNat).iSectors 0 ∧
      (secondEntry belowFs e.iNo).iNo = .ofNat n ∧
      (secondEntry belowFs e.iNo).fType = FT_DIRECTORY := by
  decide +kernel

theorem belowFs_once : ∀ n < 3,
    ∀ e ∈ entries belowFs.disk (diskInode belowFs.disk belowFs.part n),
      e.name ≠ [] ∧ e.name ≠ dot ∧ e.name ≠ dotDot →
      ∀ x ∈ entries belowFs.disk (diskInode belowFs.disk belowFs.part n),
        x.iNo = e.iNo → x.name = e.name := by
  decide +kernel

theorem belowFs_ok : TreeOk belowFs fun n => n < 3 where
  fits := ⟨tablePartition_fits.disk, tablePartition_fits.part⟩
  entrySize := rfl
  openOk := ⟨by decide, List.nodup_singleton _, fun o ho => by
    rw [List.mem_singleton.mp ho]
    decide⟩
  root := by decide
  rootOpen := ⟨_, List.mem_singleton.mpr rfl, rfl, by decide⟩
  small n hn := by omega
  number n hn := (belowFs_readable n hn).1
  readable n hn := ⟨(belowFs_readable n hn).2.1, (belowFs_readable n hn).2.2⟩
  stored o ho _ := by
    rw [List.mem_singleton.mp ho]
    exact ⟨rfl, rfl, fun _ _ => rfl⟩
  listed n hn e he hne := by
    obtain ⟨hno, htype⟩ := belowFs_listed n hn e he hne
    exact ⟨by omega, .inr ⟨htype, hno⟩⟩
  rootDots name hname := by
    have := belowFs_rootDots name hname
    rw [Option.map_eq_some_iff] at this
    obtain ⟨e, he, heq⟩ := this
    exact ⟨e, he, congrArg Prod.fst heq, congrArg Prod.snd heq⟩

theorem belowFs_tree : DirTree belowFs fun n => n < 3 where
  toTreeOk := belowFs_ok
  notRoot p name c hp h := by
    obtain ⟨e, he, rfl, -⟩ := h.lookup
    obtain ⟨hmem, rfl⟩ := lookup_mem he
    exact (belowFs_up _ hp e hmem ⟨h.word.1, h.proper⟩).1
  data p name c hp h := by
    obtain ⟨e, he, rfl, -⟩ := h.lookup
    obtain ⟨hmem, rfl⟩ := lookup_mem he
    exact (belowFs_up _ hp e hmem ⟨h.word.1, h.proper⟩).2.1
  up p name c hp h := by
    obtain ⟨e, he, rfl, -⟩ := h.lookup
    obtain ⟨hmem, rfl⟩ := lookup_mem he
    obtain ⟨-, -, hno, htype⟩ := belowFs_up _ hp e hmem ⟨h.word.1, h.proper⟩
    exact ⟨hno.trans UInt32.ofNat_toNat, htype⟩
  once p name c hp h x hx hxno := by
    obtain ⟨e, he, rfl, -⟩ := h.lookup
    obtain ⟨hmem, rfl⟩ := lookup_mem he
    exact belowFs_once _ hp e hmem ⟨h.word.1, h.proper⟩ x hx hxno

theorem belowFs_a : PathTo belowFs [[97]] 1 := by
  apply PathTo.step [] [97] 0 1 .root
  exact ⟨by decide +kernel, by decide, by decide, by decide⟩

theorem belowFs_b : PathTo belowFs [[97], [98]] 2 := by
  apply PathTo.step [[97]] [98] 1 2 belowFs_a
  exact ⟨by decide +kernel, by decide, by decide, by decide⟩

/-- One level below the root nothing is to be turned around. -/
theorem sysGetcwd_right_iff_one : ∃ r, sysGetcwd belowFs 1 64 = .ok r ∧
    (CwdRight 1 [[97]] r ↔ [[97]].reverse = [[(97 : UInt8)]]) := by
  have hcomps : components (fullPath [[97]]) = [[97]] := components_fullPath (by decide)
  have hchdir := sysChdir_path belowFs_a belowFs_ok rfl (by decide) 0
  have hsize : (fullPath [[97]]).length < (64 : UInt32).toNat := by decide
  exact sysGetcwd_right_iff belowFs_tree rfl (fullPath_slash _) (by decide)
    (by rw [hcomps]; decide) hchdir belowFs_a hsize (by decide)

/-- In `/a/b` the answer is `/b/a`. -/
theorem sysGetcwd_backwards : DirTree belowFs (fun n => n < 3) ∧
    PathTo belowFs [[97], [98]] 2 ∧
    ∃ fs' r, sysChdir belowFs 0 [47, 97, 47, 98] = .ok (0, 2, fs') ∧
      sysGetcwd fs' 2 64 = .ok r ∧ r.1 = some [47, 98, 47, 97] ∧
      ¬ CwdRight 2 [[97], [98]] r := by
  have hsize : (fullPath [[97], [98]]).length < (64 : UInt32).toNat := by decide
  have hchdir := sysChdir_path belowFs_b belowFs_ok rfl (by decide) 0
  have hgetcwd := sysGetcwd_ok belowFs_tree rfl belowFs_b hsize (by decide)
  refine ⟨belowFs_tree, belowFs_b, _, _, hchdir, hgetcwd, rfl, ?_⟩
  intro hright
  have := hright.filled
  revert this
  decide

end ZhuOS
