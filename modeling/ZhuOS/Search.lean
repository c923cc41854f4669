import ZhuOS.Entries
import ZhuOS.OpenDirs
import ZhuOS.Path

/-!
# `search_file`

The search looks one component after the other up and opens the directories on
the way. It stops at the first regular file, whether or not components are left.
-/

namespace ZhuOS

open ByteMem

/-- `struct path_search_record`, its path cleared by the caller. -/
structure PathSearchRecord where
  searchedPath : List UInt8
  parentDir : Dir
  fileType : UInt32

/-- `strcat` of a slash and the name onto `searched_path`. A name that fills its buffer has no
zero byte after it and is read past its end. -/
def recordName (searchedPath name : List UInt8) : Except Fault (List UInt8) :=
  let searchedPath := searchedPath ++ slash :: name
  if name.length < MAX_FILE_NAME_LEN ∧ searchedPath.length < MAX_PATH_LEN then .ok searchedPath
  else .error .outOfBounds

/-- The loop of `search_file`; `dirE` is the entry found last, or what the local holds
before the first. -/
def searchLoop : (fuel : Nat) → (name : List UInt8) → (subPath : Option (List UInt8)) →
    (parentDir : Dir) → (parentInodeNo : UInt32) → (searchedPath : List UInt8) → DirEntry → Fs →
    Except Fault (UInt32 × PathSearchRecord × Fs)
  | 0, _, _, _, _, _, _, _ => .error .stuck
  | fuel + 1, name, subPath, parentDir, parentInodeNo, searchedPath, dirE, fs =>
    if name = [] then do
      let fs ← dirClose fs parentDir
      let (parentDir, fs) ← dirOpen fs parentInodeNo.toNat
      return (dirE.iNo, ⟨searchedPath, parentDir, FT_DIRECTORY⟩, fs)
    else do
      ASSERT (searchedPath.length < 512)
      let searchedPath ← recordName searchedPath name
      let dir ← fs.inodeAt parentDir.inode
      let (found, fs) ← searchDirEntry fs dir name
      match found with
      | none => return (-1, ⟨searchedPath, parentDir, FT_UNKNOWN⟩, fs)
      | some dirE =>
        let (name, subPath) ← parseNext subPath
        if dirE.fType = FT_DIRECTORY then
          let dir ← fs.inodeAt parentDir.inode
          let fs ← dirClose fs parentDir
          let (parentDir, fs) ← dirOpen fs dirE.iNo.toNat
          searchLoop fuel name subPath parentDir dir.iNo searchedPath dirE fs
        else if dirE.fType = FT_REGULAR then
          return (dirE.iNo, ⟨searchedPath, parentDir, FT_REGULAR⟩, fs)
        else searchLoop fuel name subPath parentDir parentInodeNo searchedPath dirE fs

def rootPath : List UInt8 := [slash]
def rootDotPath : List UInt8 := slash :: dot
def rootDotDotPath : List UInt8 := slash :: dotDot

/-- `search_file`: the number of the file, -1 when there is none. -/
def searchFile (fs : Fs) (pathname : List UInt8) : Except Fault (UInt32 × PathSearchRecord × Fs) :=
  if pathname = rootPath ∨ pathname = rootDotPath ∨ pathname = rootDotDotPath then
    return (0, ⟨[], fs.root, FT_DIRECTORY⟩, fs)
  else do
    ASSERT (pathname.head? = some slash ∧ 1 < pathname.length ∧ pathname.length < MAX_PATH_LEN)
    let (name, subPath) ← pathParse pathname
    searchLoop (pathname.length + 2) name subPath fs.root 0 [] (.ofBytes fs.junk) fs

theorem recordName_short {searchedPath name r : List UInt8}
    (h : recordName searchedPath name = .ok r) : name.length < MAX_FILE_NAME_LEN := by
  by_contra hlong
  simp [recordName, hlong] at h

/-! ## Walking a path -/

/-- A number and a file type, from a directory through one of its entries. -/
def walkStep (disk : Bytes) (part : Partition) (at_ : UInt32 × UInt32) (name : List UInt8) :
    Option (UInt32 × UInt32) :=
  if at_.2 = FT_DIRECTORY then
    (lookup disk (diskInode disk part at_.1.toNat) name).map fun e => (e.iNo, e.fType)
  else none

/-- Where the components lead from a file, on the disk. -/
def walk (disk : Bytes) (part : Partition) (from_ : UInt32 × UInt32) (comps : List (List UInt8)) :
    Option (UInt32 × UInt32) := comps.foldlM (walkStep disk part) from_

/-- The directories of a tree: what is listed in one of them is a regular file or one of
them, and what is open of them agrees with the disk. -/
structure TreeOk (fs : Fs) (dirs : Nat → Prop) : Prop where
  fits : TableFits fs.part
  entrySize : fs.part.sb.dirEntrySize = 24
  openOk : OpenOk fs.part.openInodes
  root : dirs 0
  rootOpen : ∃ o ∈ fs.part.openInodes, o.ref = fs.rootDir ∧ o.inode.iNo = 0
  small : ∀ n, dirs n → n < 4096
  number : ∀ n, dirs n → (diskInode fs.disk fs.part n).iNo.toNat = n
  readable : ∀ n, dirs n → Readable fs.disk (diskInode fs.disk fs.part n)
  stored : ∀ o ∈ fs.part.openInodes, dirs o.inode.iNo.toNat →
    Inode.SameStored o.inode (diskInode fs.disk fs.part o.inode.iNo.toNat)
  listed : ∀ n, dirs n → ∀ e ∈ entries fs.disk (diskInode fs.disk fs.part n), e.name ≠ [] →
    e.iNo.toNat < 4096 ∧
      (e.fType = FT_REGULAR ∨ e.fType = FT_DIRECTORY ∧ dirs e.iNo.toNat)
  rootDots : ∀ name, name = dot ∨ name = dotDot →
    ∃ e, lookup fs.disk (diskInode fs.disk fs.part 0) name = some e ∧ e.iNo = 0 ∧
      e.fType = FT_DIRECTORY

variable {fs : Fs} {dirs : Nat → Prop} {name : List UInt8} {comps : List (List UInt8)}

@[simp] theorem walk_nil (disk : Bytes) (part : Partition) (at_ : UInt32 × UInt32) :
    walk disk part at_ [] = some at_ := rfl

theorem walk_append (disk : Bytes) (part : Partition) (at_ : UInt32 × UInt32)
    (a b : List (List UInt8)) :
    walk disk part at_ (a ++ b) = (walk disk part at_ a).bind fun x => walk disk part x b :=
  List.foldlM_append ..

theorem walk_cons (disk : Bytes) (part : Partition) (at_ : UInt32 × UInt32) (name : List UInt8)
    (comps : List (List UInt8)) : walk disk part at_ (name :: comps) =
      (walkStep disk part at_ name).bind fun x => walk disk part x comps :=
  List.foldlM_cons ..

theorem walkStep_dir (disk : Bytes) (part : Partition) (n : UInt32) (name : List UInt8) :
    walkStep disk part (n, FT_DIRECTORY) name =
      (lookup disk (diskInode disk part n.toNat) name).map fun e => (e.iNo, e.fType) := if_pos rfl

theorem walk_entry {n : UInt32} {e : DirEntry}
    (hfound : lookup fs.disk (diskInode fs.disk fs.part n.toNat) name = some e)
    (rest : List (List UInt8)) : walk fs.disk fs.part (n, FT_DIRECTORY) (name :: rest) =
      walk fs.disk fs.part (e.iNo, e.fType) rest := by
  rw [walk_cons, walkStep_dir, hfound]
  rfl

theorem walk_missing {n : UInt32}
    (hmiss : lookup fs.disk (diskInode fs.disk fs.part n.toNat) name = none)
    (rest : List (List UInt8)) :
    walk fs.disk fs.part (n, FT_DIRECTORY) (name :: rest) = none := by
  rw [walk_cons, walkStep_dir, hmiss]
  rfl

/-- A way to a directory goes on to what it lists. -/
theorem walk_snoc {x : UInt32 × UInt32} {front : List (List UInt8)} {p : UInt32} {e : DirEntry}
    (hwalk : walk fs.disk fs.part x front = some (p, FT_DIRECTORY))
    (hfound : lookup fs.disk (diskInode fs.disk fs.part p.toNat) name = some e) :
    walk fs.disk fs.part x (front ++ [name]) = some (e.iNo, e.fType) := by
  rw [walk_append, hwalk, Option.bind_some, walk_entry hfound, walk_nil]

/-- From a regular file no way leads on. -/
theorem walk_file (disk : Bytes) (part : Partition) (n : UInt32) (hne : comps ≠ []) :
    walk disk part (n, FT_REGULAR) comps = none := by
  cases comps with
  | nil => exact absurd rfl hne
  | cons name comps =>
    have hdir : ¬ FT_REGULAR = FT_DIRECTORY := by decide
    rw [walk_cons, walkStep, if_neg hdir]
    rfl

/-- What is stored of an inode determines what is listed. -/
theorem lookup_stored {disk : Bytes} {a b : Inode} (h : Inode.SameStored a b) (name : List UInt8) :
    lookup disk a name = lookup disk b name := by
  have hblocks : blockAt disk a = blockAt disk b := blockAt_congr h.iSectors fun _ _ _ _ => rfl
  rw [lookup, lookup, entries_congr (fun k _ => congrFun hblocks k) fun _ _ _ _ _ _ => rfl]

theorem readable_stored {disk : Bytes} {a b : Inode} (h : Inode.SameStored a b)
    (hr : Readable disk b) : Readable disk a := by
  have hblocks : blockAt disk a = blockAt disk b := blockAt_congr h.iSectors fun _ _ _ _ => rfl
  exact ⟨h.iSectors 12 (by decide) ▸ hr.table, hblocks ▸ hr.blocks⟩

/-- An open directory is searched as it is on disk. -/
theorem DirAt.search {n : Nat} {dir : Dir} {l : List OpenInode} {nd : Inode}
    (h : DirAt fs n dir l nd) (hheap : fs.heap = fun _ => true)
    (hsize : fs.part.sb.dirEntrySize = 24)
    (hr : Readable fs.disk (diskInode fs.disk fs.part n)) (name : List UInt8) :
    searchDirEntry (fs.setOpenInodes l) nd name =
      .ok (lookup fs.disk (diskInode fs.disk fs.part n) name, fs.setOpenInodes l) := by
  rw [← lookup_stored h.stored]
  exact @searchDirEntry_eq nd (fs.setOpenInodes l) hheap hsize (readable_stored h.stored hr) name

theorem TreeOk.opens (ht : TreeOk fs dirs) (hheap : fs.heap = fun _ => true) {n : Nat}
    (hn : dirs n) : ∃ dir l nd, dirOpen fs n = .ok (dir, fs.setOpenInodes l) ∧
      dir.isRoot = false ∧ DirAt fs n dir l nd :=
  dirOpen_ok ht.fits hheap ht.openOk (ht.small n hn) (ht.number n hn) fun o ho hon =>
    hon ▸ ht.stored o ho (hon.symm ▸ hn)

theorem TreeOk.atRoot (ht : TreeOk fs dirs) :
    ∃ nd, DirAt fs 0 fs.root fs.part.openInodes nd := by
  obtain ⟨o, ho, href, hno⟩ := ht.rootOpen
  have hzero : o.inode.iNo.toNat = 0 := by rw [hno]; rfl
  have := dirAt_root ht.openOk ho href (ht.stored o ho (hzero.symm ▸ ht.root))
  rw [hzero] at this
  exact ⟨_, this⟩

/-! ## Where the search stops -/

/-- How a search from directory `n` ends. `last` is the number found before it, `pre` the
path searched before it. -/
inductive Stop (fs : Fs) (n last : UInt32) (pre : List UInt8) (comps : List (List UInt8)) :
    UInt32 × PathSearchRecord × Fs → Prop
  /-- a component that its directory does not list -/
  | missing (front rest : List (List UInt8)) (name : List UInt8) (p : UInt32) (dir : Dir)
      (l : List OpenInode) (nd : Inode) (hsplit : comps = front ++ name :: rest)
      (hwalk : walk fs.disk fs.part (n, FT_DIRECTORY) front = some (p, FT_DIRECTORY))
      (hat : DirAt fs p.toNat dir l nd)
      (hlookup : lookup fs.disk (diskInode fs.disk fs.part p.toNat) name = none) :
      Stop fs n last pre comps
        (-1, ⟨pre ++ joinPath (front ++ [name]), dir, FT_UNKNOWN⟩, fs.setOpenInodes l)
  /-- a component that is a regular file -/
  | file (front rest : List (List UInt8)) (name : List UInt8) (p : UInt32) (e : DirEntry)
      (dir : Dir) (l : List OpenInode) (nd : Inode) (hsplit : comps = front ++ name :: rest)
      (hwalk : walk fs.disk fs.part (n, FT_DIRECTORY) front = some (p, FT_DIRECTORY))
      (hat : DirAt fs p.toNat dir l nd)
      (hlookup : lookup fs.disk (diskInode fs.disk fs.part p.toNat) name = some e)
      (htype : e.fType = FT_REGULAR) (hsmall : e.iNo.toNat < 4096) :
      Stop fs n last pre comps
        (e.iNo, ⟨pre ++ joinPath (front ++ [name]), dir, FT_REGULAR⟩, fs.setOpenInodes l)
  /-- the end of the path, in a directory -/
  | directory (p parent : UInt32) (dir : Dir) (l : List OpenInode) (nd : Inode)
      (hwalk : walk fs.disk fs.part (n, FT_DIRECTORY) comps = some (p, FT_DIRECTORY))
      (hsmall : p.toNat < 4096) (hat : DirAt fs parent.toNat dir l nd) :
      Stop fs n last pre comps (if comps = [] then last else p,
        ⟨pre ++ joinPath comps, dir, FT_DIRECTORY⟩, fs.setOpenInodes l)

theorem joinPath_cons (name : List UInt8) (comps : List (List UInt8)) :
    joinPath (name :: comps) = slash :: name ++ joinPath comps := rfl

/-- A search that goes on from the directory of the first component. -/
theorem Stop.cons {n last : UInt32} {pre : List UInt8} {e : DirEntry}
    {r : UInt32 × PathSearchRecord × Fs}
    (hlookup : lookup fs.disk (diskInode fs.disk fs.part n.toNat) name = some e)
    (htype : e.fType = FT_DIRECTORY) (h : Stop fs e.iNo e.iNo (pre ++ slash :: name) comps r) :
    Stop fs n last pre (name :: comps) r := by
  have hstep : ∀ rest, walk fs.disk fs.part (n, FT_DIRECTORY) (name :: rest) =
      walk fs.disk fs.part (e.iNo, FT_DIRECTORY) rest := by
    intro rest
    rw [walk_entry hlookup, htype]
  have hpath : ∀ rest, pre ++ slash :: name ++ joinPath rest = pre ++ joinPath (name :: rest) := by
    intro rest
    rw [joinPath_cons, List.append_assoc]
  cases h with
  | missing front rest name' p dir l nd hsplit hwalk hat hmiss =>
    rw [hpath]
    exact .missing (name :: front) rest name' p dir l nd (by rw [hsplit]; rfl)
      ((hstep front).trans hwalk) hat hmiss
  | file front rest name' p e' dir l nd hsplit hwalk hat hfound htype' hsmall =>
    rw [hpath]
    exact .file (name :: front) rest name' p e' dir l nd (by rw [hsplit]; rfl)
      ((hstep front).trans hwalk) hat hfound htype' hsmall
  | directory p parent dir l nd hwalk hsmall hat =>
    have hp : (if comps = [] then e.iNo else p) = p := by
      split
      · rename_i hnil
        subst hnil
        cases hwalk
        rfl
      · rfl
    have : Stop fs n last pre (name :: comps) _ :=
      .directory p parent dir l nd ((hstep comps).trans hwalk) hsmall hat
    rw [if_neg (List.cons_ne_nil _ _)] at this
    rw [hpath, hp]
    exact this

/-- The components that are cut off fit the buffer: those behind an entry that is found. The ones
that are looked up in a directory leave room for a zero byte. -/
def PartsFit (fs : Fs) (n : UInt32) (comps : List (List UInt8)) : Prop :=
  ∀ front c rest at_, comps = front ++ c :: rest →
    walk fs.disk fs.part (n, FT_DIRECTORY) front = some at_ →
      c.length ≤ MAX_FILE_NAME_LEN ∧ (at_.2 = FT_DIRECTORY → c.length < MAX_FILE_NAME_LEN)

theorem PartsFit.first {n : UInt32} (h : PartsFit fs n (name :: comps)) :
    name.length < MAX_FILE_NAME_LEN := (h [] name comps _ rfl rfl).2 rfl

/-- Behind an entry the next component is cut off, whatever the entry is. -/
theorem PartsFit.next {n : UInt32} {e : DirEntry} {c : List UInt8}
    (h : PartsFit fs n (name :: comps))
    (hfound : lookup fs.disk (diskInode fs.disk fs.part n.toNat) name = some e)
    (hc : c ∈ comps.head?) : c.length ≤ MAX_FILE_NAME_LEN := by
  obtain ⟨rest, rfl⟩ := List.head?_eq_some_iff.mp hc
  exact (h [name] c rest _ rfl (walk_entry hfound [])).1

theorem PartsFit.tail {n : UInt32} {e : DirEntry} (h : PartsFit fs n (name :: comps))
    (hfound : lookup fs.disk (diskInode fs.disk fs.part n.toNat) name = some e)
    (htype : e.fType = FT_DIRECTORY) : PartsFit fs e.iNo comps := by
  intro front c rest at_ hsplit hwalk
  refine h (name :: front) c rest at_ (by rw [hsplit]; rfl) ?_
  rw [walk_entry hfound, htype, hwalk]

/-- Short components fit. -/
theorem partsFit_short {n : UInt32} (hshort : ∀ c ∈ comps, c.length < MAX_FILE_NAME_LEN) :
    PartsFit fs n comps := by
  intro front c rest at_ hsplit hwalk
  have hc : c.length < MAX_FILE_NAME_LEN := hshort c (by rw [hsplit]; simp)
  exact ⟨hc.le, fun _ => hc⟩

/-- The loop ends in one of the three ways; the induction is on the components left. -/
theorem searchLoop_stop (ht : TreeOk fs dirs) (hheap : fs.heap = fun _ => true) (fuel : Nat)
    {n parentNo : UInt32} {dir : Dir} {l : List OpenInode} {nd : Inode} {pre : List UInt8}
    {subPath : Option (List UInt8)} {dirE : DirEntry} (hn : dirs n.toNat)
    (hparent : dirs parentNo.toNat) (hat : DirAt fs n.toNat dir l nd)
    (hname : name = [] ∧ comps = [] ∨ comps = name :: restComponents subPath ∧ name ≠ [])
    (hfits : PartsFit fs n comps)
    (hlen : pre.length + (joinPath comps).length < MAX_PATH_LEN) (hfuel : comps.length < fuel) :
    ∃ r, searchLoop fuel name subPath dir parentNo pre dirE (fs.setOpenInodes l) = .ok r ∧
      Stop fs n dirE.iNo pre comps r := by
  induction fuel generalizing n parentNo dir l nd pre subPath dirE name comps with
  | zero => omega
  | succ fuel ih =>
    obtain ⟨rfl, rfl⟩ | ⟨rfl, hne⟩ := hname
    · obtain ⟨dir', l', nd', hopen, -, hat'⟩ := ht.opens hheap hparent
      rw [searchLoop, if_pos rfl]
      simp only [hat.close_same, ok_bind, hopen]
      have : Stop fs n dirE.iNo pre [] _ :=
        .directory n parentNo dir' l' nd' rfl (ht.small _ hn) hat'
      exact ⟨_, rfl, by simpa [joinPath] using this⟩
    · have hjoin : pre.length + (slash :: name ++ joinPath (restComponents subPath)).length <
          MAX_PATH_LEN := hlen
      rw [List.length_append] at hjoin
      have hpre : pre.length < 512 := by unfold MAX_PATH_LEN at hjoin; omega
      have hrecord : recordName pre name = .ok (pre ++ slash :: name) :=
        if_pos ⟨hfits.first, by rw [List.length_append]; omega⟩
      have hsearch := hat.search hheap ht.entrySize (ht.readable _ hn) name
      rw [searchLoop, if_neg hne]
      simp only [ASSERT_true hpre, ok_bind, hrecord, hat.inodeAt, hsearch]
      cases hfound : lookup fs.disk (diskInode fs.disk fs.part n.toNat) name with
      | none =>
        have : Stop fs n dirE.iNo pre (name :: restComponents subPath) _ :=
          .missing [] (restComponents subPath) name n dir l nd rfl rfl hat hfound
        exact ⟨_, rfl, by simpa [joinPath] using this⟩
      | some e =>
        obtain ⟨hmem, hename⟩ := lookup_mem hfound
        obtain ⟨hsmall, htype⟩ := ht.listed _ hn e hmem (hename ▸ hne)
        obtain ⟨name', rest, hparse, hcases⟩ := parseNext_ok fun c hc => hfits.next hfound hc
        simp only [hparse, ok_bind]
        obtain htype | ⟨htype, hdirs⟩ := htype
        · have hfile : ¬ e.fType = FT_DIRECTORY := by
            rw [htype]
            decide
          rw [if_neg hfile, if_pos htype]
          have : Stop fs n dirE.iNo pre (name :: restComponents subPath) _ :=
            .file [] (restComponents subPath) name n e dir l nd rfl rfl hat hfound htype hsmall
          exact ⟨_, rfl, by simpa [joinPath] using this⟩
        · obtain ⟨dir', l', nd', hopen, -, hat'⟩ := ht.opens hheap hdirs
          rw [if_pos htype]
          simp only [hat.close_same, ok_bind, hopen]
          have hpre' : (pre ++ slash :: name).length + (joinPath (restComponents subPath)).length <
              MAX_PATH_LEN := by
            rw [List.length_append]
            omega
          have hrest : ∃ r, searchLoop fuel name' rest dir' nd.iNo (pre ++ slash :: name) e
              (fs.setOpenInodes l') = .ok r ∧
              Stop fs e.iNo e.iNo (pre ++ slash :: name) (restComponents subPath) r :=
            ih hdirs (hat.no.symm ▸ hn) hat' (hcases.imp (fun h => ⟨h.2.1, h.1⟩) fun h => h)
              (hfits.tail hfound htype) hpre' (Nat.lt_of_succ_lt_succ hfuel)
          obtain ⟨r, hr, hstop⟩ := hrest
          exact ⟨r, hr, hstop.cons hfound htype⟩

/-- A loop that ends has taken no component that is too long. -/
theorem searchLoop_fits (ht : TreeOk fs dirs) (hheap : fs.heap = fun _ => true) (fuel : Nat)
    {n parentNo : UInt32} {dir : Dir} {l : List OpenInode} {nd : Inode} {pre : List UInt8}
    {subPath : Option (List UInt8)} {dirE : DirEntry} {r : UInt32 × PathSearchRecord × Fs}
    (hn : dirs n.toNat) (hat : DirAt fs n.toNat dir l nd) (hne : name ≠ [])
    (h : searchLoop fuel name subPath dir parentNo pre dirE (fs.setOpenInodes l) = .ok r) :
    PartsFit fs n (name :: restComponents subPath) := by
  induction fuel generalizing n parentNo dir l nd pre subPath dirE name with
  | zero => cases h
  | succ fuel ih =>
    have hsearch := hat.search hheap ht.entrySize (ht.readable _ hn) name
    rw [searchLoop, if_neg hne] at h
    obtain ⟨-, -, h⟩ := bind_ok.mp h
    obtain ⟨searched, hrecord, h⟩ := bind_ok.mp h
    simp only [hat.inodeAt, ok_bind, hsearch] at h
    have hfits : name.length < MAX_FILE_NAME_LEN := recordName_short hrecord
    intro front c rest at_ hsplit hwalk
    obtain ⟨rfl, hc⟩ | ⟨front, rfl, hrest⟩ := List.cons_eq_append_iff.mp hsplit
    · obtain ⟨rfl, -⟩ := List.cons.inj hc
      exact ⟨hfits.le, fun _ => hfits⟩
    cases hfound : lookup fs.disk (diskInode fs.disk fs.part n.toNat) name with
    | none =>
      rw [walk_missing hfound] at hwalk
      cases hwalk
    | some e =>
      obtain ⟨hmem, hename⟩ := lookup_mem hfound
      obtain ⟨-, htype⟩ := ht.listed _ hn e hmem (hename ▸ hne)
      rw [hfound] at h
      obtain ⟨⟨name', rest'⟩, hparse, h⟩ := bind_ok.mp h
      obtain ⟨hfits', hcases⟩ := parseNext_short hparse
      rw [walk_entry hfound] at hwalk
      obtain ⟨hnil, -, -⟩ | ⟨hcons, hne'⟩ := hcases
      · simp [hnil] at hrest
      rw [hcons] at hrest
      obtain htype | ⟨htype, hdirs⟩ := htype
      · -- behind a regular file the one component that has been cut off is the next
        rw [htype] at hwalk
        cases front with
        | nil =>
          obtain ⟨rfl, -⟩ := List.cons.inj hrest
          cases hwalk
          exact ⟨hfits', fun hdir => absurd hdir (by decide : FT_REGULAR ≠ FT_DIRECTORY)⟩
        | cons d front =>
          rw [walk_file _ _ _ (List.cons_ne_nil _ _)] at hwalk
          cases hwalk
      · obtain ⟨dir', l', nd', hopen, -, hat'⟩ := ht.opens hheap hdirs
        rw [if_pos htype] at h
        simp only [hat.close_same, ok_bind, hopen] at h
        rw [htype] at hwalk
        exact ih hdirs hat' hne' h front c rest at_ hrest hwalk

/-- The number the local `dir_e` of `search_file` holds at first. -/
def junkNo (fs : Fs) : UInt32 := (DirEntry.ofBytes fs.junk).iNo

/-- `search_file` on a path that is not one of the three it knows ends like its loop. -/
theorem searchFile_ends (ht : TreeOk fs dirs) (hheap : fs.heap = fun _ => true)
    {path : List UInt8} (hslash : path.head? = some slash) (hlen : path.length < MAX_PATH_LEN)
    (hfits : PartsFit fs 0 (components path))
    (hother : ¬ (path = rootPath ∨ path = rootDotPath ∨ path = rootDotDotPath)) :
    ∃ r, searchFile fs path = .ok r ∧ Stop fs 0 (junkNo fs) [] (components path) r := by
  obtain ⟨tail, rfl⟩ : ∃ tail, path = slash :: tail := by
    cases path with
    | nil => cases hslash
    | cons c tail => exact ⟨tail, by rw [Option.some.inj hslash]⟩
  have hlong : 1 < (slash :: tail).length := by
    cases tail with
    | nil => exact absurd (.inl rfl) hother
    | cons => simp
  have hjoin : (joinPath (components (slash :: tail))).length ≤ tail.length + 1 := by
    rw [components_slash]
    exact joinPath_length_le tail
  have hcount := components_length_le (slash :: tail)
  have hfirst : ∀ c ∈ (components (slash :: tail)).head?, c.length ≤ MAX_FILE_NAME_LEN := by
    intro c hc
    obtain ⟨rest, hrest⟩ := List.head?_eq_some_iff.mp hc
    exact (hfits [] c rest _ hrest rfl).1
  obtain ⟨name, rest, hparse, hcases⟩ := pathParse_ok hfirst
  obtain ⟨nd, hroot⟩ := ht.atRoot
  have hassert : (slash :: tail).head? = some slash ∧ 1 < (slash :: tail).length ∧
      (slash :: tail).length < MAX_PATH_LEN := ⟨rfl, hlong, hlen⟩
  rw [searchFile, if_neg hother, ASSERT_true hassert]
  simp only [ok_bind, hparse]
  have hname : name = [] ∧ components (slash :: tail) = [] ∨
      components (slash :: tail) = name :: restComponents rest ∧ name ≠ [] :=
    hcases.imp_left fun h => ⟨h.2.1, h.1⟩
  rw [List.length_cons] at hlen hcount
  have hjoin : ([] : List UInt8).length + (joinPath (components (slash :: tail))).length <
      MAX_PATH_LEN := by
    rw [List.length_nil]
    omega
  have := @searchLoop_stop fs dirs _ _ ht hheap ((slash :: tail).length + 2) 0 0 fs.root
    fs.part.openInodes nd [] rest (.ofBytes fs.junk) ht.root ht.root hroot hname hfits hjoin
    (by rw [List.length_cons]; omega)
  exact this

theorem searchFile_stop (ht : TreeOk fs dirs) (hheap : fs.heap = fun _ => true)
    {path : List UInt8} (hslash : path.head? = some slash) (hlen : path.length < MAX_PATH_LEN)
    (hshort : ∀ c ∈ components path, c.length < MAX_FILE_NAME_LEN)
    (hother : ¬ (path = rootPath ∨ path = rootDotPath ∨ path = rootDotDotPath)) :
    ∃ r, searchFile fs path = .ok r ∧ Stop fs 0 (junkNo fs) [] (components path) r :=
  searchFile_ends ht hheap hslash hlen (partsFit_short hshort) hother

/-- A search that ends was given an absolute path, and has taken no component that is too
long. -/
theorem searchFile_fits (ht : TreeOk fs dirs) (hheap : fs.heap = fun _ => true)
    {path : List UInt8} {r : UInt32 × PathSearchRecord × Fs} (h : searchFile fs path = .ok r)
    (hother : ¬ (path = rootPath ∨ path = rootDotPath ∨ path = rootDotDotPath)) :
    path.head? = some slash ∧ PartsFit fs 0 (components path) := by
  rw [searchFile, if_neg hother] at h
  obtain ⟨⟨⟩, hassert, h⟩ := bind_ok.mp h
  obtain ⟨⟨name, rest⟩, hparse, h⟩ := bind_ok.mp h
  refine ⟨(ASSERT_ok hassert).1, ?_⟩
  obtain ⟨-, ⟨hnil, -, -⟩ | ⟨hcons, hne⟩⟩ := pathParse_short hparse
  · exact partsFit_short (by simp [hnil])
  · obtain ⟨nd, hroot⟩ := ht.atRoot
    rw [hcons]
    have := @searchLoop_fits fs dirs _ ht hheap _ 0 0 fs.root fs.part.openInodes nd [] rest
      (.ofBytes fs.junk) r ht.root hroot hne h
    exact this

/-! ## Which paths resolve right -/

/-- What the answer of a search should be: a number other than -1 exactly when the whole path
leads somewhere, and the number and type of what it leads to. -/
structure ResolvesRight (fs : Fs) (path : List UInt8) (r : UInt32 × PathSearchRecord × Fs) :
    Prop where
  found : r.1 ≠ -1 ↔ (walk fs.disk fs.part (0, FT_DIRECTORY) (components path)).isSome
  last : ∀ n t, walk fs.disk fs.part (0, FT_DIRECTORY) (components path) = some (n, t) →
    r.1 = n ∧ r.2.1.fileType = t

/-- A regular file lies on the way, before the last component. -/
def FileInside (fs : Fs) (comps : List (List UInt8)) : Prop :=
  ∃ front rest n, comps = front ++ rest ∧ rest ≠ [] ∧
    walk fs.disk fs.part (0, FT_DIRECTORY) front = some (n, FT_REGULAR)

/-- The paths the search gets right: no regular file on the way, and a component unless it is
`/`, or a local that happens to hold the root's number. -/
def SearchesRight (fs : Fs) (path : List UInt8) : Prop :=
  ¬ FileInside fs (components path) ∧ (components path = [] → path = rootPath ∨ junkNo fs = 0)

theorem walk_fileInside (h : FileInside fs comps) :
    walk fs.disk fs.part (0, FT_DIRECTORY) comps = none := by
  obtain ⟨front, rest, n, rfl, hne, hwalk⟩ := h
  rw [walk_append, hwalk]
  exact walk_file _ _ _ hne

/-- Before a component that is missing there is no file on the way. -/
theorem missing_not_fileInside {front rest : List (List UInt8)} {p : UInt32}
    (hwalk : walk fs.disk fs.part (0, FT_DIRECTORY) front = some (p, FT_DIRECTORY))
    (hmiss : lookup fs.disk (diskInode fs.disk fs.part p.toNat) name = none) :
    ¬ FileInside fs (front ++ name :: rest) := by
  rintro ⟨front', rest', n, hsplit, hne, hfile⟩
  obtain ⟨mid, hfront, hrest⟩ | ⟨mid, hfront, hrest⟩ := List.append_eq_append_iff.mp hsplit
  · -- the file comes after a step that fails, or is the directory itself
    rw [hfront, walk_append, hwalk] at hfile
    cases mid with
    | nil => exact absurd hfile (by simp [FT_DIRECTORY, FT_REGULAR])
    | cons c mid =>
      obtain ⟨rfl, -⟩ := List.cons.inj hrest
      simp [walk_cons, walkStep_dir, hmiss] at hfile
  · rw [hfront, walk_append, hfile] at hwalk
    cases mid with
    | nil => exact absurd hwalk (by simp [FT_DIRECTORY, FT_REGULAR])
    | cons c mid => simp [walk_file] at hwalk

theorem ne_minusOne {n : UInt32} (h : n.toNat < 4096) : n ≠ -1 := by
  rintro rfl
  revert h
  decide

theorem Stop.right_iff {path : List UInt8} {r : UInt32 × PathSearchRecord × Fs}
    (h : Stop fs 0 (junkNo fs) [] (components path) r) (hother : path ≠ rootPath) :
    ResolvesRight fs path r ↔ SearchesRight fs path := by
  cases hr : h with
  | missing front rest name p dir l nd hsplit hwalk hat hmiss =>
    have hnone : walk fs.disk fs.part (0, FT_DIRECTORY) (components path) = none := by
      rw [hsplit, walk_append, hwalk, Option.bind_some, walk_missing hmiss]
    constructor
    · refine fun _ => ⟨hsplit ▸ missing_not_fileInside hwalk hmiss, fun hnil => ?_⟩
      simp [hsplit] at hnil
    · refine fun _ => ⟨by simp [hnone], fun n t hsome => ?_⟩
      rw [hnone] at hsome
      cases hsome
  | file front rest name p e dir l nd hsplit hwalk hat hfound htype hsmall =>
    have hfile : walk fs.disk fs.part (0, FT_DIRECTORY) (front ++ [name]) =
        some (e.iNo, FT_REGULAR) := by
      rw [walk_snoc hwalk hfound, htype]
    cases rest with
    | nil =>
      rw [← hsplit] at hfile
      constructor
      · refine fun _ => ⟨fun hin => ?_, fun hnil => ?_⟩
        · rw [walk_fileInside hin] at hfile
          cases hfile
        · simp [hsplit] at hnil
      · refine fun _ => ⟨by simp [hfile, ne_minusOne hsmall], fun n t hsome => ?_⟩
        rw [hfile] at hsome
        cases hsome
        exact ⟨rfl, rfl⟩
    | cons c rest =>
      have hin : FileInside fs (components path) :=
        ⟨front ++ [name], c :: rest, e.iNo, by rw [hsplit]; simp, List.cons_ne_nil _ _, hfile⟩
      constructor
      · intro hright
        have := hright.found.mp (ne_minusOne hsmall)
        rw [walk_fileInside hin] at this
        cases this
      · exact fun hright => absurd hin hright.1
  | directory p parent dir l nd hwalk hsmall hat =>
    have hnot : ¬ FileInside fs (components path) := fun hin => by
      rw [walk_fileInside hin] at hwalk
      cases hwalk
    by_cases hnil : components path = []
    · rw [hnil] at hwalk
      cases hwalk
      simp only [if_pos hnil]
      constructor
      · refine fun hright => ⟨hnot, fun _ => .inr ?_⟩
        exact (hright.last 0 FT_DIRECTORY (by rw [hnil]; rfl)).1
      · intro hright
        have hzero := (hright.2 hnil).resolve_left hother
        refine ⟨by simp [hzero, hnil], fun n t hsome => ?_⟩
        rw [hnil] at hsome
        cases hsome
        exact ⟨hzero, rfl⟩
    · simp only [if_neg hnil]
      constructor
      · exact fun _ => ⟨hnot, fun h => absurd h hnil⟩
      · refine fun _ => ⟨by simp [hwalk, ne_minusOne hsmall], fun n t hsome => ?_⟩
        rw [hwalk] at hsome
        cases hsome
        exact ⟨rfl, rfl⟩

theorem components_dots {path : List UInt8} (h : path = rootDotPath ∨ path = rootDotDotPath) :
    ∃ name, (name = dot ∨ name = dotDot) ∧ components path = [name] := by
  obtain rfl | rfl := h
  · refine ⟨dot, .inl rfl, ?_⟩
    rw [rootDotPath, components_slash, components_word (by decide) (by decide)]
  · refine ⟨dotDot, .inr rfl, ?_⟩
    rw [rootDotDotPath, components_slash, components_word (by decide) (by decide)]

/-- The paths that the search knows lead to the root directory. -/
theorem TreeOk.known_walk (ht : TreeOk fs dirs) {path : List UInt8}
    (hknown : path = rootPath ∨ path = rootDotPath ∨ path = rootDotDotPath) :
    walk fs.disk fs.part (0, FT_DIRECTORY) (components path) = some (0, FT_DIRECTORY) := by
  obtain rfl | hdots := hknown
  · rw [rootPath, components_slash, components_nil, walk_nil]
  · obtain ⟨name, hname, hcomps⟩ := components_dots hdots
    obtain ⟨e, he, hno, htype⟩ := ht.rootDots name hname
    have hfound : lookup fs.disk (diskInode fs.disk fs.part (0 : UInt32).toNat) name = some e := he
    rw [hcomps, walk_entry hfound, walk_nil, hno, htype]

/-- The search gets exactly these paths right. -/
theorem searchFile_right_iff (ht : TreeOk fs dirs) (hheap : fs.heap = fun _ => true)
    {path : List UInt8} (hslash : path.head? = some slash) (hlen : path.length < MAX_PATH_LEN)
    (hshort : ∀ c ∈ components path, c.length < MAX_FILE_NAME_LEN) :
    ∃ r, searchFile fs path = .ok r ∧ (ResolvesRight fs path r ↔ SearchesRight fs path) := by
  by_cases hknown : path = rootPath ∨ path = rootDotPath ∨ path = rootDotDotPath
  · refine ⟨(0, ⟨[], fs.root, FT_DIRECTORY⟩, fs), if_pos hknown, ?_⟩
    have hwalk := ht.known_walk hknown
    constructor
    · refine fun _ => ⟨fun hin => ?_, fun hnil => ?_⟩
      · rw [walk_fileInside hin] at hwalk
        cases hwalk
      · obtain rfl | hdots := hknown
        · exact .inl rfl
        · obtain ⟨name, -, hcomps⟩ := components_dots hdots
          rw [hcomps] at hnil
          cases hnil
    · refine fun _ => ⟨by simp [hwalk], fun n t hsome => ?_⟩
      rw [hwalk] at hsome
      cases hsome
      exact ⟨rfl, rfl⟩
  · obtain ⟨r, hr, hstop⟩ := searchFile_stop ht hheap hslash hlen hshort hknown
    exact ⟨r, hr, hstop.right_iff fun h => hknown (.inl h)⟩

/-! ## A component that is missing -/

/-- `name` is the first component that is missing: those before it lead to the directory `p`,
which does not list it. -/
structure MissingAt (fs : Fs) (comps front : List (List UInt8)) (name : List UInt8)
    (rest : List (List UInt8)) (p : UInt32) : Prop where
  split : comps = front ++ name :: rest
  leads : walk fs.disk fs.part (0, FT_DIRECTORY) front = some (p, FT_DIRECTORY)
  unlisted : lookup fs.disk (diskInode fs.disk fs.part p.toNat) name = none

/-- What a search leaves that finds `name` missing in the directory `p`. -/
structure StopsAt (fs : Fs) (path : List UInt8) (front : List (List UInt8)) (name : List UInt8)
    (rest : List (List UInt8)) (p : UInt32) (r : UInt32 × PathSearchRecord × Fs) : Prop where
  result : r.1 = -1
  searched : r.2.1.searchedPath = joinPath (front ++ [name])
  earlier : ∀ a b, front = a ++ b →
    ∃ n, walk fs.disk fs.part (0, FT_DIRECTORY) a = some (n, FT_DIRECTORY)
  parentOpen : ∃ l nd, r.2.2 = fs.setOpenInodes l ∧ DirAt fs p.toNat r.2.1.parentDir l nd
  depths : ∀ junk junk', ∃ searched wanted, pathDepthCnt junk r.2.1.searchedPath = .ok searched ∧
    pathDepthCnt junk' path = .ok wanted ∧ (searched = wanted ↔ rest = [])

/-- A way that goes on started from a directory. -/
theorem walk_front {front rest : List (List UInt8)} {x : UInt32 × UInt32} {n : UInt32}
    (hwalk : walk fs.disk fs.part x (front ++ rest) = some (n, FT_DIRECTORY)) :
    ∃ m, walk fs.disk fs.part x front = some (m, FT_DIRECTORY) := by
  rw [walk_append, Option.bind_eq_some_iff] at hwalk
  obtain ⟨⟨m, t⟩, hfront, hrest⟩ := hwalk
  refine ⟨m, ?_⟩
  cases rest with
  | nil =>
    cases hrest
    exact hfront
  | cons c rest =>
    rw [walk_cons, walkStep] at hrest
    by_cases ht : t = FT_DIRECTORY
    · rw [hfront, ht]
    · rw [if_neg ht] at hrest
      cases hrest

theorem MissingAt.walk_none {front rest : List (List UInt8)} {p : UInt32}
    (h : MissingAt fs comps front name rest p) :
    walk fs.disk fs.part (0, FT_DIRECTORY) comps = none := by
  rw [h.split, walk_append, h.leads, Option.bind_some, walk_missing h.unlisted]

/-- No way leads past a component that is missing. -/
theorem MissingAt.not_past {front front' mid rest : List (List UInt8)} {p q : UInt32}
    (h : MissingAt fs comps front name rest p) (hfront : front' = front ++ name :: mid) :
    walk fs.disk fs.part (0, FT_DIRECTORY) front' ≠ some (q, FT_DIRECTORY) := by
  have hmiss : MissingAt fs front' front name mid p := ⟨hfront, h.leads, h.unlisted⟩
  rw [hmiss.walk_none]
  exact nofun

/-- Two places in a list are one when neither lies behind the other. -/
theorem append_cons_unique {α : Type} {front front' rest rest' : List α} {a b : α}
    (h : front ++ a :: rest = front' ++ b :: rest') (hpast : ∀ mid, front' ≠ front ++ a :: mid)
    (hpast' : ∀ mid, front ≠ front' ++ b :: mid) : front = front' ∧ a = b ∧ rest = rest' := by
  have hfront : front = front' := by
    obtain ⟨mid, hfront, hrest⟩ | ⟨mid, hfront, hrest⟩ := List.append_eq_append_iff.mp h
    · cases mid with
      | nil => rw [hfront, List.append_nil]
      | cons c mid =>
        obtain ⟨rfl, -⟩ := List.cons.inj hrest
        exact absurd hfront (hpast mid)
    · cases mid with
      | nil => rw [hfront, List.append_nil]
      | cons c mid =>
        obtain ⟨rfl, -⟩ := List.cons.inj hrest
        exact absurd hfront (hpast' mid)
  subst hfront
  exact ⟨rfl, List.cons.inj (List.append_cancel_left h)⟩

theorem MissingAt.unique {front front' rest rest' : List (List UInt8)} {name' : List UInt8}
    {p q : UInt32} (h : MissingAt fs comps front name rest p)
    (h' : MissingAt fs comps front' name' rest' q) :
    front = front' ∧ name = name' ∧ rest = rest' ∧ p = q := by
  obtain ⟨rfl, rfl, rfl⟩ := append_cons_unique (h.split.symm.trans h'.split)
    (fun _ hfront => h.not_past hfront h'.leads) fun _ hfront => h'.not_past hfront h.leads
  have hleads := h.leads.symm.trans h'.leads
  exact ⟨rfl, rfl, rfl, congrArg Prod.fst (Option.some.inj hleads)⟩

/-- The searched path has the depth of the whole one when nothing is left of it. -/
theorem depths_missing {path : List UInt8} {front rest : List (List UInt8)}
    (hsplit : components path = front ++ name :: rest)
    (hshort : ∀ c ∈ components path, c.length ≤ MAX_FILE_NAME_LEN) (junk junk' : UInt8) :
    ∃ searched wanted, pathDepthCnt junk (joinPath (front ++ [name])) = .ok searched ∧
      pathDepthCnt junk' path = .ok wanted ∧ (searched = wanted ↔ rest = []) := by
  have hmem : ∀ c ∈ front ++ [name], c ∈ components path := by
    intro c hc
    rw [hsplit, List.append_cons]
    exact List.mem_append_left _ hc
  have hcomps : components (joinPath (front ++ [name])) = front ++ [name] :=
    components_joinPath fun c hc => component_word (hmem c hc)
  have hsearched := @pathDepthCnt_ok (joinPath (front ++ [name]))
    (by rw [hcomps]; exact fun c hc => hshort c (hmem c hc)) (by simp [hcomps]) junk
  have hwanted := pathDepthCnt_ok hshort (by simp [hsplit]) junk'
  refine ⟨_, _, hsearched, hwanted, ?_⟩
  rw [hcomps, hsplit, List.length_append, List.length_append, List.length_cons, List.length_cons,
    List.length_nil, ← List.length_eq_zero_iff]
  omega

/-- The search answers -1 exactly when a component is missing. -/
theorem Stop.missing_iff {r : UInt32 × PathSearchRecord × Fs}
    (h : Stop fs 0 (junkNo fs) [] comps r) (hsome : comps ≠ []) :
    r.1 = -1 ↔ ∃ front name rest p, MissingAt fs comps front name rest p := by
  cases h with
  | missing front rest name p dir l nd hsplit hwalk hat hmiss =>
    exact ⟨fun _ => ⟨front, name, rest, p, hsplit, hwalk, hmiss⟩, fun _ => rfl⟩
  | file front rest name p e dir l nd hsplit hwalk hat hfound htype hsmall =>
    refine ⟨fun h => absurd h (ne_minusOne hsmall), fun ⟨front', name', rest', q, hmiss⟩ => ?_⟩
    have hfile : walk fs.disk fs.part (0, FT_DIRECTORY) (front ++ [name]) =
        some (e.iNo, FT_REGULAR) := by
      rw [walk_snoc hwalk hfound, htype]
    cases rest with
    | nil =>
      rw [← hsplit, hmiss.walk_none] at hfile
      cases hfile
    | cons c rest =>
      have hin : FileInside fs (front' ++ name' :: rest') :=
        ⟨front ++ [name], c :: rest, e.iNo, by rw [← hmiss.split, hsplit]; simp,
          List.cons_ne_nil _ _, hfile⟩
      exact absurd hin (missing_not_fileInside hmiss.leads hmiss.unlisted)
  | directory p parent dir l nd hwalk hsmall hat =>
    rw [if_neg hsome]
    refine ⟨fun h => absurd h (ne_minusOne hsmall), fun ⟨front, name, rest, q, hmiss⟩ => ?_⟩
    rw [hmiss.walk_none] at hwalk
    cases hwalk

theorem Stop.stopsAt {path : List UInt8} {r : UInt32 × PathSearchRecord × Fs}
    (h : Stop fs 0 (junkNo fs) [] (components path) r)
    (hshort : ∀ c ∈ components path, c.length ≤ MAX_FILE_NAME_LEN) (hminus : r.1 = -1)
    {front rest : List (List UInt8)} {p : UInt32}
    (hmiss : MissingAt fs (components path) front name rest p) :
    StopsAt fs path front name rest p r := by
  cases h with
  | missing front' rest' name' q dir l nd hsplit hwalk hat hlookup =>
    obtain ⟨rfl, rfl, rfl, rfl⟩ := hmiss.unique ⟨hsplit, hwalk, hlookup⟩
    exact ⟨rfl, rfl, fun a b hab => walk_front (hab ▸ hwalk), ⟨l, nd, rfl, hat⟩,
      depths_missing hsplit hshort⟩
  | file front' rest' name' q e dir l nd hsplit hwalk hat hfound htype hsmall =>
    exact absurd hminus (ne_minusOne hsmall)
  | directory q parent dir l nd hwalk hsmall hat =>
    rw [hmiss.walk_none] at hwalk
    cases hwalk

/-- The three paths the search knows miss nothing. -/
theorem MissingAt.not_known (ht : TreeOk fs dirs) {path : List UInt8}
    {front rest : List (List UInt8)} {p : UInt32}
    (h : MissingAt fs (components path) front name rest p) :
    ¬ (path = rootPath ∨ path = rootDotPath ∨ path = rootDotDotPath) := by
  intro hknown
  have hwalk := ht.known_walk hknown
  rw [h.walk_none] at hwalk
  cases hwalk

/-- A search that finds a component missing says so, and stands at the directory that
misses it. -/
theorem searchFile_missing (ht : TreeOk fs dirs) (hheap : fs.heap = fun _ => true)
    {path : List UInt8} (hslash : path.head? = some slash) (hlen : path.length < MAX_PATH_LEN)
    (hsome : components path ≠ [])
    (hshort : ∀ c ∈ components path, c.length < MAX_FILE_NAME_LEN) :
    ∃ r, searchFile fs path = .ok r ∧
      (r.1 = -1 ↔ ∃ front name rest p, MissingAt fs (components path) front name rest p) ∧
      ∀ front name rest p, MissingAt fs (components path) front name rest p →
        StopsAt fs path front name rest p r := by
  by_cases hknown : path = rootPath ∨ path = rootDotPath ∨ path = rootDotDotPath
  · have hno : ∀ front name rest p, ¬ MissingAt fs (components path) front name rest p :=
      fun front name rest p hmiss => hmiss.not_known ht hknown
    refine ⟨(0, ⟨[], fs.root, FT_DIRECTORY⟩, fs), if_pos hknown, ?_, ?_⟩
    · have hzero : (0 : UInt32) ≠ -1 := by decide
      exact ⟨fun h => absurd h hzero, fun ⟨front, name, rest, p, h⟩ =>
          absurd h (hno front name rest p)⟩
    · exact fun front name rest p h => absurd h (hno front name rest p)
  · obtain ⟨r, hr, hstop⟩ := searchFile_stop ht hheap hslash hlen hshort hknown
    have hiff := hstop.missing_iff hsome
    exact ⟨r, hr, hiff, fun front name rest p hmiss =>
      hstop.stopsAt (fun c hc => (hshort c hc).le) (hiff.mpr ⟨front, name, rest, p, hmiss⟩) hmiss⟩

/-- An image whose root directory, in block 612, lists `.`, `..` and a regular file `f`. -/
def treeDisk : Bytes := fun a =>
  if a = 2048 + 4 then 72
  else if a = 2048 + 16 then 0x64
  else if a = 2048 + 17 then 0x02
  else if a = 612 * 512 ∨ a = 612 * 512 + 24 ∨ a = 612 * 512 + 25 then 46
  else if a = 612 * 512 + 20 ∨ a = 612 * 512 + 44 then 2
  else if a = 612 * 512 + 48 then 102
  else if a = 612 * 512 + 64 ∨ a = 612 * 512 + 68 then 1
  else 0

def treeFs : Fs where
  disk := treeDisk
  part := { tablePartition with
    openInodes := [⟨1, { diskInode treeDisk tablePartition 0 with iOpenCnts := 1 }⟩] }
  rootDir := 1
  fileTable := fun _ => ⟨0, 0, none⟩
  fdTable := fun _ => none
  heap := fun _ => true
  junk := fun _ => 0

theorem treeFs_lookup (name : List UInt8) (h : name = dot ∨ name = dotDot) :
    (lookup treeFs.disk (diskInode treeFs.disk treeFs.part 0) name).map
      (fun e => (e.iNo, e.fType)) = some (0, FT_DIRECTORY) := by
  obtain rfl | rfl := h <;> decide +kernel

theorem treeFs_listed : ∀ e ∈ entries treeFs.disk (diskInode treeFs.disk treeFs.part 0),
    e.name ≠ [] → e.iNo.toNat < 4096 ∧
      (e.fType = FT_REGULAR ∨ e.fType = FT_DIRECTORY ∧ e.iNo.toNat = 0) := by
  decide +kernel

theorem treeFs_blocks : ∀ k < 140,
    (blockAt treeFs.disk (diskInode treeFs.disk treeFs.part 0) k).toNat ≤ max_lba := by
  decide +kernel

theorem treeFs_ok : TreeOk treeFs fun n => n = 0 where
  fits := ⟨tablePartition_fits.disk, tablePartition_fits.part⟩
  entrySize := rfl
  openOk := ⟨by decide, List.nodup_singleton _, fun o ho => by
    rw [List.mem_singleton.mp ho]
    decide⟩
  root := rfl
  rootOpen := ⟨_, List.mem_singleton.mpr rfl, rfl, by decide⟩
  small n hn := by rw [hn]; decide
  number n hn := by rw [hn]; decide
  readable n hn := by
    subst hn
    exact ⟨by decide, treeFs_blocks⟩
  stored o ho _ := by
    rw [List.mem_singleton.mp ho]
    exact ⟨rfl, rfl, fun _ _ => rfl⟩
  listed n hn := by
    subst hn
    exact treeFs_listed
  rootDots name hname := by
    have := treeFs_lookup name hname
    rw [Option.map_eq_some_iff] at this
    obtain ⟨e, he, heq⟩ := this
    exact ⟨e, he, congrArg Prod.fst heq, congrArg Prod.snd heq⟩

/-- `/f` -/
def pathF : List UInt8 := [47, 102]
/-- `/f/x` -/
def pathFX : List UInt8 := [47, 102, 47, 120]

theorem components_pathF : components pathF = [[102]] := by
  rw [pathF, ← slash, components_slash, components_word (by decide) (by decide)]

theorem components_pathFX : components pathFX = [[102], [120]] := by
  have hsplit : pathFX = slash :: ([102] ++ slash :: [120]) := rfl
  rw [hsplit, components_slash, components_word_slash (by decide) (by decide),
    components_word (by decide) (by decide)]

theorem searchFile_right_iff_file : ∃ r, searchFile treeFs pathF = .ok r ∧
    (ResolvesRight treeFs pathF r ↔ SearchesRight treeFs pathF) :=
  searchFile_right_iff treeFs_ok rfl rfl (by decide) (by rw [components_pathF]; decide)

/-- `/x//y/`: nothing has this name. -/
def pathXY : List UInt8 := [47, 120, 47, 47, 121, 47]

theorem components_pathXY : components pathXY = [[120], [121]] := by
  have hsplit : pathXY = slash :: ([120] ++ slash :: slash :: ([121] ++ slash :: [])) := rfl
  rw [hsplit, components_slash, components_word_slash (by decide) (by decide), components_slash,
    components_word_slash (by decide) (by decide), components_nil]

theorem searchFile_missing_first : ∃ r, searchFile treeFs pathXY = .ok r ∧
    (r.1 = -1 ↔ ∃ front name rest p, MissingAt treeFs (components pathXY) front name rest p) ∧
    ∀ front name rest p, MissingAt treeFs (components pathXY) front name rest p →
      StopsAt treeFs pathXY front name rest p r :=
  searchFile_missing treeFs_ok rfl rfl (by decide) (by rw [components_pathXY]; decide)
    (by rw [components_pathXY]; decide)

/-- `f` is a regular file, so that `/f/x` names nothing; it is found all the same. -/
theorem searchFile_through_file : ∃ r, searchFile treeFs pathFX = .ok r ∧
    ¬ ResolvesRight treeFs pathFX r := by
  have hsearch : ∃ r, searchFile treeFs pathFX = .ok r ∧
      Stop treeFs 0 (junkNo treeFs) [] (components pathFX) r :=
    searchFile_stop treeFs_ok rfl rfl (by decide) (by rw [components_pathFX]; decide) (by decide)
  obtain ⟨r, hr, hstop⟩ := hsearch
  refine ⟨r, hr, fun hright => ?_⟩
  refine ((hstop.right_iff (by decide)).mp hright).1
    ⟨[[102]], [[120]], 1, components_pathFX, List.cons_ne_nil _ _, ?_⟩
  decide +kernel

end ZhuOS
