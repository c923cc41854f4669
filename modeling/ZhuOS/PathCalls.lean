import ZhuOS.DirRoom
import ZhuOS.Releases

/-!
# The calls that take a path, on every path

`search_file` asserts that the path is absolute, and `path_parse` copies each component into 16
bytes. The answer for the root directory is 0, which `sys_unlink` and `sys_rmdir` assert it is
not, and a path of slashes alone gets its answer from a local that nobody has written.
-/

namespace ZhuOS

open ByteMem

set_option maxRecDepth 2000

variable {fs fs₁ fs₂ : Fs} {dirs : Nat → Prop} {path : List UInt8} {n k : Nat} {no : UInt32}
  {record : PathSearchRecord} {held : Nat → Nat}

/-! ## The search -/

/-- The search comes to its end on the three paths it knows, and on an absolute path when the
components fit that it cuts off. -/
def SearchFits (fs : Fs) (path : List UInt8) : Prop :=
  (path = rootPath ∨ path = rootDotPath ∨ path = rootDotDotPath) ∨
    path.head? = some slash ∧ PartsFit fs 0 (components path)

theorem searchFile_ends_iff (ht : TreeOk fs dirs) (hheap : fs.heap = fun _ => true)
    (hlen : path.length < MAX_PATH_LEN) :
    (∃ r, searchFile fs path = .ok r) ↔ SearchFits fs path := by
  by_cases hknown : path = rootPath ∨ path = rootDotPath ∨ path = rootDotDotPath
  · exact ⟨fun _ => .inl hknown, fun _ => ⟨_, if_pos hknown⟩⟩
  · constructor
    · rintro ⟨r, h⟩
      exact .inr (searchFile_fits ht hheap h hknown)
    · intro hfits
      obtain ⟨hslash, hshort⟩ := hfits.resolve_left hknown
      obtain ⟨r, h, -⟩ := searchFile_ends ht hheap hslash hlen hshort hknown
      exact ⟨r, h⟩

/-- A path other than `/` has a component. -/
def HasName (path : List UInt8) : Prop := path = rootPath ∨ components path ≠ []

/-- The path leads to the root directory. -/
def LeadsToRoot (fs : Fs) (path : List UInt8) : Prop :=
  walk fs.disk fs.part (0, FT_DIRECTORY) (components path) = some (0, FT_DIRECTORY)

namespace Stop

variable {last : UInt32} {pre : List UInt8} {comps : List (List UInt8)}
  {r : UInt32 × PathSearchRecord × Fs}

theorem state (h : Stop fs no last pre comps r) : ∃ l, r.2.2 = fs.setOpenInodes l := by
  cases h with
  | missing front rest name p dir l => exact ⟨l, rfl⟩
  | file front rest name p e dir l => exact ⟨l, rfl⟩
  | directory p parent dir l => exact ⟨l, rfl⟩

theorem small (h : Stop fs no last pre comps r) (hsome : comps ≠ []) :
    r.1 = -1 ∨ r.1.toNat < 4096 := by
  cases h with
  | missing => exact .inl rfl
  | file front rest name p e dir l nd hsplit hwalk hat hfound htype hsmall => exact .inr hsmall
  | directory p parent dir l nd hwalk hsmall =>
    rw [if_neg hsome]
    exact .inr hsmall

/-- The number of the root directory is found when the path leads to it. -/
theorem zero_iff (h : Stop fs 0 last [] comps r) (ht : FileTree fs dirs) (hsome : comps ≠ [])
    (hnames : ∀ c ∈ comps, c ≠ []) :
    r.1 = 0 ↔ walk fs.disk fs.part (0, FT_DIRECTORY) comps = some (0, FT_DIRECTORY) := by
  constructor
  · intro hzero
    cases h with
    | missing front rest name p dir l nd hsplit hwalk hat hmiss =>
      exact absurd hzero (by decide : (-1 : UInt32) ≠ 0)
    | file front rest name p e dir l nd hsplit hwalk hat hfound htype hsmall =>
      -- the root directory is no regular file
      have hroot : dirs (0 : UInt32).toNat := ht.root
      obtain ⟨hmem, rfl⟩ := lookup_mem hfound
      have hp : dirs p.toNat := ht.leads hroot
        (fun c hc => hnames c (hsplit ▸ List.mem_append_left _ hc)) hwalk
      have hne : e.name ≠ [] := hnames _ (by rw [hsplit]; simp)
      have hnot := (ht.file _ hp e hmem hne htype).2.notDir
      have hzero : e.iNo = 0 := hzero
      exact absurd (hzero ▸ hroot) hnot
    | directory p parent dir l nd hwalk hsmall hat =>
      rw [if_neg hsome] at hzero
      have hzero : p = 0 := hzero
      exact hzero ▸ hwalk
  · intro hwalk
    have hans : Answers fs comps (0, FT_DIRECTORY) :=
      ⟨comps, [], by rw [List.append_nil], hwalk, .inl rfl⟩
    have hfound := h.found hsome hans
    exact congrArg Prod.fst ((h.answers hsome hfound).unique hans)

end Stop

/-- The first regular file on the way is the entry `e` of the directory `p`. -/
def FileOn (fs : Fs) (comps : List (List UInt8)) (p : UInt32) (e : DirEntry) : Prop :=
  ∃ front name rest, comps = front ++ name :: rest ∧
    walk fs.disk fs.part (0, FT_DIRECTORY) front = some (p, FT_DIRECTORY) ∧
      lookup fs.disk (diskInode fs.disk fs.part p.toNat) name = some e ∧ e.fType = FT_REGULAR

namespace FileOn

variable {comps : List (List UInt8)} {p q : UInt32} {e e' : DirEntry}

theorem answers (h : FileOn fs comps p e) : Answers fs comps (e.iNo, FT_REGULAR) := by
  obtain ⟨front, name, rest, rfl, hwalk, hfound, htype⟩ := h
  refine ⟨front ++ [name], rest, by rw [List.append_assoc]; rfl, ?_, .inr rfl⟩
  rw [walk_snoc hwalk hfound, htype]

/-- Behind a regular file there is no directory. -/
theorem not_past {front mid : List (List UInt8)} {name : List UInt8}
    (hwalk : walk fs.disk fs.part (0, FT_DIRECTORY) front = some (p, FT_DIRECTORY))
    (hfound : lookup fs.disk (diskInode fs.disk fs.part p.toNat) name = some e)
    (htype : e.fType = FT_REGULAR) :
    walk fs.disk fs.part (0, FT_DIRECTORY) (front ++ name :: mid) ≠ some (q, FT_DIRECTORY) := by
  rw [walk_append, hwalk, Option.bind_some, walk_entry hfound, htype]
  cases mid with
  | nil => simp [FT_REGULAR, FT_DIRECTORY]
  | cons c mid => simp [walk_file]

theorem unique (h : FileOn fs comps p e) (h' : FileOn fs comps q e') : p = q ∧ e = e' := by
  obtain ⟨front, name, rest, hsplit, hwalk, hfound, htype⟩ := h
  obtain ⟨front', name', rest', hsplit', hwalk', hfound', htype'⟩ := h'
  obtain ⟨rfl, rfl, rfl⟩ := append_cons_unique (hsplit.symm.trans hsplit')
    (fun _ hfront => not_past hwalk hfound htype (hfront ▸ hwalk'))
    fun _ hfront => not_past hwalk' hfound' htype' (hfront ▸ hwalk)
  rw [hwalk] at hwalk'
  cases hwalk'
  rw [hfound] at hfound'
  exact ⟨rfl, Option.some.inj hfound'⟩

end FileOn

/-- How a search ends of a path that it does not know beforehand. -/
structure Found (fs : Fs) (path : List UInt8) (r : UInt32 × PathSearchRecord × Fs) : Prop where
  search : searchFile fs path = .ok r
  stop : Stop fs 0 (junkNo fs) [] (components path) r
  holds : ∀ l, r.2.2 = fs.setOpenInodes l → Holds fs r.2.1.parentDir l

/-- A file that is found is in use, or its entry is not the last of a block in a table. -/
def UnlinkFits (fs : Fs) (path : List UInt8) : Prop :=
  ∀ p e, FileOn fs (components path) p e → fileInUse fs e.iNo MAX_FILE_OPEN 0 = .ok true ∨
    ¬ LastInTable fs p.toNat e.iNo.toNat

/-- When a component is missing all of them fit the buffer, and when it is the last there is room
for a directory. -/
def MkdirFits (fs : Fs) (path : List UInt8) : Prop :=
  ∀ front name rest p, MissingAt fs (components path) front name rest p →
    (∀ c ∈ components path, c.length ≤ MAX_FILE_NAME_LEN) ∧
      (rest = [] → MkdirRoom fs.disk fs.part (diskInode fs.disk fs.part p.toNat))

namespace FileTree

variable (ht : FileTree fs dirs)
include ht

theorem found (hheap : fs.heap = fun _ => true) (hlen : path.length < MAX_PATH_LEN)
    (hfits : SearchFits fs path)
    (hother : ¬ (path = rootPath ∨ path = rootDotPath ∨ path = rootDotDotPath)) :
    ∃ r, Found fs path r := by
  obtain ⟨hslash, hshort⟩ := hfits.resolve_left hother
  obtain ⟨⟨no, record, fs₁⟩, hs, hstop⟩ :=
    searchFile_ends ht.toTreeOk hheap hslash hlen hshort hother
  refine ⟨_, hs, hstop, fun l hl => ?_⟩
  obtain ⟨l', heap, heq, hd⟩ := searchFile_holds ht.live hs
  have hlist : l' = l := congrArg (·.part.openInodes) (heq.symm.trans hl)
  exact hlist ▸ hd

theorem found_ne_zero (hheap : fs.heap = fun _ => true) (hlen : path.length < MAX_PATH_LEN)
    (hfits : SearchFits fs path) (hroot : ¬ LeadsToRoot fs path) :
    ∃ r, Found fs path r ∧ components path ≠ [] ∧ r.1 ≠ 0 := by
  obtain ⟨r, hr⟩ := ht.found hheap hlen hfits fun hknown => hroot (ht.known_walk hknown)
  have hsome : components path ≠ [] := by
    intro hnil
    unfold LeadsToRoot at hroot
    rw [hnil] at hroot
    exact hroot rfl
  refine ⟨r, hr, hsome, fun hzero => hroot ?_⟩
  exact (hr.stop.zero_iff ht hsome fun c hc => mem_components hc).mp hzero

/-- An answer other than 0 is not for the root directory. -/
theorem not_root (hheap : fs.heap = fun _ => true) (hlen : path.length < MAX_PATH_LEN)
    (hname : HasName path) {r : UInt32 × PathSearchRecord × Fs}
    (hs : searchFile fs path = .ok r) (hne : r.1 ≠ 0) :
    SearchFits fs path ∧ ¬ LeadsToRoot fs path := by
  have hfits := (searchFile_ends_iff ht.toTreeOk hheap hlen).mp ⟨_, hs⟩
  refine ⟨hfits, fun hroot => hne ?_⟩
  by_cases hknown : path = rootPath ∨ path = rootDotPath ∨ path = rootDotDotPath
  · rw [searchFile, if_pos hknown] at hs
    cases hs
    rfl
  · obtain ⟨r', hr⟩ := ht.found hheap hlen hfits hknown
    cases Except.ok.inj (hs.symm.trans hr.search)
    have hcomps : components path ≠ [] := hname.resolve_left fun h => hknown (.inl h)
    exact (hr.stop.zero_iff ht hcomps fun c hc => mem_components hc).mpr hroot

/-- The directory the search has found can be closed. -/
theorem closes (hs : searchFile fs path = .ok (no, record, fs₁)) (hq : Quiet k fs₁ fs₂)
    (hk : k ≤ 2) : ∃ fs₃, dirClose fs₂ record.parentDir = .ok fs₃ := by
  obtain ⟨held, hfit, hc⟩ := ht.counted
  obtain ⟨l, heap, rfl, hd⟩ := searchFile_holds ht.live hs
  exact hc.dirCloses (hfit.mono (Nat.succ_le_succ hk)) hd hq

theorem sysChdir_ends_iff (hheap : fs.heap = fun _ => true) (hlen : path.length < MAX_PATH_LEN)
    (cwdInodeNr : UInt32) : (∃ r, sysChdir fs cwdInodeNr path = .ok r) ↔ SearchFits fs path := by
  rw [← searchFile_ends_iff ht.toTreeOk hheap hlen]
  constructor
  · rintro ⟨r, h⟩
    obtain ⟨r', hs, -⟩ := bind_ok.mp h
    exact ⟨r', hs⟩
  · rintro ⟨⟨no, record, fs₁⟩, hs⟩
    obtain ⟨fs₂, hclose⟩ := ht.closes (k := 0) hs (.refl fs₁) (Nat.zero_le 2)
    simp only [sysChdir, hs, hclose, ok_bind]
    by_cases hdir : no ≠ -1 ∧ record.fileType = FT_DIRECTORY
    · exact ⟨_, if_pos hdir⟩
    · exact ⟨_, if_neg hdir⟩

/-- With a directory open an inode of the table is opened and closed. -/
theorem opensInside {l : List OpenInode} {dir : Dir} (hheap : fs.heap = fun _ => true)
    (hd : Holds fs dir l) (hn : n < 4096) :
    ∃ ref fs₁ nd fs₂, inodeOpen (fs.setOpenInodes l) n = .ok (ref, fs₁) ∧
      fs₁.inodeAt ref = .ok nd ∧ inodeClose fs₁ ref = .ok fs₂ := by
  obtain ⟨held, hfit, hc⟩ := ht.counted
  have hcl : Counted (fs.setOpenInodes l).part.openInodes (held + dirUse dir) :=
    hd.counted hc (hfit.mono (by decide))
  have hfit' : FitsMore 1 (held + dirUse dir) := FitsMore.dirUse (hfit.mono (by decide)) dir
  obtain ⟨ref, l', hopen, hopens⟩ := @inodeOpen_ends (fs.setOpenInodes l) _
    (ht.layout.relist l).fits hheap hn
  have hopen' : Counted ((fs.setOpenInodes l).setOpenInodes l').part.openInodes
      (held + dirUse dir + Pi.single ref 1) := hcl.opened hopens hfit'
  obtain ⟨nd, hat⟩ := inodeAt_listed hopen'.isListed
  obtain ⟨fs₂, hclose⟩ := inodeClose_ends hopen'.isListed
  exact ⟨ref, _, nd, fs₂, hopen, hat, hclose⟩

theorem statNode_ends {l : List OpenInode} {dir : Dir} (hheap : fs.heap = fun _ => true)
    (hd : Holds fs dir l) (hno : no = -1 ∨ no.toNat < 4096) (buf : Stat) :
    ∃ r, statNode (fs.setOpenInodes l) no record buf = .ok r := by
  by_cases hminus : no = -1
  · exact ⟨_, if_pos hminus⟩
  · obtain ⟨ref, fs₁, nd, fs₂, hopen, hat, hclose⟩ :=
      ht.opensInside hheap hd (hno.resolve_left hminus)
    simp only [statNode, if_neg hminus, hopen, hat, hclose, ok_bind]
    exact ⟨_, rfl⟩

theorem sysStat_ends_iff (hheap : fs.heap = fun _ => true) (hlen : path.length < MAX_PATH_LEN)
    (hname : HasName path) (buf : Stat) :
    (∃ r, sysStat fs path buf = .ok r) ↔ SearchFits fs path := by
  by_cases hknown : path = rootPath ∨ path = rootDotPath ∨ path = rootDotDotPath
  · obtain ⟨nd, hroot⟩ := ht.atRoot
    have hat : fs.inodeAt fs.rootDir = .ok nd := hroot.inodeAt
    simp only [sysStat, if_pos hknown, hat, ok_bind]
    exact ⟨fun _ => .inl hknown, fun _ => ⟨_, rfl⟩⟩
  · rw [sysStat, if_neg hknown]
    constructor
    · rintro ⟨r, h⟩
      obtain ⟨r', hs, -⟩ := bind_ok.mp h
      exact (searchFile_ends_iff ht.toTreeOk hheap hlen).mp ⟨r', hs⟩
    · intro hfits
      obtain ⟨⟨no, record, fs₁⟩, hr⟩ := ht.found hheap hlen hfits hknown
      have hcomps : components path ≠ [] := hname.resolve_left fun h => hknown (.inl h)
      obtain ⟨l, hl⟩ := hr.stop.state
      obtain rfl : fs₁ = fs.setOpenInodes l := hl
      obtain ⟨⟨ret, buf', fs₂⟩, hstat⟩ := @statNode_ends fs dirs no record ht l _ hheap
        (hr.holds l rfl) (hr.stop.small hcomps) buf
      obtain ⟨fs₃, hclose⟩ := ht.closes hr.search (statNode_quiet hstat) (by decide)
      simp only [hr.search, hstat, hclose, ok_bind]
      exact ⟨_, rfl⟩

/-- A directory is opened, found to be in use, and closed. -/
theorem rmdirIn_directory {l : List OpenInode} {dir : Dir} {nd : Inode} {m : Nat}
    (hheap : fs.heap = fun _ => true) (hat : DirAt fs m dir l nd) (hd : Holds fs dir l)
    (hno : dirs no.toNat) (htype : record.fileType = FT_DIRECTORY) :
    ∃ r, rmdirIn (fs.setOpenInodes l) no record = .ok r := by
  obtain ⟨ref, fs₁, nd', fs₂, hopen, hat', hclose⟩ :=
    ht.opensInside hheap hd (ht.small _ hno)
  have hmalloc : (fs.setOpenInodes l).askMalloc SIZEOF_DIR = (true, fs.setOpenInodes l) :=
    Fs.askMalloc_found hheap (by decide)
  have hdir : dirOpen (fs.setOpenInodes l) no.toNat = .ok (⟨false, ref⟩, fs₁) := by
    simp only [dirOpen, hmalloc, hopen, ok_bind, orNull_true]
    rfl
  obtain ⟨hsb, hstored⟩ := hat.opens_stored ht.toTreeOk hheap hno hdir hat'
  have hsize : nd'.iSize ≠ 24 := by
    rw [hstored.iSize]
    exact ht.size_ne hno
  have hempty : dirIsEmpty fs₁ ⟨false, ref⟩ = .ok false := by
    simp only [dirIsEmpty, hat', ok_bind, hsb, ht.entrySize, hsize]
    rfl
  have hclosed : dirClose fs₁ ⟨false, ref⟩ = .ok fs₂ := hclose
  have hfound : ¬ (no = -1 ∨ record.fileType = FT_REGULAR) := by
    rintro (hminus | hfile)
    · exact ne_minusOne (ht.small _ hno) hminus
    · rw [htype] at hfile
      exact absurd hfile (by decide)
  simp only [rmdirIn, if_neg hfound, hdir, hempty, hclosed, ok_bind]
  exact ⟨_, rfl⟩

theorem rmdirIn_ends (hheap : fs.heap = fun _ => true) {r : UInt32 × PathSearchRecord × Fs}
    (hr : Found fs path r) (hsome : components path ≠ []) :
    ∃ x, rmdirIn r.2.2 r.1 r.2.1 = .ok x := by
  have hroot : dirs (0 : UInt32).toNat := ht.root
  obtain ⟨-, hstop, hholds⟩ := hr
  cases hstop with
  | missing => exact ⟨_, if_pos (.inl rfl)⟩
  | file => exact ⟨_, if_pos (.inr rfl)⟩
  | directory p parent dir l nd hwalk hsmall hat =>
    rw [if_neg hsome]
    have hp : dirs p.toNat := ht.leads hroot (fun c hc => mem_components hc) hwalk
    exact ht.rmdirIn_directory hheap hat (hholds l rfl) hp rfl

/-- `sys_rmdir` ends unless the path leads to the root directory. -/
theorem sysRmdir_ends_iff (hheap : fs.heap = fun _ => true) (hlen : path.length < MAX_PATH_LEN)
    (hname : HasName path) : (∃ r, sysRmdir fs path = .ok r) ↔
      SearchFits fs path ∧ ¬ LeadsToRoot fs path := by
  constructor
  · rintro ⟨r, h⟩
    obtain ⟨r', hs, h⟩ := bind_ok.mp h
    obtain ⟨⟨⟩, hassert, -⟩ := bind_ok.mp h
    exact ht.not_root hheap hlen hname hs (ASSERT_ok hassert)
  · rintro ⟨hfits, hroot⟩
    obtain ⟨⟨no, record, fs₁⟩, hr, hcomps, hne⟩ := ht.found_ne_zero hheap hlen hfits hroot
    have hne : no ≠ 0 := hne
    obtain ⟨⟨ret, fs₂⟩, hin⟩ := ht.rmdirIn_ends hheap hr hcomps
    obtain ⟨fs₃, hclose⟩ := ht.closes hr.search (rmdirIn_quiet hin) (Nat.le_refl 2)
    simp only [sysRmdir, hr.search, ASSERT_true hne, hin, hclose, ok_bind]
    exact ⟨_, rfl⟩

theorem unlinkIn_found_iff (hheap : fs.heap = fun _ => true)
    {r : UInt32 × PathSearchRecord × Fs} (hr : Found fs path r) (hsome : components path ≠ []) :
    (∃ x, unlinkIn r.2.2 r.1 r.2.1 = .ok x) ↔ UnlinkFits fs path := by
  have hroot : dirs (0 : UInt32).toNat := ht.root
  have hstop := hr.stop
  obtain ⟨-, hends, hholds⟩ := hr
  cases hends with
  | missing =>
    refine ⟨fun _ p e hfile => ?_, fun _ => ⟨_, if_pos (.inl rfl)⟩⟩
    exact absurd rfl (hstop.found hsome hfile.answers)
  | directory p parent dir l nd hwalk hsmall hat =>
    refine ⟨fun _ q e hfile => ?_, fun _ => ⟨_, if_pos (.inr rfl)⟩⟩
    have hans := hstop.answers hsome (hstop.found hsome hfile.answers)
    have htype := congrArg Prod.snd (hans.unique hfile.answers)
    exact absurd htype (by decide : FT_DIRECTORY ≠ FT_REGULAR)
  | file front rest name p e dir l nd hsplit hwalk hat hfound htype hsmall =>
    have hfile : FileOn fs (components path) p e :=
      ⟨front, name, rest, hsplit, hwalk, hfound, htype⟩
    obtain ⟨hmem, rfl⟩ := lookup_mem hfound
    have hp : dirs p.toNat := ht.leads hroot
      (fun c hc => mem_components (hsplit ▸ List.mem_append_left _ hc)) hwalk
    have hne : e.name ≠ [] := @mem_components path _ (by rw [hsplit]; simp)
    refine (ht.unlinkIn_ends_iff hheap hp hat (hholds l rfl) hmem hne htype rfl rfl).trans ?_
    constructor
    · intro hone q e' hfile'
      obtain ⟨rfl, rfl⟩ := hfile.unique hfile'
      exact hone
    · exact fun hall => hall p e hfile

theorem sysUnlink_ends_iff (hheap : fs.heap = fun _ => true) (hlen : path.length < MAX_PATH_LEN)
    (hname : HasName path) : (∃ r, sysUnlink fs path = .ok r) ↔
      SearchFits fs path ∧ ¬ LeadsToRoot fs path ∧ UnlinkFits fs path := by
  constructor
  · rintro ⟨r, h⟩
    obtain ⟨⟨⟩, -, h⟩ := bind_ok.mp h
    obtain ⟨⟨no, record, fs₁⟩, hs, h⟩ := bind_ok.mp h
    obtain ⟨⟨⟩, hassert, h⟩ := bind_ok.mp h
    obtain ⟨hfits, hroot⟩ := ht.not_root hheap hlen hname hs (ASSERT_ok hassert)
    obtain ⟨r', hr, hcomps, -⟩ := ht.found_ne_zero hheap hlen hfits hroot
    obtain rfl := Except.ok.inj (hs.symm.trans hr.search)
    obtain ⟨x, hin, -⟩ := bind_ok.mp h
    exact ⟨hfits, hroot, (ht.unlinkIn_found_iff hheap hr hcomps).mp ⟨x, hin⟩⟩
  · rintro ⟨hfits, hroot, hunlink⟩
    obtain ⟨⟨no, record, fs₁⟩, hr, hcomps, hne⟩ := ht.found_ne_zero hheap hlen hfits hroot
    have hne : no ≠ 0 := hne
    obtain ⟨⟨ret, fs₂⟩, hin⟩ := (ht.unlinkIn_found_iff hheap hr hcomps).mpr hunlink
    obtain ⟨fs₃, hclose⟩ := ht.closes hr.search (unlinkIn_quiet hin) (by decide)
    simp only [sysUnlink, ASSERT_true hlen, hr.search, ASSERT_true hne, hin, hclose, ok_bind]
    exact ⟨_, rfl⟩

/-- The directory `name` is made in the directory `p` when there is room. -/
theorem mkdirIn_ends_iff {p : Nat} {dir : Dir} {l : List OpenInode} {nd : Inode}
    {front : List (List UInt8)} {name : List UInt8} (hp : dirs p) (hat : DirAt fs p dir l nd)
    (hslash : slash ∉ name) (hname : name.length < MAX_FILE_NAME_LEN) :
    (∃ r, mkdirIn (fs.setOpenInodes l) dir (joinPath (front ++ [name])) = .ok r) ↔
      MkdirRoom fs.disk fs.part (diskInode fs.disk fs.part p) := by
  have hmoved : Moved fs.disk (diskInode fs.disk fs.part p) fs.disk nd :=
    ⟨hat.stored.iSectors, fun _ _ _ _ _ => rfl⟩
  have hl : DiskLayout (fs.setOpenInodes l).part := ht.layout.relist l
  have hown : OwnBlocks (fs.setOpenInodes l).disk (fs.setOpenInodes l).part nd :=
    hmoved.own (fun a ha => ha.relist l) (ht.ok p hp).toOwnBlocks
  have hsize : nd.iSize.toNat % 24 = 0 := by
    rw [hat.stored.iSize]
    exact ht.whole p hp
  have hin : slash ∈ joinPath (front ++ [name]) := by simp [joinPath]
  have hlast : (lastName (joinPath (front ++ [name]))).length ≤ MAX_FILE_NAME_LEN := by
    rw [lastName_joinPath front hslash]
    exact hname.le
  rw [← MkdirRoom.moved hmoved l]
  exact ZhuOS.mkdirIn_ends_iff hl hown hat.inodeAt hsize ht.firstBlock hin hlast

/-- The call on a path of short components, one of which is missing. -/
theorem sysMkdir_missing (hheap : fs.heap = fun _ => true) {r : UInt32 × PathSearchRecord × Fs}
    (hr : Found fs path r) (hfits : PartsFit fs 0 (components path))
    (hshort : ∀ c ∈ components path, c.length ≤ MAX_FILE_NAME_LEN)
    {front rest : List (List UInt8)} {name : List UInt8} {p : UInt32}
    (hmiss : MissingAt fs (components path) front name rest p) :
    (∃ x, sysMkdir fs path = .ok x) ↔
      (rest = [] → MkdirRoom fs.disk fs.part (diskInode fs.disk fs.part p.toNat)) := by
  have hsome : components path ≠ [] := by
    rw [hmiss.split]
    simp
  have hroot : dirs (0 : UInt32).toNat := ht.root
  have hp : dirs p.toNat := ht.leads hroot
    (fun c hc => mem_components (hmiss.split ▸ List.mem_append_left _ hc)) hmiss.leads
  have hmem : name ∈ components path := by
    rw [hmiss.split]
    simp
  have hname : name.length < MAX_FILE_NAME_LEN :=
    (hfits front name rest _ hmiss.split hmiss.leads).2 rfl
  have hstop := hr.stop.stopsAt hshort ((hr.stop.missing_iff hsome).mpr ⟨_, _, _, _, hmiss⟩) hmiss
  obtain ⟨no, record, fs₁⟩ := r
  obtain rfl : no = -1 := hstop.result
  obtain ⟨l, nd, hfs₁, hat⟩ := hstop.parentOpen
  obtain rfl : fs₁ = fs.setOpenInodes l := hfs₁
  obtain ⟨searched, wanted, hsearched, hwanted, hdepth⟩ :=
    hstop.depths ((fs.setOpenInodes l).junk 0) ((fs.setOpenInodes l).junk 0)
  have hmalloc : fs.askMalloc 1024 = (true, fs) := Fs.askMalloc_found hheap (by decide)
  simp only [sysMkdir, hmalloc, not_true, ↓reduceIte, hr.search, ok_bind, ne_eq, hwanted,
    hsearched]
  by_cases hrest : rest = []
  · obtain rfl := hdepth.mpr hrest
    have hpath : record.searchedPath = joinPath (front ++ [name]) := hstop.searched
    have hin := @mkdirIn_ends_iff fs dirs ht _ _ l nd front name hp hat (component_word hmem).2
      hname
    simp only [not_true, ↓reduceIte, hpath, forall_true_left, hrest, ← hin]
    constructor
    · rintro ⟨x, h⟩
      obtain ⟨r, hr, -⟩ := bind_ok.mp h
      exact ⟨r, hr⟩
    · rintro ⟨⟨ret, fs₂⟩, h⟩
      obtain ⟨fs₃, hclose⟩ := ht.closes hr.search (mkdirIn_quiet (k := 0) h) (by decide)
      simp only [h, hclose, ok_bind]
      exact ⟨_, rfl⟩
  · obtain ⟨fs₂, hclose⟩ := ht.closes (k := 0) hr.search (.refl _) (by decide)
    have hne : ¬ wanted = searched := fun h => hrest (hdepth.mp h.symm)
    refine ⟨fun _ hnil => absurd hnil hrest, fun _ => ?_⟩
    simp only [if_pos hne, hclose, ok_bind]
    exact ⟨_, rfl⟩

theorem sysMkdir_ends_iff (hheap : fs.heap = fun _ => true) (hlen : path.length < MAX_PATH_LEN)
    (hname : HasName path) : (∃ r, sysMkdir fs path = .ok r) ↔
      SearchFits fs path ∧ MkdirFits fs path := by
  have hmalloc : fs.askMalloc 1024 = (true, fs) := Fs.askMalloc_found hheap (by decide)
  have hsearch : (∃ r, sysMkdir fs path = .ok r) → SearchFits fs path := by
    rintro ⟨r, h⟩
    simp only [sysMkdir, hmalloc, not_true, ↓reduceIte] at h
    obtain ⟨r', hs, -⟩ := bind_ok.mp h
    exact (searchFile_ends_iff ht.toTreeOk hheap hlen).mp ⟨r', hs⟩
  by_cases hknown : path = rootPath ∨ path = rootDotPath ∨ path = rootDotDotPath
  · refine ⟨fun _ => ⟨.inl hknown, fun front name rest p hmiss => ?_⟩, fun _ => ⟨(-1, fs), ?_⟩⟩
    · exact absurd hknown (hmiss.not_known ht.toTreeOk)
    · simp only [sysMkdir, hmalloc, not_true, ↓reduceIte, searchFile, if_pos hknown]
      rfl
  · refine (and_iff_right_of_imp hsearch).symm.trans (and_congr_right fun hfits => ?_)
    obtain ⟨-, hparts⟩ := hfits.resolve_left hknown
    obtain ⟨r, hr⟩ := ht.found hheap hlen hfits hknown
    have hcomps : components path ≠ [] := hname.resolve_left fun h => hknown (.inl h)
    have hmissing := hr.stop.missing_iff hcomps
    by_cases hminus : r.1 = -1
    · obtain ⟨front, name, rest, p, hmiss⟩ := hmissing.mp hminus
      constructor
      · rintro ⟨x, h⟩
        have hshort : ∀ c ∈ components path, c.length ≤ MAX_FILE_NAME_LEN := by
          simp only [sysMkdir, hmalloc, not_true, ↓reduceIte, hr.search, ok_bind, hminus,
            ne_eq] at h
          obtain ⟨depth, hdepth, -⟩ := bind_ok.mp h
          exact pathDepthCnt_short hdepth
        intro front' name' rest' p' hmiss'
        obtain ⟨rfl, rfl, rfl, rfl⟩ := hmiss.unique hmiss'
        exact ⟨hshort, (ht.sysMkdir_missing hheap hr hparts hshort hmiss).mp ⟨x, h⟩⟩
      · intro hmkdir
        obtain ⟨hshort, hroom⟩ := hmkdir front name rest p hmiss
        exact (ht.sysMkdir_missing hheap hr hparts hshort hmiss).mpr hroom
    · refine ⟨fun _ front name rest p hmiss => ?_, fun _ => ?_⟩
      · exact absurd (hmissing.mpr ⟨front, name, rest, p, hmiss⟩) hminus
      · obtain ⟨fs₂, hclose⟩ := ht.closes (k := 0) hr.search (.refl r.2.2) (by decide)
        simp only [sysMkdir, hmalloc, not_true, ↓reduceIte, hr.search, ok_bind, if_pos hminus,
          hclose, ne_eq]
        exact ⟨_, rfl⟩

end FileTree

end ZhuOS
