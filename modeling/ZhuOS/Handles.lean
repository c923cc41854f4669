import ZhuOS.Balance
import ZhuOS.OpenFails

/-!
# Who has an inode open

Files are open through the entries of the file table that a descriptor refers to, and
directories through the handles of `sys_opendir`. `sys_open` alone leaves inodes open that
nobody of these has.
-/

namespace ZhuOS

open ByteMem

/-- Several processes, their working directories and the directory handles they hold. -/
structure FsWorld (π : Type) extends FdWorld π where
  cwdInodeNr : π → UInt32
  dirs : List (π × Dir)

inductive FsCall (π : Type)
  | open (p : π) (pathname : List UInt8) (flags : UInt8)
  | close (p : π) (fd : Nat)
  | unlink (p : π) (pathname : List UInt8)
  | mkdir (p : π) (pathname : List UInt8)
  | rmdir (p : π) (pathname : List UInt8)
  | opendir (p : π) (name : List UInt8)
  | closedir (p : π) (dir : Option Dir)
  | stat (p : π) (path : List UInt8) (buf : Stat)
  | chdir (p : π) (path : List UInt8)

/-- The handles on an inode; `root_dir` belongs to the mounted partition. -/
def handleCnt {π : Type} (dirs : List (π × Dir)) (ref : Nat) : Nat :=
  dirs.countP fun h => !h.2.isRoot && decide (h.2.inode = ref)

namespace FsWorld
variable {π : Type} [DecidableEq π]

def put (w : FsWorld π) (p : π) (fs : Fs) : FsWorld π :=
  { w with toFdWorld := w.store p fs }

open Classical in
/-- The entries of an inode that some process has installed. -/
noncomputable def installedCnt (w : FsWorld π) (ref : Nat) : Nat :=
  ((slotsOf w.fs.fileTable ref).filter fun i =>
    ∃ p fd, fd < MAX_FILES_OPEN_PER_PROC ∧ w.fdTables p fd = some i).card

/-- The users of the inode at an address. -/
noncomputable def users (w : FsWorld π) (ref : Nat) : Nat :=
  w.installedCnt ref + handleCnt w.dirs ref + (Pi.single w.fs.rootDir 1 : Nat → Nat) ref

/-- Every inode is open as often as it has users, and none is open without. -/
def CountsRight (w : FsWorld π) : Prop := Counted w.fs.part.openInodes w.users

/-- The partition is mounted, and nothing is open but its root. -/
structure Mounted (w : FsWorld π) : Prop where
  root : ∃ nd, w.fs.part.openInodes = [⟨w.fs.rootDir, nd⟩] ∧ nd.iOpenCnts = 1
  files : ∀ i, (w.fs.fileTable i).fdInode = none
  dirs : w.dirs = []

end FsWorld

namespace FsCall
variable {π : Type} [DecidableEq π]

def exec (w : FsWorld π) : FsCall π → Except Fault (FsWorld π)
  | .open p pathname flags => do
    let (_, fs) ← sysOpen (w.load p) pathname flags
    return w.put p fs
  | .close p fd => do
    let (_, fs) ← sysClose (w.load p) fd
    return w.put p fs
  | .unlink p pathname => do
    let (_, fs) ← sysUnlink (w.load p) pathname
    return w.put p fs
  | .mkdir p pathname => do
    let (_, fs) ← sysMkdir (w.load p) pathname
    return w.put p fs
  | .rmdir p pathname => do
    let (_, fs) ← sysRmdir (w.load p) pathname
    return w.put p fs
  | .opendir p name => do
    let (ret, fs) ← sysOpendir (w.load p) name
    match ret with
    | none => return w.put p fs
    | some dir => return { w.put p fs with dirs := (p, dir) :: w.dirs }
  | .closedir p none => do
    let (_, fs) ← sysClosedir (w.load p) none
    return w.put p fs
  | .closedir p (some dir) => do
    let (_, fs) ← sysClosedir (w.load p) (some dir)
    return { w.put p fs with dirs := w.dirs.erase (p, dir) }
  | .stat p path buf => do
    let (_, _, fs) ← sysStat (w.load p) path buf
    return w.put p fs
  | .chdir p path => do
    let (_, cwdInodeNr, fs) ← sysChdir (w.load p) (w.cwdInodeNr p) path
    return { w.put p fs with cwdInodeNr := Function.update w.cwdInodeNr p cwdInodeNr }

/-- A process closes the handles it has. -/
def Holding (w : FsWorld π) : FsCall π → Prop
  | .closedir p (some dir) => (p, dir) ∈ w.dirs
  | _ => True

def system : Guarded.System (FsWorld π) (FsCall π) Fault := ⟨Holding, exec⟩

end FsCall

/-- `write_deny` of an inode, on the list or in its record. -/
def WriteDenied (fs : Fs) (n : Nat) : Prop :=
  match fs.part.openInodes.find? (·.inode.iNo.toNat = n) with
  | some o => o.inode.writeDeny = true
  | none => ∃ nd, readInode fs.disk fs.part n = .ok nd ∧ nd.writeDeny = true

/-- The call takes none of the ways out that leave an inode open. -/
structure OpenReleases (fs : Fs) (path : List UInt8) (flags : UInt8) : Prop where
  /-- the two without `dir_close` -/
  parent : ∀ no record fs₁, searchFile fs path = .ok (no, record, fs₁) →
    path.getLast? ≠ some slash → record.fileType ≠ FT_DIRECTORY →
    (pathDepthCnt (fs.junk 0) path ≠ pathDepthCnt (fs.junk 0) record.searchedPath ∨
      no ≠ -1 ∧ flags &&& O_CREAT = 0) → record.parentDir.isRoot = true
  /-- `pcb_fd_install` that finds no descriptor -/
  descriptor : TakesEntry fs path flags →
    ∃ fd, 3 ≤ fd ∧ fd < MAX_FILES_OPEN_PER_PROC ∧ fs.fdTable fd = none
  /-- `file_open` of a file that has a writer -/
  writer : ∀ no record fs₁, Passes fs path flags no record fs₁ → no ≠ -1 →
    getFreeSlotInGlobal fs.fileTable ≠ none → writes flags.toUInt32 → ¬ WriteDenied fs no.toNat

/-- The step leaves nothing open, and the counts have room for it. -/
structure FsCall.Releases {π : Type} [DecidableEq π] (w : FsWorld π) (call : FsCall π) : Prop where
  room : w.dirs.length + 36 < 2 ^ 32
  opens : ∀ p pathname flags, call = .open p pathname flags →
    OpenReleases (w.load p) pathname flags

/-! ## Entries and descriptors -/

/-- What a call does to the entries and to the process's descriptors. -/
inductive Moves (fs fs' : Fs) : Prop
  | stays (hfile : fs'.fileTable = fs.fileTable) (hfd : fs'.fdTable = fs.fdTable)
  | take {i fd : Nat} {f : File} (hfile : fs'.fileTable = Function.update fs.fileTable i f)
      (hlt : fd < MAX_FILES_OPEN_PER_PROC) (hfree : fs.fdTable fd = none)
      (hfd : fs'.fdTable = Function.update fs.fdTable fd (some i))
  | free {i fd : Nat} {f : File} (hentry : fs.fdTable fd = some i)
      (hfile : fs'.fileTable = Function.update fs.fileTable i f) (hf : f.fdInode = none)
      (hfd : fs'.fdTable = Function.update fs.fdTable fd none)

/-- Every entry that is taken is installed. -/
def Installed {π : Type} (fileTable : Nat → File) (fdTables : π → Nat → Option Nat) : Prop :=
  ∀ i, (fileTable i).fdInode ≠ none →
    ∃ p fd, fd < MAX_FILES_OPEN_PER_PROC ∧ fdTables p fd = some i

section
variable {π : Type} [DecidableEq π] {fdTables : π → Nat → Option Nat} {fs fs' : Fs}

theorem Installed.moves (h : Installed fs.fileTable fdTables) {p : π}
    (hp : fs.fdTable = fdTables p) (hm : Moves fs fs') :
    Installed fs'.fileTable (Function.update fdTables p fs'.fdTable) := by
  intro i hi
  cases hm with
  | stays hfile hfd =>
    rw [hfile] at hi
    rw [hfd, hp, Function.update_eq_self]
    exact h i hi
  | @take j fd f hfile hlt hfree hfd =>
    by_cases hij : i = j
    · subst hij
      refine ⟨p, fd, hlt, ?_⟩
      rw [Function.update_self, hfd, Function.update_self]
    · rw [hfile, Function.update_of_ne hij] at hi
      obtain ⟨q, fd', hlt', hq⟩ := h i hi
      refine ⟨q, fd', hlt', ?_⟩
      by_cases hqp : q = p
      · subst hqp
        rw [← hp] at hq
        have hne : fd' ≠ fd := by
          rintro rfl
          rw [hfree] at hq
          cases hq
        rw [Function.update_self, hfd, Function.update_of_ne hne, hq]
      · rw [Function.update_of_ne hqp, hq]
  | @free j fd f hentry hfile hf hfd =>
    by_cases hij : i = j
    · subst hij
      rw [hfile, Function.update_self] at hi
      exact absurd hf hi
    · rw [hfile, Function.update_of_ne hij] at hi
      obtain ⟨q, fd', hlt', hq⟩ := h i hi
      refine ⟨q, fd', hlt', ?_⟩
      by_cases hqp : q = p
      · subst hqp
        rw [← hp] at hq
        have hne : fd' ≠ fd := by
          rintro rfl
          rw [hentry] at hq
          exact hij (Option.some.inj hq).symm
        rw [Function.update_self, hfd, Function.update_of_ne hne, hq]
      · rw [Function.update_of_ne hqp, hq]

end

/-! ## `sys_open` and `sys_close` -/

/-- The users but for the entries stay, and every entry taken or freed is counted. -/
structure AllCounted (rest : Nat → Nat) (fs fs' : Fs) : Prop where
  moves : Moves fs fs'
  rootDir : fs'.rootDir = fs.rootDir
  counted : Counted fs'.part.openInodes (slotCnt fs'.fileTable + rest)

section
variable {fs fs' fs₁ fs₂ : Fs} {rest held : Nat → Nat} {k n ref i : Nat} {l : List OpenInode}
  {heap : Nat → Bool} {dir : Dir} {path name : List UInt8} {flags : UInt8} {r : Int} {f : File}

theorem slotCnt_taken {fileTable : Nat → File} (hi : i < MAX_FILE_OPEN)
    (hfree : (fileTable i).fdInode = none) (hf : f.fdInode = some ref) :
    slotCnt (Function.update fileTable i f) = slotCnt fileTable + Pi.single ref 1 := by
  rw [slotCnt_take hi hfree hf, update_add_one]

theorem slotCnt_freed {fileTable : Nat → File} (hi : i < MAX_FILE_OPEN)
    (htaken : (fileTable i).fdInode = some ref) (hf : f.fdInode = none) :
    slotCnt fileTable = slotCnt (Function.update fileTable i f) + Pi.single ref 1 := by
  have hnone : (Function.update fileTable i f i).fdInode = none := by
    rw [Function.update_self]
    exact hf
  have hback := slotCnt_taken hi hnone htaken
  rwa [Function.update_idem, Function.update_eq_self] at hback

theorem Holds.counted (hd : Holds fs dir l) (h : Counted fs.part.openInodes held)
    (hfit : FitsMore 1 held) : Counted l (held + dirUse dir) := by
  cases hd with
  | root =>
    change Counted _ (held + 0)
    rw [add_zero]
    exact h
  | opened ho => exact h.opened ho hfit

theorem Counted.dirClosed (h : Counted fs.part.openInodes (held + dirUse dir))
    (hc : dirClose fs dir = .ok fs') : Counted fs'.part.openInodes held := by
  unfold dirUse at h
  unfold dirClose at hc
  by_cases hroot : dir.isRoot = true
  · rw [if_pos hroot] at h hc
    cases hc
    rwa [add_zero] at h
  · rw [if_neg hroot] at h hc
    exact h.closed hc

theorem dirClose_list (h : dirClose fs dir = .ok fs') : ∃ l, fs' = fs.setOpenInodes l := by
  unfold dirClose at h
  by_cases hroot : dir.isRoot = true
  · rw [if_pos hroot] at h
    cases h
    exact ⟨fs.part.openInodes, rfl⟩
  · rw [if_neg hroot] at h
    exact inodeClose_list h

/-- A taken entry that `pcb_fd_install` gives to a free descriptor. -/
theorem Moves.installs (hdesc : ∃ fd, 3 ≤ fd ∧ fd < MAX_FILES_OPEN_PER_PROC ∧
    fs.fdTable fd = none) (hfile : fs'.fileTable = Function.update fs.fileTable i f)
    (hi : Installs fs.fdTable i r fs'.fdTable) : Moves fs fs' := by
  generalize hfd : fs'.fdTable = fdTable' at hi
  cases hi with
  | full hfull =>
    obtain ⟨fd, hlo, hhi, hfree⟩ := hdesc
    exact absurd hfree (hfull fd hlo hhi)
  | put hlo hhi hfree => exact .take hfile hhi hfree hfd

/-- Only the tables matter. -/
theorem Moves.congr (h : Moves fs₁ fs₂) (hfile : fs₁.fileTable = fs.fileTable)
    (hfd : fs₁.fdTable = fs.fdTable) (hfile' : fs'.fileTable = fs₂.fileTable)
    (hfd' : fs'.fdTable = fs₂.fdTable) : Moves fs fs' := by
  cases h with
  | stays hf hd => exact .stays (hfile'.trans (hf.trans hfile)) (hfd'.trans (hd.trans hfd))
  | take hf hlt hfree hd =>
    rw [hfile] at hf
    rw [hfd] at hfree hd
    exact .take (hfile'.trans hf) hlt hfree (hfd'.trans hd)
  | free hentry hf hnone hd =>
    rw [hfile] at hf
    rw [hfd] at hentry hd
    exact .free hentry (hfile'.trans hf) hnone (hfd'.trans hd)

theorem fileCreate_root (h : fileCreate fs dir name flags = .ok (r, fs')) :
    fs'.rootDir = fs.rootDir := by
  obtain ⟨⟨begun, fs₁⟩, hb, h⟩ := bind_ok.mp h
  cases createBegin_ok hb with
  | failed heap =>
    cases h
    rfl
  | marked heap hin hfree hslot =>
    obtain ⟨⟨synced, fs₂⟩, hs, h⟩ := bind_ok.mp h
    obtain rfl := createSync_true hs
    obtain ⟨-, heq⟩ := pcbFdInstall_ok (Except.ok.inj h)
    rw [heq]
    obtain ⟨de, -, hs⟩ := bind_ok.mp hs
    obtain ⟨parent, -, hs⟩ := bind_ok.mp hs
    obtain ⟨⟨done, s⟩, hd, hs⟩ := bind_ok.mp hs
    obtain rfl := syncDirEntry_true hd
    obtain ⟨disk, -, hs⟩ := bind_ok.mp hs
    obtain ⟨disk', -, hs⟩ := bind_ok.mp hs
    obtain ⟨disk'', -, hs⟩ := bind_ok.mp hs
    cases hs
    rfl

theorem fileCreate_accounts (h : Counted fs.part.openInodes (slotCnt fs.fileTable + rest))
    (hdesc : (∃ c fs₁, createBegin fs flags = .ok (some c, fs₁)) →
      ∃ fd, 3 ≤ fd ∧ fd < MAX_FILES_OPEN_PER_PROC ∧ fs.fdTable fd = none)
    (hc : fileCreate fs dir name flags = .ok (r, fs')) : AllCounted rest fs fs' := by
  have hroot := fileCreate_root hc
  cases hb : createBegin fs flags with
  | error e =>
    rw [fileCreate, hb] at hc
    cases hc
  | ok begun =>
    obtain ⟨begun, fs₁⟩ := begun
    cases begun with
    | none =>
      rw [fileCreate, hb] at hc
      cases hc
      cases createBegin_ok hb with
      | failed heap => exact ⟨.stays rfl rfl, rfl, h⟩
    | some c =>
      cases fileCreate_ok h hc with
      | failed heap => exact ⟨.stays rfl rfl, rfl, h⟩
      | @made _ i n _ l hslot hfile hfd hfrom hl hlist =>
        obtain ⟨-, hi, hfree, -⟩ := getFreeSlot_some hslot
        refine ⟨.installs (hdesc ⟨c, fs₁, hb⟩) hfile hfd, hroot, ?_⟩
        have hz := h.unlisted (freshRef_unlisted fs.part.openInodes)
        have hcnt : ({ inodeInit (.ofNat n) with iOpenCnts := 1 } : Inode).iOpenCnts.toNat = 1 :=
          rfl
        have hone := hl.cons (hl.absent hz) hcnt one_ne_zero
        have hsingle := update_add_one (slotCnt fs.fileTable + rest) (freshRef fs.part.openInodes)
        rw [hz] at hsingle
        rw [hlist, hfile, slotCnt_taken hi hfree rfl, add_right_comm, ← hsingle]
        exact hone

theorem inodeOpen_denied (ho : inodeOpen fs n = .ok (ref, fs₁)) {nd : Inode}
    (hat : fs₁.inodeAt ref = .ok nd) (hdeny : nd.writeDeny = true) :
    WriteDenied fs n := by
  unfold inodeOpen at ho
  unfold WriteDenied
  cases hf : fs.part.openInodes.find? (·.inode.iNo.toNat = n) with
  | some o =>
    rw [hf] at ho
    cases ho
    obtain ⟨o', ho', href, rfl⟩ := inodeAt_mem hat
    rcases mem_setInode ho' with ⟨-, hne⟩ | ⟨a, -, -, rfl⟩
    · exact absurd href hne
    · exact hdeny
  | none =>
    rw [hf] at ho
    obtain ⟨pos, hpos, ho⟩ := bind_ok.mp ho
    obtain ⟨-, -, ho⟩ := bind_ok.mp ho
    obtain ⟨buf, hbuf, ho⟩ := bind_ok.mp ho
    obtain ⟨-, -, ho⟩ := bind_ok.mp ho
    cases ho
    rw [inodeAt_head] at hat
    cases hat
    refine ⟨.ofBytes (shift buf pos.offSize), ?_, hdeny⟩
    rw [readInode, hpos, ok_bind]
    exact bind_ok.mpr ⟨buf, hbuf, rfl⟩

theorem fileOpen_accounts (h : Counted fs.part.openInodes (slotCnt fs.fileTable + rest))
    (hfit : FitsMore 1 (slotCnt fs.fileTable + rest))
    (hdesc : getFreeSlotInGlobal fs.fileTable ≠ none →
      ∃ fd, 3 ≤ fd ∧ fd < MAX_FILES_OPEN_PER_PROC ∧ fs.fdTable fd = none)
    (hwriter : getFreeSlotInGlobal fs.fileTable ≠ none → writes flags.toUInt32 →
      ¬ WriteDenied fs n)
    (ho : fileOpen fs n flags = .ok (r, fs')) : AllCounted rest fs fs' := by
  unfold fileOpen at ho
  cases hslot : getFreeSlotInGlobal fs.fileTable with
  | none =>
    rw [hslot] at ho
    cases ho
    exact ⟨.stays rfl rfl, rfl, h⟩
  | some i =>
    rw [hslot] at ho hdesc hwriter
    have hdesc := hdesc (Option.some_ne_none i)
    have hwriter := hwriter (Option.some_ne_none i)
    obtain ⟨-, hi, hfree, -⟩ := getFreeSlot_some hslot
    obtain ⟨⟨ref, fs₁⟩, hopen, ho⟩ := bind_ok.mp ho
    have hdenied := fun nd => @inodeOpen_denied _ _ _ _ hopen nd
    obtain ⟨l, heap, rfl, hopens⟩ := inodeOpen_opens hopen
    have hcount : Counted l (slotCnt (Function.update fs.fileTable i
        ⟨0, flags.toUInt32, some ref⟩) + rest) := by
      rw [slotCnt_taken hi hfree rfl, add_right_comm]
      exact h.opened hopens hfit
    obtain ⟨nd, hat, ho⟩ := bind_ok.mp ho
    have hat : (fs.relist l heap).inodeAt ref = .ok nd := hat
    by_cases hw : writes flags.toUInt32
    · rw [if_pos hw] at ho
      have hdeny : nd.writeDeny ≠ true := fun hdeny => hwriter hw (hdenied nd hat hdeny)
      rw [if_neg hdeny] at ho
      obtain ⟨hinst, heq⟩ := pcbFdInstall_ok (Except.ok.inj ho)
      obtain ⟨o, hmem, href, rfl⟩ := inodeAt_mem hat
      have hfile := congrArg Fs.fileTable heq
      have hroot := congrArg Fs.rootDir heq
      refine ⟨.installs hdesc hfile hinst, hroot, ?_⟩
      rw [heq]
      exact hcount.refill hmem href rfl
    · rw [if_neg hw] at ho
      obtain ⟨hinst, heq⟩ := pcbFdInstall_ok (Except.ok.inj ho)
      have hfile := congrArg Fs.fileTable heq
      have hroot := congrArg Fs.rootDir heq
      refine ⟨.installs hdesc hfile hinst, hroot, ?_⟩
      rw [heq]
      exact hcount

theorem sysOpen_accounts (h : Counted fs.part.openInodes (slotCnt fs.fileTable + rest))
    (hfit : FitsMore 2 (slotCnt fs.fileTable + rest)) (hrel : OpenReleases fs path flags)
    (ho : sysOpen fs path flags = .ok (r, fs')) : AllCounted rest fs fs' := by
  have hone := hfit.mono (Nat.le_succ 1)
  cases sysOpen_cases h.live ho with
  | refuses heap hstop => exact ⟨.stays rfl rfl, rfl, h⟩
  | @leaks no record l heap hs hd hstop hslash hfile hdepth =>
    have hroot := hrel.parent no record _ hs hslash hfile (.inl hdepth)
    generalize record.parentDir = dir at hd hroot
    cases hd with
    | root => exact ⟨.stays rfl rfl, rfl, h⟩
    | opened hopens => cases hroot
  | @creates record l heap _ fs₁ _ hp hd hcreate hclose =>
    have hheld : Counted (fs.relist l heap).part.openInodes
        (slotCnt (fs.relist l heap).fileTable + (rest + dirUse record.parentDir)) := by
      rw [← add_assoc]
      exact hd.counted h hone
    have hdesc : (∃ c fs₂, createBegin (fs.relist l heap) flags = .ok (some c, fs₂)) →
        ∃ fd, 3 ≤ fd ∧ fd < MAX_FILES_OPEN_PER_PROC ∧ fs.fdTable fd = none := by
      rintro ⟨c, fs₂, hb⟩
      obtain ⟨hbuf, hinode, i, hslot⟩ := (createBegin_takes hb).mp ⟨c, rfl⟩
      exact hrel.descriptor (.creates hp hslot hbuf hinode)
    have hmade := fileCreate_accounts hheld hdesc hcreate
    have hcount := hmade.counted
    rw [← add_assoc] at hcount
    have hcount := hcount.dirClosed hclose
    obtain ⟨l', rfl⟩ := dirClose_list hclose
    exact ⟨hmade.moves.congr rfl rfl rfl rfl, hmade.rootDir, hcount⟩
  | @opens no record l heap _ _ hp hd hno hopen =>
    have hflag : flags &&& O_CREAT = 0 := by
      by_contra hflag
      exact hno (hp.wanted.mpr hflag)
    have hroot := hrel.parent no record _ hp.search hp.slash hp.file (.inr ⟨hno, hflag⟩)
    have hdesc : getFreeSlotInGlobal fs.fileTable ≠ none →
        ∃ fd, 3 ≤ fd ∧ fd < MAX_FILES_OPEN_PER_PROC ∧ fs.fdTable fd = none := by
      intro hslot
      obtain ⟨i, hi⟩ := Option.ne_none_iff_exists'.mp hslot
      exact hrel.descriptor (.opens hp hno hi)
    have hwriter := hrel.writer no record _ hp hno
    generalize record.parentDir = dir at hd hroot
    cases hd with
    | root =>
      have hsearched : Counted (fs.relist fs.part.openInodes heap).part.openInodes
          (slotCnt (fs.relist fs.part.openInodes heap).fileTable + rest) := h
      have hopened := fileOpen_accounts hsearched hone hdesc hwriter hopen
      exact ⟨hopened.moves.congr rfl rfl rfl rfl, hopened.rootDir, hopened.counted⟩
    | opened hopens => cases hroot

theorem sysClose_accounts {fd : Nat}
    (h : Counted fs.part.openInodes (slotCnt fs.fileTable + rest))
    (hc : sysClose fs fd = .ok (r, fs')) : AllCounted rest fs fs' := by
  unfold sysClose at hc
  by_cases hfd : 2 < fd
  · rw [if_pos hfd] at hc
    obtain ⟨i, hi, hc⟩ := bind_ok.mp hc
    obtain ⟨⟨ret, fs₁⟩, hclose, hc⟩ := bind_ok.mp hc
    cases hc
    obtain ⟨-, hentry, hlt⟩ := fdLocal2global_ok hi
    unfold fileClose at hclose
    cases hf : (fs.fileTable i).fdInode with
    | none =>
      simp only [hf] at hclose
      cases hclose
    | some ref =>
      simp only [hf] at hclose
      obtain ⟨nd, hat, hclose⟩ := bind_ok.mp hclose
      obtain ⟨fs₂, hin, hclose⟩ := bind_ok.mp hclose
      cases hclose
      obtain ⟨o, ho, href, rfl⟩ := inodeAt_mem hat
      have hset : Counted (fs.setInode ref { o.inode with writeDeny := false }).part.openInodes
          (slotCnt fs.fileTable + rest) := h.refill ho href rfl
      rw [slotCnt_freed (f := { fs.fileTable i with fdInode := none }) hlt hf rfl,
        add_right_comm] at hset
      have hclosed := hset.closed hin
      obtain ⟨l, rfl⟩ := inodeClose_list hin
      exact ⟨.free hentry rfl rfl rfl, rfl, hclosed⟩
  · rw [if_neg hfd] at hc
    cases hc
    exact ⟨.stays rfl rfl, rfl, h⟩

theorem FitsMore.dirUse (h : FitsMore (k + 1) held) (dir : Dir) :
    FitsMore k (held + ZhuOS.dirUse dir) := by
  unfold ZhuOS.dirUse
  split
  · rw [add_zero]
    exact h.mono (Nat.le_succ k)
  · exact h.single dir.inode

/-- The handle a call returns is a user, and the directory found on the way is not. -/
theorem sysOpendir_accounts {ret : Option Dir} (h : Counted fs.part.openInodes held)
    (hfit : FitsMore 2 held) (ho : sysOpendir fs name = .ok (ret, fs')) :
    fs'.fileTable = fs.fileTable ∧ fs'.fdTable = fs.fdTable ∧ fs'.rootDir = fs.rootDir ∧
      Counted fs'.part.openInodes (held + ret.elim 0 dirUse) := by
  have hone := hfit.mono (Nat.le_succ 1)
  obtain ⟨-, -, ho⟩ := bind_ok.mp ho
  split at ho
  · cases ho
    refine ⟨rfl, rfl, rfl, ?_⟩
    change Counted _ (held + 0)
    rw [add_zero]
    exact h
  · obtain ⟨⟨no, record, fs₁⟩, hs, ho⟩ := bind_ok.mp ho
    dsimp only at ho
    split at ho
    · obtain ⟨fs₂, hc, ho⟩ := bind_ok.mp ho
      cases ho
      have hq := Quiet.of_search (k := 0) h.live hs (.refl fs₁) hc
      refine ⟨hq.fileTable, hq.fdTable, hq.rootDir, ?_⟩
      change Counted _ (held + 0)
      rw [add_zero]
      exact hq.counted held hone h
    · obtain ⟨⟨dir, fs₂⟩, hopen, ho⟩ := bind_ok.mp ho
      obtain ⟨fs₃, hc, ho⟩ := bind_ok.mp ho
      cases ho
      obtain ⟨l, heap, rfl, hparent⟩ := searchFile_holds h.live hs
      have hfound : Counted (fs.relist l heap).part.openInodes
          (held + dirUse record.parentDir) := hparent.counted h hone
      obtain ⟨l', heap', rfl, hdir⟩ := @dirOpen_holds (fs.relist l heap) _ _ heap _ hopen
      have hboth := hdir.counted hfound (hfit.dirUse record.parentDir)
      rw [add_right_comm] at hboth
      have hopened : Counted ((fs.relist l heap).relist l' heap').part.openInodes _ := hboth
      have hcount := hopened.dirClosed hc
      obtain ⟨l'', rfl⟩ := dirClose_list hc
      exact ⟨rfl, rfl, rfl, hcount⟩

end

/-! ## Runs -/

/-- Every user is counted, and every entry that is taken is installed. -/
structure HandlesInv {π : Type} (w : FsWorld π) : Prop where
  counted : Counted w.fs.part.openInodes
    (slotCnt w.fs.fileTable + (handleCnt w.dirs + Pi.single w.fs.rootDir 1))
  installed : Installed w.fs.fileTable w.fdTables

section
variable {π : Type} {w w' : FsWorld π} {p : π} {fs : Fs} {dir : Dir} {dirs : List (π × Dir)}
  {call : FsCall π}

theorem handleCnt_cons (p : π) (dir : Dir) (dirs : List (π × Dir)) :
    handleCnt ((p, dir) :: dirs) = handleCnt dirs + dirUse dir := by
  funext ref
  unfold handleCnt dirUse
  rw [List.countP_cons, Pi.add_apply]
  by_cases hroot : dir.isRoot = true
  · simp [hroot]
  · by_cases href : ref = dir.inode
    · subst href
      simp [hroot]
    · simp [hroot, href, Ne.symm href]

theorem handleCnt_erase [DecidableEq π] (h : (p, dir) ∈ dirs) :
    handleCnt dirs = handleCnt (dirs.erase (p, dir)) + dirUse dir := by
  rw [← handleCnt_cons p]
  funext ref
  exact (List.perm_cons_erase h).countP_eq _

theorem FsWorld.Mounted.inv (h : w.Mounted) : HandlesInv w := by
  obtain ⟨⟨nd, hlist, hcnt⟩, hfiles, hdirs⟩ := h
  have hslots : slotCnt w.fs.fileTable = 0 := by
    funext ref
    apply Finset.card_eq_zero.mpr
    apply Finset.eq_empty_of_forall_notMem
    intro i hi
    obtain ⟨-, hinode⟩ := mem_slotsOf.mp hi
    rw [hfiles] at hinode
    cases hinode
  constructor
  · have hnone : Counted [] (0 : Nat → Nat) := by
      constructor
      · exact List.nodup_nil
      · intro o ho
        cases ho
      · intro o ho
        cases ho
      · intro ref hne
        exact absurd rfl hne
    have hone : nd.iOpenCnts.toNat = 1 := by
      rw [hcnt]
      rfl
    have hroot := @Counted.cons _ _ w.fs.rootDir _ hnone List.not_mem_nil 1 hone one_ne_zero
    have hsingle := update_add_one 0 w.fs.rootDir
    rw [Pi.zero_apply] at hsingle
    rw [hlist, hslots, hdirs]
    change Counted _ (0 + (0 + _))
    rw [zero_add, ← hsingle]
    exact hroot
  · intro i hi
    exact absurd (hfiles i) hi

open Classical in
/-- While every entry is installed, the entries are all users. -/
theorem HandlesInv.right (h : HandlesInv w) : w.CountsRight := by
  have husers : w.users =
      slotCnt w.fs.fileTable + (handleCnt w.dirs + Pi.single w.fs.rootDir 1) := by
    funext ref
    have hall : w.installedCnt ref = slotCnt w.fs.fileTable ref := by
      unfold FsWorld.installedCnt slotCnt
      rw [Finset.filter_true_of_mem]
      intro i hi
      apply h.installed i
      rw [(mem_slotsOf.mp hi).2]
      exact Option.some_ne_none ref
    rw [FsWorld.users, hall]
    exact Nat.add_assoc _ _ _
  rw [FsWorld.CountsRight, husers]
  exact h.counted

theorem HandlesInv.fits (hroom : w.dirs.length + 36 < 2 ^ 32) :
    FitsMore 3 (slotCnt w.fs.fileTable + (handleCnt w.dirs + Pi.single w.fs.rootDir 1)) := by
  intro ref
  have hslots : slotCnt w.fs.fileTable ref ≤ 32 := by
    have hcard := Finset.card_filter_le (Finset.range MAX_FILE_OPEN)
      fun i => (w.fs.fileTable i).fdInode = some ref
    rwa [Finset.card_range] at hcard
  have hdirs : handleCnt w.dirs ref ≤ w.dirs.length := List.countP_le_length
  have hroot : (Pi.single w.fs.rootDir 1 : Nat → Nat) ref ≤ 1 := by
    by_cases href : ref = w.fs.rootDir
    · rw [href, Pi.single_eq_same]
    · rw [Pi.single_eq_of_ne href]
      exact Nat.zero_le 1
  simp only [Pi.add_apply]
  omega

variable [DecidableEq π]

/-- What a call leaves is a state of the same kind. -/
theorem HandlesInv.account (h : HandlesInv w)
    (ha : AllCounted (handleCnt w.dirs + Pi.single w.fs.rootDir 1) (w.load p) fs) :
    HandlesInv (w.put p fs) where
  counted := by
    have hroot : fs.rootDir = w.fs.rootDir := ha.rootDir
    change Counted fs.part.openInodes (slotCnt fs.fileTable + (_ + Pi.single fs.rootDir 1))
    rw [hroot]
    exact ha.counted
  installed := @Installed.moves _ _ _ (w.load p) _ h.installed p rfl ha.moves

theorem HandlesInv.quiet (h : HandlesInv w) (hroom : w.dirs.length + 36 < 2 ^ 32) {k : Nat}
    (hk : k ≤ 3) (hq : Quiet k (w.load p) fs) : HandlesInv (w.put p fs) := by
  apply h.account
  refine ⟨.stays hq.fileTable hq.fdTable, hq.rootDir, ?_⟩
  rw [hq.fileTable]
  exact hq.counted _ ((HandlesInv.fits hroom).mono hk) h.counted

theorem FsCall.exec_inv (h : HandlesInv w) (hg : FsCall.Holding w call)
    (hrel : call.Releases w) (he : call.exec w = .ok w') : HandlesInv w' := by
  obtain ⟨hroom, hopens⟩ := hrel
  have hfits := HandlesInv.fits hroom
  cases call with
  | «open» p pathname flags =>
    obtain ⟨⟨r, fs⟩, ho, he⟩ := bind_ok.mp he
    cases he
    exact h.account (sysOpen_accounts h.counted (hfits.mono (by decide))
      (hopens p pathname flags rfl) ho)
  | close p fd =>
    obtain ⟨⟨r, fs⟩, hc, he⟩ := bind_ok.mp he
    cases he
    exact h.account (sysClose_accounts h.counted hc)
  | unlink p pathname =>
    obtain ⟨⟨r, fs⟩, hu, he⟩ := bind_ok.mp he
    cases he
    exact h.quiet hroom (by decide) (sysUnlink_quiet h.counted.live hu)
  | mkdir p pathname =>
    obtain ⟨⟨r, fs⟩, hm, he⟩ := bind_ok.mp he
    cases he
    exact h.quiet hroom (by decide) (sysMkdir_quiet h.counted.live hm)
  | rmdir p pathname =>
    obtain ⟨⟨r, fs⟩, hr, he⟩ := bind_ok.mp he
    cases he
    exact h.quiet hroom (by decide) (sysRmdir_quiet h.counted.live hr)
  | opendir p name =>
    obtain ⟨⟨ret, fs⟩, ho, he⟩ := bind_ok.mp he
    have hload : Counted (w.load p).part.openInodes _ := h.counted
    obtain ⟨hfile, hfd, hroot, hcount⟩ := sysOpendir_accounts hload (hfits.mono (by decide)) ho
    have hinst := @Installed.moves _ _ _ (w.load p) fs h.installed p rfl (.stays hfile hfd)
    have hfile : fs.fileTable = w.fs.fileTable := hfile
    have hroot : fs.rootDir = w.fs.rootDir := hroot
    cases ret with
    | none =>
      cases he
      refine ⟨?_, hinst⟩
      change Counted fs.part.openInodes (slotCnt fs.fileTable + (_ + Pi.single fs.rootDir 1))
      rw [hfile, hroot]
      exact hcount
    | some dir =>
      cases he
      refine ⟨?_, hinst⟩
      change Counted fs.part.openInodes
        (slotCnt fs.fileTable + (handleCnt ((p, dir) :: w.dirs) + Pi.single fs.rootDir 1))
      rw [hfile, hroot, handleCnt_cons, add_right_comm (handleCnt w.dirs), ← add_assoc]
      exact hcount
  | closedir p dir =>
    cases dir with
    | none =>
      cases he
      exact h.quiet hroom (Nat.zero_le 3) (.refl (w.load p))
    | some dir =>
      obtain ⟨⟨r, fs⟩, hc, he⟩ := bind_ok.mp he
      cases he
      obtain ⟨fs', hc, heq⟩ := bind_ok.mp hc
      cases heq
      have hload : Counted (w.load p).part.openInodes (slotCnt w.fs.fileTable +
          (handleCnt (w.dirs.erase (p, dir)) + Pi.single w.fs.rootDir 1) + dirUse dir) := by
        rw [add_assoc, add_right_comm, ← handleCnt_erase hg]
        exact h.counted
      have hclosed := hload.dirClosed hc
      obtain ⟨l, rfl⟩ := dirClose_list hc
      have hinst := @Installed.moves _ _ _ (w.load p) ((w.load p).setOpenInodes l) h.installed p
        rfl (.stays rfl rfl)
      exact ⟨hclosed, hinst⟩
  | stat p path buf =>
    obtain ⟨⟨r, buf', fs⟩, hs, he⟩ := bind_ok.mp he
    cases he
    exact h.quiet hroom (by decide) (sysStat_quiet h.counted.live hs)
  | chdir p path =>
    obtain ⟨⟨r, cwd, fs⟩, hc, he⟩ := bind_ok.mp he
    cases he
    have hq := h.quiet hroom (by decide) (sysChdir_quiet h.counted.live hc)
    exact ⟨hq.counted, hq.installed⟩

theorem handles_preserved : Guarded.Preserves ((FsCall.system (π := π)).only FsCall.Releases)
    HandlesInv := by
  rintro w call w' h ⟨hg, hrel⟩ he
  exact FsCall.exec_inv h hg hrel he

/-- Every run in which `sys_open` leaves nothing open. -/
theorem openCounts_run {calls : List (FsCall π)} (h : w.Mounted)
    (hrun : Guarded.Run (FsCall.system.only FsCall.Releases) w calls w') : w'.CountsRight :=
  (hrun.preserved handles_preserved h.inv).right

end

/-- The image of `writerStart`, mounted. -/
def fileStart : FsWorld Nat := ⟨writerStart, fun _ => 0, []⟩

theorem fileStart_mounted : fileStart.Mounted where
  root := ⟨_, rfl, by decide⟩
  files _ := rfl
  dirs := rfl

theorem fileStart_releases : OpenReleases (fileStart.load 1) pathF O_RDONLY where
  parent no record fs₁ hs _ _ _ := by
    have hcheck : (searchFile (fileStart.load 1) pathF).toOption.any
        (fun found => found.2.1.parentDir.isRoot) = true := by
      decide +kernel
    rw [hs] at hcheck
    exact hcheck
  descriptor _ := ⟨3, by decide, by decide, rfl⟩
  writer _ _ _ _ _ _ hw := absurd hw (by decide)

/-- A file in the root directory is opened and closed. -/
theorem openCounts_run_file : ∃ w, Guarded.Run (FsCall.system.only FsCall.Releases) fileStart
    [.open 1 pathF O_RDONLY, .close 1 3] w ∧ w.CountsRight := by
  have hcheck : ([FsCall.open 1 pathF O_RDONLY, .close 1 3].foldlM FsCall.exec
      fileStart).toOption.any (fun _ => true) = true := by
    decide +kernel
  obtain ⟨w, hw, -⟩ := ok_of_check hcheck
  obtain ⟨w₁, hopen, hw⟩ := bind_ok.mp hw
  obtain ⟨w₂, hclose, hw⟩ := bind_ok.mp hw
  cases hw
  have hdirs : w₁.dirs = [] := by
    obtain ⟨⟨r, fs⟩, -, hput⟩ := bind_ok.mp hopen
    cases hput
    rfl
  have hrun : Guarded.Run (FsCall.system.only FsCall.Releases) fileStart
      [.open 1 pathF O_RDONLY, .close 1 3] w := by
    refine .cons ⟨trivial, by decide, ?_⟩ hopen (.cons ⟨trivial, ?_, ?_⟩ hclose (.nil w))
    · intro p path flags heq
      cases heq
      exact fileStart_releases
    · rw [hdirs]
      decide
    · intro p path flags heq
      cases heq
  exact ⟨w, hrun, openCounts_run fileStart_mounted hrun⟩

/-- The image of `treeFs` with a directory for `f`, in block 613, that lists a file `f`. -/
def nestedDisk : Bytes := fun a =>
  if a = 612 * 512 + 68 then 2
  else if a = 2048 + 76 then 1
  else if a = 2048 + 76 + 4 then 72
  else if a = 2048 + 76 + 16 then 0x65
  else if a = 2048 + 76 + 17 then 0x02
  else if a = 2048 + 152 then 2
  else if a = 613 * 512 ∨ a = 613 * 512 + 24 ∨ a = 613 * 512 + 25 then 46
  else if a = 613 * 512 + 16 then 1
  else if a = 613 * 512 + 20 ∨ a = 613 * 512 + 44 ∨ a = 613 * 512 + 64 then 2
  else if a = 613 * 512 + 48 then 102
  else if a = 613 * 512 + 68 then 1
  else treeDisk a

def nestedStart : FsWorld Nat :=
  ⟨⟨{ treeFs with disk := nestedDisk }, fun _ _ => none⟩, fun _ => 0, []⟩

/-- `/f/f` -/
def pathFF : List UInt8 := [47, 102, 47, 102]

/-- The inode at 2 is open, and neither a handle nor an entry is on it. -/
def strayDir (w : FsWorld Nat) : Bool :=
  decide (w.dirs.length = 0 ∧ w.fs.rootDir = 1) &&
    (w.fs.part.openInodes.map (·.ref)).contains 2 &&
    (List.range MAX_FILE_OPEN).all fun i => decide ((w.fs.fileTable i).fdInode ≠ some 2)

/-- A file below the root is opened, and its directory stays open. -/
theorem openCounts_run_nested : nestedStart.Mounted ∧ ∃ w,
    Guarded.Run FsCall.system nestedStart [.open 1 pathFF O_RDONLY] w ∧ ¬ w.CountsRight := by
  refine ⟨⟨⟨_, rfl, by decide⟩, fun _ => rfl, rfl⟩, ?_⟩
  have hcheck : (FsCall.exec nestedStart (.open 1 pathFF O_RDONLY)).toOption.any strayDir =
      true := by
    decide +kernel
  obtain ⟨w, hw, hstray⟩ := ok_of_check hcheck
  refine ⟨w, .cons trivial hw (.nil w), ?_⟩
  intro hright
  obtain ⟨hhands, hfiles⟩ := Bool.and_eq_true_iff.mp hstray
  obtain ⟨hhands, hlisted⟩ := Bool.and_eq_true_iff.mp hhands
  obtain ⟨hdirs, hroot⟩ := of_decide_eq_true hhands
  obtain ⟨o, ho, href⟩ := List.mem_map.mp (List.contains_iff_mem.mp hlisted)
  apply hright.used o ho
  rw [href]
  have hslots : slotsOf w.fs.fileTable 2 = ∅ := by
    apply Finset.eq_empty_of_forall_notMem
    intro i hi
    obtain ⟨hlt, hinode⟩ := mem_slotsOf.mp hi
    exact of_decide_eq_true (List.all_eq_true.mp hfiles i (List.mem_range.mpr hlt)) hinode
  simp [FsWorld.users, FsWorld.installedCnt, hslots, List.length_eq_zero_iff.mp hdirs, hroot,
    handleCnt]

end ZhuOS
