import ZhuOS.PathCalls

/-!
# Which paths every call can be given

The calls together, whatever the locals hold that nobody has written. A path of slashes alone is
answered with such a local, so that some content of it stops every call that uses the answer.
-/

namespace ZhuOS

open ByteMem

set_option maxRecDepth 2000

variable {fs : Fs} {dirs : Nat → Prop} {path : List UInt8} {no : UInt32}

/-- The functions that take a path apart, and the calls that are given one. -/
inductive PathCall where
  | pathDepthCnt | searchFile | sysUnlink | sysMkdir | sysRmdir | sysChdir | sysStat

/-- The call comes to its end: it returns, every `ASSERT` in it holds and it stays inside of its
buffers. -/
def PathCall.Ends (fs : Fs) (path : List UInt8) : PathCall → Prop
  | pathDepthCnt => ∃ depth, ZhuOS.pathDepthCnt (fs.junk 0) path = .ok depth
  | searchFile => ∃ r, ZhuOS.searchFile fs path = .ok r
  | sysUnlink => ∃ r, ZhuOS.sysUnlink fs path = .ok r
  | sysMkdir => ∃ r, ZhuOS.sysMkdir fs path = .ok r
  | sysRmdir => ∃ r, ZhuOS.sysRmdir fs path = .ok r
  | sysChdir => ∀ cwdInodeNr, ∃ r, ZhuOS.sysChdir fs cwdInodeNr path = .ok r
  | sysStat => ∀ buf, ∃ r, ZhuOS.sysStat fs path buf = .ok r

/-- It does so whatever its locals hold at first. -/
def PathCall.Finishes (fs : Fs) (path : List UInt8) (call : PathCall) : Prop :=
  ∀ junk, call.Ends { fs with junk } path

/-- The paths a call can be given. -/
def PathCall.Fits (fs : Fs) (path : List UInt8) : PathCall → Prop
  | pathDepthCnt => ∀ c ∈ components path, c.length ≤ MAX_FILE_NAME_LEN
  | searchFile | sysChdir => SearchFits fs path
  | sysStat => SearchFits fs path ∧ HasName path
  | sysRmdir => SearchFits fs path ∧ ¬ LeadsToRoot fs path
  | sysUnlink => SearchFits fs path ∧ ¬ LeadsToRoot fs path ∧ UnlinkFits fs path
  | sysMkdir => SearchFits fs path ∧ HasName path ∧ MkdirFits fs path

/-! ## Another content of the locals -/

theorem TreeOk.junk (ht : TreeOk fs dirs) (junk : Bytes) : TreeOk { fs with junk } dirs :=
  ⟨ht.fits, ht.entrySize, ht.openOk, ht.root, ht.rootOpen, ht.small, ht.number, ht.readable,
    ht.stored, ht.listed, ht.rootDots⟩

theorem FileTree.junk (ht : FileTree fs dirs) (junk : Bytes) : FileTree { fs with junk } dirs where
  toTreeOk := ht.toTreeOk.junk junk
  layout := ht.layout
  low := ht.low
  ok := ht.ok
  apart := ht.apart
  marked := ht.marked
  dots := ht.dots
  size := ht.size
  whole := ht.whole
  rootBlock := ht.rootBlock
  numbers := ht.numbers
  file n hn e he hne htype := by
    obtain ⟨hproper, hfile⟩ := ht.file n hn e he hne htype
    exact ⟨hproper, hfile.number, hfile.inMap, hfile.own, hfile.notDir, hfile.apart⟩
  opened := ht.opened
  spare := ht.spare
  handles := ht.handles

theorem fileInUse_junk (fs : Fs) (junk : Bytes) (no : UInt32) (left k : Nat) :
    fileInUse { fs with junk } no left k = fileInUse fs no left k := by
  induction left generalizing k with
  | zero => rfl
  | succ left ih =>
    rw [fileInUse, fileInUse]
    simp only [ih]
    rfl

theorem unlinkFits_junk (junk : Bytes) : UnlinkFits { fs with junk } path ↔ UnlinkFits fs path := by
  unfold UnlinkFits
  simp only [fileInUse_junk]
  exact Iff.rfl

theorem mkdirFits_junk (junk : Bytes) : MkdirFits { fs with junk } path ↔ MkdirFits fs path := by
  constructor
  · intro h front name rest p hmiss
    exact h front name rest p ⟨hmiss.split, hmiss.leads, hmiss.unlisted⟩
  · intro h front name rest p hmiss
    exact h front name rest p ⟨hmiss.split, hmiss.leads, hmiss.unlisted⟩

/-- A local that holds this number. -/
def junkOf (no : UInt32) : Bytes := (⟨fun _ => 0, no, 0⟩ : DirEntry).toBytes

theorem junkNo_junkOf (fs : Fs) (no : UInt32) : junkNo { fs with junk := junkOf no } = no :=
  (DirEntry.ofBytes_toBytes _).2.1

/-! ## A path of slashes -/

theorem not_known (hname : ¬ HasName path) :
    ¬ (path = rootPath ∨ path = rootDotPath ∨ path = rootDotDotPath) := by
  rintro (hroot | hdots)
  · exact hname (.inl hroot)
  · obtain ⟨name, -, hcomps⟩ := components_dots hdots
    exact hname (.inr (by simp [hcomps]))

theorem no_components (hname : ¬ HasName path) : components path = [] := by
  by_contra hsome
  exact hname (.inr hsome)

theorem hasName (hroot : ¬ LeadsToRoot fs path) : HasName path := by
  by_contra hname
  rw [LeadsToRoot, no_components hname] at hroot
  exact hroot rfl

/-- The search opens the root directory once more, and answers with what the local holds. -/
theorem searchFile_none (ht : TreeOk fs dirs) (hheap : fs.heap = fun _ => true)
    (hname : ¬ HasName path) {r : UInt32 × PathSearchRecord × Fs}
    (h : searchFile fs path = .ok r) : r.1 = junkNo fs ∧ r.2.1.searchedPath = [] ∧
      ∃ l, r.2.2 = fs.setOpenInodes l ∧
        ∀ o ∈ l, ∃ x ∈ fs.part.openInodes, o.inode.iNo = x.inode.iNo := by
  rw [searchFile, if_neg (not_known hname)] at h
  obtain ⟨⟨⟩, -, h⟩ := bind_ok.mp h
  obtain ⟨⟨name, rest⟩, hparse, h⟩ := bind_ok.mp h
  obtain ⟨-, ⟨-, rfl, rfl⟩ | ⟨hcons, -⟩⟩ := pathParse_short hparse
  · obtain ⟨dir, l, nd, hopen, -, -⟩ := ht.opens hheap ht.root
    have hroot : dirClose fs fs.root = .ok fs := rfl
    have hzero : (0 : UInt32).toNat = 0 := rfl
    change searchLoop (path.length + 2) [] none fs.root 0 [] _ fs = .ok r at h
    rw [searchLoop, if_pos rfl] at h
    simp only [hroot, ok_bind, hzero, hopen] at h
    cases h
    refine ⟨rfl, rfl, l, rfl, fun o ho => ?_⟩
    obtain ⟨⟨ref, fs₁⟩, hinode, hret⟩ := bind_ok.mp hopen
    obtain ⟨⟨⟩, -, hret⟩ := bind_ok.mp hret
    obtain ⟨l', heap, hfs₁, hopens⟩ := inodeOpen_opens hinode
    obtain rfl : fs₁ = fs.setOpenInodes l := congrArg Prod.snd (Except.ok.inj hret)
    obtain rfl : l = l' := congrArg (·.part.openInodes) hfs₁
    cases hopens with
    | @hit x hx hno =>
      obtain ⟨y, hy, rfl⟩ := List.mem_map.mp ho
      by_cases hsame : y.ref = x.ref
      · exact ⟨x, hx, by rw [if_pos hsame]⟩
      · exact ⟨y, hy, by rw [if_neg hsame]⟩
    | miss hmiss hread =>
      -- the root directory is open
      obtain ⟨x, hx, -, hno⟩ := ht.rootOpen
      exact absurd (congrArg UInt32.toNat hno) (hmiss x hx)
  · rw [no_components hname] at hcons
    cases hcons

/-- No inode is opened beyond the table. -/
theorem inodeOpen_beyond {n : Nat} (hn : 4096 ≤ n)
    (hopened : ∀ o ∈ fs.part.openInodes, o.inode.iNo.toNat < 4096) :
    inodeOpen fs n = .error .panic := by
  have hmiss : fs.part.openInodes.find? (·.inode.iNo.toNat = n) = none := by
    rw [List.find?_eq_none]
    intro o ho
    have := hopened o ho
    simp
    omega
  have hlocate : inodeLocate fs.part n = .error .panic := by
    rw [inodeLocate, ASSERT_false (by omega)]
    rfl
  simp only [inodeOpen, hmiss, hlocate]
  rfl

namespace FileTree

variable (ht : FileTree fs dirs)
include ht

theorem sysStat_named (hheap : fs.heap = fun _ => true) {buf : Stat}
    (h : ∀ junk, ∃ r, sysStat { fs with junk } path buf = .ok r) : HasName path := by
  by_contra hname
  obtain ⟨r, h⟩ := h (junkOf 4096)
  have hno := junkNo_junkOf fs 4096
  have ht' := ht.junk (junkOf 4096)
  rw [sysStat, if_neg (not_known hname)] at h
  obtain ⟨⟨no, record, fs₁⟩, hs, h⟩ := bind_ok.mp h
  obtain ⟨hjunk, -, l, hl, hopened⟩ := searchFile_none ht'.toTreeOk hheap hname hs
  obtain rfl : no = 4096 := hjunk.trans hno
  obtain rfl : fs₁ = _ := hl
  obtain ⟨x, hstat, -⟩ := bind_ok.mp h
  rw [statNode, if_neg (by decide)] at hstat
  obtain ⟨y, hopen, -⟩ := bind_ok.mp hstat
  have hbeyond := @inodeOpen_beyond ({ fs with junk := junkOf 4096 }.setOpenInodes l)
    (4096 : UInt32).toNat (by decide) fun o ho => by
      obtain ⟨x, hx, hsame⟩ := hopened o ho
      rw [hsame]
      exact (ht.opened x hx).1
  rw [hbeyond] at hopen
  cases hopen

/-- The number 0 is asserted not to be found. -/
theorem found_named (hheap : fs.heap = fun _ => true)
    (h : ∀ junk, ∃ r, searchFile { fs with junk } path = .ok r ∧ r.1 ≠ 0) : HasName path := by
  by_contra hname
  obtain ⟨r, hs, hne⟩ := h (junkOf 0)
  obtain ⟨hjunk, -, -⟩ := searchFile_none (ht.junk (junkOf 0)).toTreeOk hheap hname hs
  exact hne (hjunk.trans (junkNo_junkOf fs 0))

theorem sysMkdir_named (hheap : fs.heap = fun _ => true)
    (h : ∀ junk, ∃ r, sysMkdir { fs with junk } path = .ok r) : HasName path := by
  by_contra hname
  obtain ⟨r, h⟩ := h (junkOf (-1))
  have hno := junkNo_junkOf fs (-1)
  have hmalloc : ({ fs with junk := junkOf (-1) } : Fs).askMalloc 1024 =
      (true, { fs with junk := junkOf (-1) }) := Fs.askMalloc_found hheap (by decide)
  simp only [sysMkdir, hmalloc, not_true, ↓reduceIte] at h
  obtain ⟨⟨no, record, fs₁⟩, hs, h⟩ := bind_ok.mp h
  obtain ⟨hjunk, hsearched, -⟩ := searchFile_none (ht.junk (junkOf (-1))).toTreeOk hheap hname hs
  obtain rfl : no = -1 := hjunk.trans hno
  have hsearched : record.searchedPath = [] := hsearched
  have hcount := fun junk => pathDepthCnt_none (no_components hname) junk
  simp only [hsearched, hcount, pathDepthCnt_none components_nil, ok_bind, ne_eq, not_true,
    ↓reduceIte] at h
  obtain ⟨x, hin, -⟩ := bind_ok.mp h
  cases hin

end FileTree

/-- A call comes to its end for exactly the paths that fit it. -/
theorem pathCall_finishes_iff (ht : FileTree fs dirs) (hheap : fs.heap = fun _ => true)
    (hlen : path.length < MAX_PATH_LEN) (call : PathCall) :
    call.Finishes fs path ↔ call.Fits fs path := by
  cases call with
  | pathDepthCnt =>
    constructor
    · intro h
      obtain ⟨depth, h⟩ := h fs.junk
      exact pathDepthCnt_short h
    · intro hshort junk
      by_cases hsome : components path = []
      · exact ⟨_, pathDepthCnt_none hsome _⟩
      · exact ⟨_, pathDepthCnt_ok hshort hsome _⟩
  | searchFile =>
    have hiff := fun junk => searchFile_ends_iff (ht.junk junk).toTreeOk hheap hlen
    exact ⟨fun h => (hiff fs.junk).mp (h fs.junk), fun hfits junk => (hiff junk).mpr hfits⟩
  | sysChdir =>
    have hiff := fun junk cwd => (ht.junk junk).sysChdir_ends_iff hheap hlen cwd
    exact ⟨fun h => (hiff fs.junk 0).mp (h fs.junk 0),
      fun hfits junk cwd => (hiff junk cwd).mpr hfits⟩
  | sysStat =>
    have hiff := fun junk hname buf => (ht.junk junk).sysStat_ends_iff hheap hlen hname buf
    constructor
    · intro h
      have hname : HasName path := ht.sysStat_named hheap fun junk => h junk ⟨0, 0, 0⟩
      exact ⟨(hiff fs.junk hname ⟨0, 0, 0⟩).mp (h fs.junk ⟨0, 0, 0⟩), hname⟩
    · exact fun ⟨hfits, hname⟩ junk buf => (hiff junk hname buf).mpr hfits
  | sysRmdir =>
    have hiff := fun junk hname => (ht.junk junk).sysRmdir_ends_iff hheap hlen hname
    constructor
    · intro h
      have hname : HasName path := ht.found_named hheap fun junk => by
        obtain ⟨r, hr⟩ := h junk
        obtain ⟨r', hs, hr⟩ := bind_ok.mp hr
        obtain ⟨⟨⟩, hassert, -⟩ := bind_ok.mp hr
        exact ⟨r', hs, ASSERT_ok hassert⟩
      exact (hiff fs.junk hname).mp (h fs.junk)
    · intro hfits junk
      exact (hiff junk (hasName hfits.2)).mpr hfits
  | sysUnlink =>
    have hiff := fun junk hname => (ht.junk junk).sysUnlink_ends_iff hheap hlen hname
    constructor
    · intro h
      have hname : HasName path := ht.found_named hheap fun junk => by
        obtain ⟨r, hr⟩ := h junk
        obtain ⟨⟨⟩, -, hr⟩ := bind_ok.mp hr
        obtain ⟨r', hs, hr⟩ := bind_ok.mp hr
        obtain ⟨⟨⟩, hassert, -⟩ := bind_ok.mp hr
        exact ⟨r', hs, ASSERT_ok hassert⟩
      exact (hiff fs.junk hname).mp (h fs.junk)
    · intro ⟨hfits, hroot, hunlink⟩ junk
      exact (hiff junk (hasName hroot)).mpr ⟨hfits, hroot, (unlinkFits_junk junk).mpr hunlink⟩
  | sysMkdir =>
    have hiff := fun junk hname => (ht.junk junk).sysMkdir_ends_iff hheap hlen hname
    constructor
    · intro h
      have hname : HasName path := ht.sysMkdir_named hheap h
      obtain ⟨hfits, hmkdir⟩ := (hiff fs.junk hname).mp (h fs.junk)
      exact ⟨hfits, hname, hmkdir⟩
    · intro ⟨hfits, hname, hmkdir⟩ junk
      exact (hiff junk hname).mpr ⟨hfits, (mkdirFits_junk junk).mpr hmkdir⟩

theorem belowFs_proper {n : Nat} (hn : n < 3) {p : Nat × Nat} (hp : p ∈ dirGrid) {e : DirEntry}
    (he : slot belowFs.disk (diskInode belowFs.disk belowFs.part n) p = some e)
    (hproper : e.Proper) : p = (0, 2) := by
  have hcheck : ∀ n < 3, ∀ p ∈ belowSlots n,
      (slot belowFs.disk (diskInode belowFs.disk belowFs.part n) p).all
        (fun e => decide (e.Proper → p = (0, 2))) = true := by
    decide +kernel
  have hall := hcheck n hn p (belowFs_slots hn p hp (by rw [he]; rfl))
  rw [he] at hall
  exact of_decide_eq_true hall hproper

theorem belowFs_files : FileTree belowFs fun n => n < 3 where
  toDottedTree := belowFs_dotted
  whole := by decide +kernel
  rootBlock := by decide +kernel
  numbers n hn p hp q hq a b ha hb hproper hproper' _ :=
    (belowFs_proper hn hp ha hproper).trans (belowFs_proper hn hq hb hproper').symm
  file n hn e he hne htype := by
    have hdir := (belowFs_listed n hn e he hne).2
    rw [htype] at hdir
    exact absurd hdir (by decide)
  opened o ho := by
    rw [List.mem_singleton.mp ho]
    exact ⟨by decide, rfl, rfl, fun _ _ => rfl⟩
  spare o ho := by
    rw [List.mem_singleton.mp ho]
    decide
  handles i _ ref href := by cases href

/-- `/a` can be given to `sys_chdir`. -/
theorem pathCall_finishes_a : PathCall.sysChdir.Finishes belowFs [slash, 97] := by
  have hcomps : components [slash, 97] = [[97]] := by
    rw [components_slash, components_word (by decide) (by decide)]
  refine (pathCall_finishes_iff belowFs_files rfl (by decide) .sysChdir).mpr (.inr ⟨rfl, ?_⟩)
  rw [hcomps]
  exact partsFit_short (by decide)

/-- A relative path fails the `ASSERT` of the search. -/
theorem sysUnlink_relative : FileTree belowFs (fun n => n < 3) ∧
    (∀ c ∈ [(97 : UInt8)], c ≠ 0) ∧ [(97 : UInt8)].length < MAX_PATH_LEN ∧
    sysUnlink belowFs [97] = .error .panic ∧ ¬ PathCall.sysUnlink.Finishes belowFs [97] := by
  have hrun : sysUnlink belowFs [97] = .error .panic := rfl
  refine ⟨belowFs_files, by decide, by decide, hrun, fun h => ?_⟩
  obtain ⟨r, hr⟩ := h belowFs.junk
  have hok : sysUnlink belowFs [97] = .ok r := hr
  rw [hrun] at hok
  cases hok

end ZhuOS
