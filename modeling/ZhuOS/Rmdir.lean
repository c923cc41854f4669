import ZhuOS.Mkdir

/-!
# `sys_rmdir`

`dir_is_empty` takes a directory for empty when its size is that of one entry. A directory that
holds `.` and `..` is at least as long as two.
-/

namespace ZhuOS

open ByteMem Slots

set_option maxRecDepth 2000

variable {fs fs' : Fs} {dirs : Nat → Prop} {dir : Dir} {nd : Inode} {l : List OpenInode}
  {o : OpenInode} {n ref : Nat} {path : List UInt8}

/-! ## What an open inode holds -/

/-- An inode that is opened holds what is stored of it. -/
theorem inodeOpen_stored (ht : TableFits fs.part) (hn : n < 4096)
    (hstored : ∀ o ∈ fs.part.openInodes, o.inode.iNo.toNat = n →
      Inode.SameStored o.inode (diskInode fs.disk fs.part n))
    (h : inodeOpen fs n = .ok (ref, fs')) (hat : fs'.inodeAt ref = .ok nd) :
    Inode.SameStored nd (diskInode fs.disk fs.part n) := by
  cases hfind : fs.part.openInodes.find? (·.inode.iNo.toNat = n) with
  | some o =>
    have ho := List.mem_of_find?_eq_some hfind
    have hno : o.inode.iNo.toNat = n := by simpa using List.find?_some hfind
    rw [inodeOpen, hfind] at h
    cases h
    obtain ⟨o', ho', href, rfl⟩ := inodeAt_mem hat
    obtain ⟨-, hne⟩ | ⟨a, -, -, rfl⟩ := mem_setInode ho'
    · exact absurd href hne
    · have hsame := hstored o ho hno
      exact ⟨hsame.iNo, hsame.iSize, hsame.iSectors⟩
  | none =>
    have hread := inodeOpen_miss_ok ht hn hfind h
    obtain rfl := Except.ok.inj (hread.symm.trans hat)
    exact ⟨rfl, rfl, fun _ _ => rfl⟩

theorem inodeOpen_sb (h : inodeOpen fs n = .ok (ref, fs')) : fs'.part.sb = fs.part.sb := by
  rw [inodeOpen] at h
  cases hfind : fs.part.openInodes.find? (·.inode.iNo.toNat = n) with
  | some o =>
    rw [hfind] at h
    cases h
    rfl
  | none =>
    rw [hfind] at h
    obtain ⟨pos, -, h⟩ := bind_ok.mp h
    obtain ⟨-, -, h⟩ := bind_ok.mp h
    obtain ⟨buf, -, h⟩ := bind_ok.mp h
    obtain ⟨-, -, h⟩ := bind_ok.mp h
    cases h
    rfl

/-- What is on the list while a directory is open was there before, or is the directory. -/
theorem DirAt.mem (h : DirAt fs n dir l nd) (ho : o ∈ l) :
    o ∈ fs.part.openInodes ∨ o.inode = nd := by
  have hclose := h.close_same
  by_cases hroot : dir.isRoot = true
  · rw [dirClose, if_pos hroot] at hclose
    have hlist : l = fs.part.openInodes := congrArg (·.part.openInodes) (Except.ok.inj hclose)
    exact .inl (hlist ▸ ho)
  · have hfix : ∀ a ∈ l, (if a.ref = dir.inode then { a with inode := nd } else a) = a := by
      have hsame := h.same
      rw [ZhuOS.setInode] at hsame
      exact List.map_inj_left.mp (hsame.trans (List.map_id l).symm)
    by_cases href : o.ref = dir.inode
    · right
      have := hfix o ho
      rw [if_pos href] at this
      exact (congrArg (·.inode) this).symm
    · left
      rw [dirClose, if_neg hroot] at hclose
      simp only [inodeClose, h.inodeAt, ok_bind] at hclose
      by_cases hlast : nd.iOpenCnts - 1 = 0
      · rw [if_pos hlast] at hclose
        have hlist : l.filter (·.ref ≠ dir.inode) = fs.part.openInodes :=
          congrArg (·.part.openInodes) (Except.ok.inj hclose)
        rw [← hlist]
        exact List.mem_filter.mpr ⟨ho, by simpa using href⟩
      · rw [if_neg hlast] at hclose
        have hlist : ZhuOS.setInode dir.inode { nd with iOpenCnts := nd.iOpenCnts - 1 } l =
            fs.part.openInodes := congrArg (·.part.openInodes) (Except.ok.inj hclose)
        rw [← hlist]
        exact List.mem_map.mpr ⟨o, ho, if_neg href⟩

/-! ## The test for an empty directory -/

/-- A directory whose size is not that of one entry is not taken for empty. -/
theorem dirIsEmpty_ne {empty : Bool} (hsize : fs.part.sb.dirEntrySize = 24)
    (hat : fs.inodeAt dir.inode = .ok nd) (hne : nd.iSize ≠ 24)
    (h : dirIsEmpty fs dir = .ok empty) : empty = false := by
  simp only [dirIsEmpty, hat, ok_bind, hsize] at h
  cases h
  exact decide_eq_false hne

/-- What is opened with another directory open. -/
theorem DirAt.opens_stored {m : Nat} {dir' : Dir} (h : DirAt fs m dir' l nd) (ht : TreeOk fs dirs)
    (hheap : fs.heap = fun _ => true) (hn : dirs n) {nd' : Inode}
    (hopen : dirOpen (fs.setOpenInodes l) n = .ok (dir, fs'))
    (hat : fs'.inodeAt dir.inode = .ok nd') :
    fs'.part.sb = fs.part.sb ∧ Inode.SameStored nd' (diskInode fs.disk fs.part n) := by
  have hfound := @Fs.askMalloc_found (fs.setOpenInodes l) SIZEOF_DIR hheap (by decide)
  simp only [dirOpen, hfound] at hopen
  obtain ⟨⟨ref, fs₁⟩, hinode, hopen⟩ := bind_ok.mp hopen
  cases hopen
  have hfits : TableFits (fs.setOpenInodes l).part := ⟨ht.fits.disk, ht.fits.part⟩
  have hsb : fs₁.part.sb = (fs.setOpenInodes l).part.sb := inodeOpen_sb hinode
  refine ⟨hsb, ?_⟩
  refine @inodeOpen_stored (fs.setOpenInodes l) _ _ n _ hfits (ht.small n hn) (fun o ho hno => ?_)
    hinode hat
  obtain hold | hparent := h.mem ho
  · have hdir : dirs o.inode.iNo.toNat := hno.symm ▸ hn
    exact hno ▸ ht.stored o hold hdir
  · have hsame : m = n := by
      rw [← h.no, ← hparent, hno]
    rw [hparent, ← hsame]
    exact h.stored

/-- No path to a directory of another size is removed. -/
theorem sysRmdir_refuses (ht : TreeOk fs dirs) (hheap : fs.heap = fun _ => true)
    (hpath : PathName path) (hsome : components path ≠ [])
    (hsize : ∀ p, walk fs.disk fs.part (0, FT_DIRECTORY) (components path) =
      some (p, FT_DIRECTORY) → (diskInode fs.disk fs.part p.toNat).iSize ≠ 24) :
    ¬ ∃ fs', sysRmdir fs path = .ok (0, fs') := by
  rintro ⟨fs', h⟩
  obtain ⟨⟨no, record, fs₁⟩, hsearch, h⟩ := bind_ok.mp h
  obtain ⟨⟨⟩, hassert, h⟩ := bind_ok.mp h
  obtain ⟨⟨ret, fs₂⟩, hin, h⟩ := bind_ok.mp h
  obtain ⟨fs₃, -, h⟩ := bind_ok.mp h
  cases h
  by_cases hknown : path = rootPath ∨ path = rootDotPath ∨ path = rootDotDotPath
  · rw [searchFile, if_pos hknown] at hsearch
    cases hsearch
    exact ASSERT_ok hassert rfl
  · obtain ⟨r, hr, hstop⟩ :=
      searchFile_stop ht hheap hpath.absolute hpath.fits hpath.short hknown
    cases Except.ok.inj (hsearch.symm.trans hr)
    cases hstop with
    | missing front rest name p dir l nd hsplit hwalk hat hmiss =>
      rw [rmdirIn, if_pos (.inl rfl)] at hin
      cases hin
    | file front rest name p e dir l nd hsplit hwalk hat hfound htype hsmall =>
      rw [rmdirIn, if_pos (.inr rfl)] at hin
      cases hin
    | directory p parent dir l nd hwalk hsmall hat =>
      have hroot : dirs (0 : UInt32).toNat := ht.root
      have hp : dirs p.toNat := ht.leads hroot (fun c hc => mem_components hc) hwalk
      have hdir : ¬ (p = -1 ∨ FT_DIRECTORY = FT_REGULAR) := by
        rintro (hminus | htype)
        · exact ne_minusOne hsmall hminus
        · cases htype
      rw [if_neg hsome, rmdirIn, if_neg hdir] at hin
      obtain ⟨⟨child, fs₄⟩, hopen, hin⟩ := bind_ok.mp hin
      obtain ⟨empty, hempty, hin⟩ := bind_ok.mp hin
      obtain ⟨nd', hnd', -⟩ := bind_ok.mp hempty
      obtain ⟨hsb, hstored⟩ := hat.opens_stored ht hheap hp hopen hnd'
      have hentry : fs₄.part.sb.dirEntrySize = 24 := by
        rw [hsb, ht.entrySize]
      have hfalse := dirIsEmpty_ne hentry hnd' (hstored.iSize ▸ hsize p hwalk) hempty
      rw [hfalse] at hin
      obtain ⟨fs₅, -, hin⟩ := bind_ok.mp hin
      cases hin

/-! ## Directories that hold `.` and `..` -/

/-- A tree whose directories hold `.` and `..`, with sizes that cover their entries. -/
structure DottedTree (fs : Fs) (dirs : Nat → Prop) : Prop extends DiskTree fs dirs where
  dots : ∀ n, dirs n → ∀ name, name = dot ∨ name = dotDot → ∃ p ∈ dirGrid,
    ∃ e, slot fs.disk (diskInode fs.disk fs.part n) p = some e ∧ e.name = name
  size : ∀ n, dirs n → 24 * (occupied dirGrid (slot fs.disk (diskInode fs.disk fs.part n))).card ≤
    (diskInode fs.disk fs.part n).iSize.toNat

theorem DottedTree.two (ht : DottedTree fs dirs) (hn : dirs n) :
    2 ≤ (occupied dirGrid (slot fs.disk (diskInode fs.disk fs.part n))).card := by
  obtain ⟨p, hp, e, he, hdot⟩ := ht.dots n hn dot (.inl rfl)
  obtain ⟨q, hq, e', he', hdots⟩ := ht.dots n hn dotDot (.inr rfl)
  have hne : p ≠ q := by
    rintro rfl
    rw [he] at he'
    cases he'
    rw [hdot] at hdots
    cases hdots
  have hsub : {p, q} ⊆ occupied dirGrid (slot fs.disk (diskInode fs.disk fs.part n)) := by
    intro x hx
    obtain rfl | hx := Finset.mem_insert.mp hx
    · exact mem_occupied.mpr ⟨hp, e, he⟩
    · rw [Finset.mem_singleton.mp hx]
      exact mem_occupied.mpr ⟨hq, e', he'⟩
  rw [← Finset.card_pair hne]
  exact Finset.card_le_card hsub

theorem DottedTree.size_ne (ht : DottedTree fs dirs) (hn : dirs n) :
    (diskInode fs.disk fs.part n).iSize ≠ 24 := by
  intro he
  have hsize := ht.size n hn
  have htwo := ht.two hn
  have h24 : (24 : UInt32).toNat = 24 := rfl
  rw [he, h24] at hsize
  omega

/-! ## What `sys_rmdir` should do -/

/-- The directory `p` lists what it listed, with the same size, and the bitmaps are the same. -/
structure Restored (fs fs' : Fs) (p : Nat) : Prop where
  listed : ∀ e : DirEntry, e.fType ≠ FT_UNKNOWN →
    (e ∈ entries fs'.disk (diskInode fs'.disk fs'.part p) ↔
      e ∈ entries fs.disk (diskInode fs.disk fs.part p))
  size : (diskInode fs'.disk fs'.part p).iSize = (diskInode fs.disk fs.part p).iSize
  blocks : ∀ i < fs.part.blockBitmap.size, fs'.part.blockBitmap.bit i = fs.part.blockBitmap.bit i
  numbers : ∀ i < fs.part.inodeBitmap.size, fs'.part.inodeBitmap.bit i = fs.part.inodeBitmap.bit i

/-- `sys_rmdir` undoes the `sys_mkdir` that led from `fs` to `fs'`. -/
def Undoes (fs fs' : Fs) (path : List UInt8) (p : UInt32) : Prop :=
  ∃ fs₂, sysRmdir fs' path = .ok (0, fs₂) ∧ Restored fs fs₂ p.toNat

/-- The directory contains `.` and `..` alone. -/
def OnlyDots (fs : Fs) (n : Nat) : Prop :=
  ∀ e ∈ entries fs.disk (diskInode fs.disk fs.part n), e.fType ≠ FT_UNKNOWN →
    e.name = dot ∨ e.name = dotDot

/-- `sys_rmdir` succeeds exactly on a directory that contains nothing else. -/
def RemovesRight (fs : Fs) (path : List UInt8) (n : UInt32) : Prop :=
  (∃ fs', sysRmdir fs path = .ok (0, fs')) ↔ OnlyDots fs n.toNat

/-- `sys_rmdir` never undoes a `sys_mkdir`, and it is right about a directory that contains more
than `.` and `..` alone. -/
theorem sysRmdir_never (ht : DottedTree fs dirs) (hheap : fs.heap = fun _ => true)
    (hcached : ∀ o ∈ fs.part.openInodes, fs.part.inodeBitmap.bit o.inode.iNo.toNat = true)
    (hlow : ∃ i < 256, fs.part.inodeBitmap.bit i = false) :
    (∀ path, PathName path → ∀ front name p, MissingAt fs (components path) front name [] p →
      ¬ DirectFull fs.disk (diskInode fs.disk fs.part p.toNat) 12 →
      ∀ fs', sysMkdir fs path = .ok (0, fs') → ¬ Undoes fs fs' path p) ∧
    ∀ path, PathName path → components path ≠ [] → ∀ n,
      walk fs.disk fs.part (0, FT_DIRECTORY) (components path) = some (n, FT_DIRECTORY) →
      (RemovesRight fs path n ↔ ¬ OnlyDots fs n.toNat) := by
  constructor
  · intro path hpath front name p hmiss hroom fs' h
    rintro ⟨fs₂, hrm, -⟩
    have hfront : ∀ c ∈ front, FileName c := fun c hc =>
      hpath.names c (hmiss.split ▸ List.mem_append_left _ hc)
    have hsome : components path ≠ [] := by
      rw [hmiss.split]
      simp
    obtain ⟨l, parent, n, lba, disk, part, de, s, hm, rfl⟩ :=
      sysMkdir_making ht.toDiskTree hheap hlow hpath hmiss h
    have hright := hm.names hmiss.unlisted hroom
    have htree := hm.settled.treeOk hm.entered (hm.newDirs hcached)
      (hm.entered.steps rfl hm.finalSb hright)
    refine sysRmdir_refuses htree hheap hpath hsome (fun q hwalk => ?_) ⟨fs₂, hrm⟩
    -- the path leads to the new directory, with a size of two entries
    have hnew := hm.settled.walk hm.entered hright hfront rfl hmiss.leads
    rw [← hmiss.split, hwalk] at hnew
    cases hnew
    rw [hm.newToNat, hm.finalInode, hm.newRecord.iSize]
    exact show (48 : UInt32) ≠ 24 by decide
  · intro path hpath hsome n hwalk
    have hroot : dirs (0 : UInt32).toNat := ht.root
    have hnever : ¬ ∃ fs', sysRmdir fs path = .ok (0, fs') :=
      sysRmdir_refuses ht.toTreeOk hheap hpath hsome fun q hq =>
        ht.size_ne (ht.leads hroot (fun c hc => mem_components hc) hq)
    unfold RemovesRight
    constructor
    · exact fun hiff hdots => hnever (hiff.mpr hdots)
    · exact fun hmore => ⟨fun hrm => absurd hrm hnever, fun hdots => absurd hdots hmore⟩

/-- The slots in use in the directories of the example. -/
def belowSlots (n : Nat) : List (Nat × Nat) :=
  if n = 2 then [(0, 0), (0, 1)] else [(0, 0), (0, 1), (0, 2)]

theorem belowFs_slots (hn : n < 3) : ∀ p ∈ dirGrid,
    (slot belowFs.disk (diskInode belowFs.disk belowFs.part n) p).isSome → p ∈ belowSlots n := by
  rintro ⟨k, j⟩ hp hsome
  obtain ⟨hk, hj⟩ : k < 140 ∧ j < 21 := mem_dirGrid.mp hp
  obtain ⟨e, he⟩ := Option.isSome_iff_exists.mp hsome
  have hcheck : ∀ n < 3, ∀ j < 21,
      (slot belowFs.disk (diskInode belowFs.disk belowFs.part n) (0, j)).isSome →
      (0, j) ∈ belowSlots n := by
    intro n hn
    interval_cases n <;> decide +kernel
  obtain rfl | hpos := Nat.eq_zero_or_pos k
  · exact hcheck n hn j hj hsome
  · have hb := belowFs_blocks n hn k hk
    rw [if_neg (Nat.ne_of_gt hpos)] at hb
    exact absurd (UInt32.toNat_inj.mp hb) (slot_some.mp he).1

theorem belowFs_dotted : DottedTree belowFs fun n => n < 3 where
  toDiskTree := belowFs_disk
  dots n hn := by
    have hcheck : ∀ n < 3, ∀ name ∈ [dot, dotDot], ∃ j ∈ [0, 1],
        (slot belowFs.disk (diskInode belowFs.disk belowFs.part n) (0, j)).any
          (fun e => decide (e.name = name)) = true := by
      decide +kernel
    intro name hname
    obtain ⟨j, hj, hany⟩ := hcheck n hn name (by
      obtain rfl | rfl := hname
      · decide
      · decide)
    obtain ⟨e, he, hsame⟩ := (Option.any_eq_true ..).mp hany
    have hlt : j < 21 := by
      have hle : ∀ j ∈ [0, 1], j < 21 := by decide
      exact hle j hj
    exact ⟨(0, j), pair_mem_dirGrid (by decide) hlt, e, he, of_decide_eq_true hsame⟩
  size n hn := by
    have hsize : ∀ n < 3, 24 * (belowSlots n).length ≤
        (diskInode belowFs.disk belowFs.part n).iSize.toNat := by
      decide +kernel
    have hle := card_le_length (belowSlots n) (belowFs_slots hn)
    exact (Nat.mul_le_mul_left 24 hle).trans (hsize n hn)

/-- Neither half on this tree: the new `/a/c` stays, and so does the empty `/a/b`. -/
theorem sysRmdir_never_beside :
    (∃ fs', sysMkdir belowFs pathAC = .ok (0, fs') ∧ ¬ Undoes belowFs fs' pathAC 1) ∧
    ¬ RemovesRight belowFs (joinPath [[97], [98]]) 2 := by
  have hcomps : components (joinPath [[97], [98]]) = [[97], [98]] :=
    components_joinPath (by decide)
  have hname : PathName (joinPath [[97], [98]]) :=
    ⟨rfl, by decide, by decide, by rw [hcomps]; decide⟩
  obtain ⟨hundo, hremoves⟩ :=
    sysRmdir_never belowFs_dotted rfl belowFs_cached ⟨3, by decide, by decide⟩
  obtain ⟨fs', hrun⟩ := belowFs_run
  refine ⟨⟨fs', hrun, hundo pathAC pathAC_name [[97]] [99] 1 belowFs_missing belowFs_spare fs' hrun⟩, ?_⟩
  have honly : OnlyDots belowFs 2 := by
    unfold OnlyDots
    decide +kernel
  intro hright
  have hiff := hremoves _ hname (by rw [hcomps]; decide) 2 (by rw [hcomps]; exact belowFs_b.walk)
  exact hiff.mp hright honly

/-- `rmdir("/a/c")` returns -1 right after `mkdir("/a/c")` has returned 0. -/
theorem sysRmdir_refuses_new : DottedTree belowFs (fun n => n < 3) ∧
    MissingAt belowFs (components pathAC) [[97]] [99] [] 1 ∧
    ∃ fs', sysMkdir belowFs pathAC = .ok (0, fs') ∧
      (∃ fs₂, sysRmdir fs' pathAC = .ok (-1, fs₂)) ∧ ¬ Undoes belowFs fs' pathAC 1 := by
  refine ⟨belowFs_dotted, belowFs_missing, ?_⟩
  have hcheck : (match sysMkdir belowFs pathAC with
      | .ok (r, fs') => decide (r = 0) && (match sysRmdir fs' pathAC with
        | .ok (r, _) => decide (r = -1)
        | .error _ => false)
      | .error _ => false) = true := by
    decide +kernel
  split at hcheck
  · rename_i r fs' hrun
    obtain ⟨hzero, hcheck⟩ := Bool.and_eq_true_iff.mp hcheck
    obtain rfl : r = 0 := of_decide_eq_true hzero
    split at hcheck
    · rename_i r' fs₂ hrm
      obtain rfl : r' = -1 := of_decide_eq_true hcheck
      refine ⟨fs', hrun, ⟨fs₂, hrm⟩, ?_⟩
      rintro ⟨fs₃, hzero', -⟩
      cases hrm.symm.trans hzero'
    · cases hcheck
  · cases hcheck

end ZhuOS
