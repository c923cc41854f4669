import ZhuOS.Blocks

/-!
# Opening a directory and closing it

`dir_open` takes the inode off the list of open inodes or off the disk, `dir_close`
gives it back. In between the inode may change in memory; closing leaves the list
with that inode refreshed, if it was on it before, and as it was otherwise.
-/

namespace ZhuOS

open ByteMem

/-- `struct dir` but for the buffer of `readdir`: whether it is `root_dir`, and the
address of its inode. -/
structure Dir where
  isRoot : Bool
  inode : Nat
  deriving DecidableEq

/-- `sizeof(struct dir)`. -/
def SIZEOF_DIR : Nat := 520

def Fs.root (fs : Fs) : Dir := ⟨true, fs.rootDir⟩

def dirOpen (fs : Fs) (inodeNo : Nat) : Except Fault (Dir × Fs) := do
  let (found, fs) := fs.askMalloc SIZEOF_DIR
  let (inode, fs) ← inodeOpen fs inodeNo
  orNull found
  return (⟨false, inode⟩, fs)

/-- `dir_close`: the root directory stays open. -/
def dirClose (fs : Fs) (dir : Dir) : Except Fault Fs :=
  if dir.isRoot then return fs else inodeClose fs dir.inode

/-! ## The list of open inodes -/

/-- No address and no number occurs twice, and what is on the list is open. -/
structure OpenOk (l : List OpenInode) : Prop where
  refs : (l.map (·.ref)).Nodup
  nos : (l.map (·.inode.iNo)).Nodup
  counts : ∀ o ∈ l, o.inode.iOpenCnts ≠ 0

/-- The list with a new content for an inode; how often it is open stays. -/
def refresh (n : Nat) (nd : Inode) (l : List OpenInode) : List OpenInode :=
  l.map fun o => if o.inode.iNo.toNat = n then
    { o with inode := { nd with iOpenCnts := o.inode.iOpenCnts } } else o

variable {l : List OpenInode} {o : OpenInode} {n ref : Nat} {nd : Inode} {fs : Fs}

theorem find_unique {α κ : Type} [DecidableEq κ] {key : α → κ} {l : List α}
    (h : (l.map key).Nodup) {a : α} (ha : a ∈ l) : l.find? (key · = key a) = some a := by
  have hsome : (l.find? (key · = key a)).isSome :=
    List.find?_isSome.mpr ⟨a, ha, by simp⟩
  obtain ⟨b, hb⟩ := Option.isSome_iff_exists.mp hsome
  have hkey : key b = key a := by simpa using List.find?_some hb
  rw [hb, List.inj_on_of_nodup_map h (List.mem_of_find?_eq_some hb) ha hkey]

theorem find_setInode (l : List OpenInode) (ref : Nat) (nd : Inode) :
    (setInode ref nd l).find? (·.ref = ref) =
      (l.find? (·.ref = ref)).map fun o => { o with inode := nd } := by
  induction l with
  | nil => rfl
  | cons o l ih =>
    rw [setInode] at ih
    rw [setInode, List.map_cons, List.find?_cons, List.find?_cons]
    by_cases h : o.ref = ref
    · simp [h]
    · simp [h, ih]

theorem setInode_setInode (ref : Nat) (a b : Inode) (l : List OpenInode) :
    setInode ref a (setInode ref b l) = setInode ref a l := by
  rw [setInode, setInode, setInode, List.map_map]
  apply List.map_congr_left
  intro o _
  by_cases h : o.ref = ref <;> simp [h]

theorem setInode_refs (ref : Nat) (nd : Inode) (l : List OpenInode) :
    (setInode ref nd l).map (·.ref) = l.map (·.ref) := by
  rw [setInode, List.map_map]
  apply List.map_congr_left
  intro o _
  by_cases h : o.ref = ref <;> simp [h]

/-- Setting an inode to what it is changes nothing. -/
theorem setInode_self (hrefs : (l.map (·.ref)).Nodup) (ho : o ∈ l) :
    setInode o.ref o.inode l = l := by
  refine (List.map_congr_left fun x hx => ?_).trans (List.map_id' l)
  by_cases h : x.ref = o.ref
  · rw [if_pos h, List.inj_on_of_nodup_map hrefs hx ho h]
  · rw [if_neg h]

/-- An inode that is on the list is refreshed where it is. -/
theorem refresh_hit (hl : OpenOk l) (ho : o ∈ l) (nd : Inode) :
    refresh o.inode.iNo.toNat nd l =
      setInode o.ref { nd with iOpenCnts := o.inode.iOpenCnts } l := by
  apply List.map_congr_left
  intro x hx
  by_cases h : x = o
  · subst h
    rw [if_pos rfl, if_pos rfl]
  · rw [if_neg fun hno => h (List.inj_on_of_nodup_map hl.nos hx ho (UInt32.toNat_inj.mp hno)),
      if_neg fun href => h (List.inj_on_of_nodup_map hl.refs hx ho href)]

theorem refresh_miss (hmiss : l.find? (·.inode.iNo.toNat = n) = none) (nd : Inode) :
    refresh n nd l = l := by
  refine (List.map_congr_left fun x hx => ?_).trans (List.map_id' l)
  exact if_neg (by simpa using List.find?_eq_none.mp hmiss x hx)

theorem freshRef_not_mem (l : List OpenInode) : ∀ o ∈ l, o.ref < freshRef l := by
  intro o ho
  have hle : ∀ (r : List Nat) (x : Nat), x ∈ r → x ≤ r.foldr max 0 := by
    intro r
    induction r with
    | nil => exact fun x hx => nomatch hx
    | cons a r ih =>
      intro x hx
      rw [List.foldr_cons]
      cases hx with
      | head => exact Nat.le_max_left _ _
      | tail _ hx => exact (ih x hx).trans (Nat.le_max_right _ _)
  exact Nat.lt_succ_of_le (hle _ _ (List.mem_map_of_mem ho))

/-! ## A directory that is open -/

/-- `dir` is open at inode `n`: the list is `l` and its inode is `nd`. -/
structure DirAt (fs : Fs) (n : Nat) (dir : Dir) (l : List OpenInode) (nd : Inode) : Prop where
  node : l.find? (·.ref = dir.inode) = some ⟨dir.inode, nd⟩
  no : nd.iNo.toNat = n
  stored : Inode.SameStored nd (diskInode fs.disk fs.part n)
  same : setInode dir.inode nd l = l
  fresh : refresh n nd fs.part.openInodes = fs.part.openInodes
  close : ∀ (fs' : Fs) (nd' : Inode), nd'.iNo = nd.iNo → nd'.iOpenCnts = nd.iOpenCnts →
    fs'.part.openInodes = setInode dir.inode nd' l →
      dirClose fs' dir = .ok (fs'.setOpenInodes (refresh n nd' fs.part.openInodes))

theorem inodeAt_eq (h : fs.part.openInodes.find? (·.ref = ref) = some o) :
    fs.inodeAt ref = .ok o.inode := by
  rw [Fs.inodeAt, h]

/-- An open directory that was not changed is closed without a trace. -/
theorem DirAt.close_same {dir : Dir} (h : DirAt fs n dir l nd) :
    dirClose (fs.setOpenInodes l) dir = .ok fs := by
  have := h.close (fs.setOpenInodes l) nd rfl rfl h.same.symm
  rw [h.fresh] at this
  exact this

theorem DirAt.inodeAt {dir : Dir} (h : DirAt fs n dir l nd) :
    (fs.setOpenInodes l).inodeAt dir.inode = .ok nd :=
  @inodeAt_eq ⟨dir.inode, nd⟩ dir.inode (fs.setOpenInodes l) h.node

/-- The root directory is open all the time. -/
theorem dirAt_root (hl : OpenOk fs.part.openInodes) (ho : o ∈ fs.part.openInodes)
    (href : o.ref = fs.rootDir)
    (hstored : Inode.SameStored o.inode (diskInode fs.disk fs.part o.inode.iNo.toNat)) :
    DirAt fs o.inode.iNo.toNat fs.root fs.part.openInodes o.inode := by
  have hset : ∀ nd' : Inode, nd'.iOpenCnts = o.inode.iOpenCnts →
      setInode fs.rootDir nd' fs.part.openInodes =
        refresh o.inode.iNo.toNat nd' fs.part.openInodes := by
    intro nd' hcnt
    rw [refresh_hit hl ho, ← hcnt, href]
  have hself : setInode fs.rootDir o.inode fs.part.openInodes = fs.part.openInodes :=
    href ▸ setInode_self hl.refs ho
  constructor
  · have := find_unique hl.refs ho
    rw [href] at this
    rw [Fs.root, this, ← href]
  · rfl
  · exact hstored
  · exact hself
  · rw [← hset _ rfl]
    exact hself
  · intro fs' nd' _ hcnt hlist
    have hlist : fs'.part.openInodes = setInode fs.rootDir nd' fs.part.openInodes := hlist
    rw [← hset nd' hcnt, ← hlist]
    rfl

/-- Opening a directory, and what closing it will do. -/
theorem dirOpen_ok (ht : TableFits fs.part) (hheap : fs.heap = fun _ => true)
    (hl : OpenOk fs.part.openInodes) (hn : n < 4096)
    (hno : (diskInode fs.disk fs.part n).iNo.toNat = n)
    (hstored : ∀ o ∈ fs.part.openInodes, o.inode.iNo.toNat = n →
      Inode.SameStored o.inode (diskInode fs.disk fs.part n)) :
    ∃ dir l nd, dirOpen fs n = .ok (dir, fs.setOpenInodes l) ∧ dir.isRoot = false ∧
      DirAt fs n dir l nd := by
  have hdir := Fs.askMalloc_found hheap (by decide : 0 < SIZEOF_DIR)
  cases hfind : fs.part.openInodes.find? (·.inode.iNo.toNat = n) with
  | some o =>
    have ho := List.mem_of_find?_eq_some hfind
    have hon : o.inode.iNo.toNat = n := by simpa using List.find?_some hfind
    have hcnt : o.inode.iOpenCnts + 1 - 1 = o.inode.iOpenCnts := by simp
    refine ⟨⟨false, o.ref⟩, setInode o.ref { o.inode with
      iOpenCnts := o.inode.iOpenCnts + 1 } fs.part.openInodes, { o.inode with
      iOpenCnts := o.inode.iOpenCnts + 1 }, ?_, rfl, ?_, hon, ?_, ?_, ?_, ?_⟩
    · simp only [dirOpen, hdir, inodeOpen, hfind]
      rfl
    · rw [find_setInode, find_unique hl.refs ho]
      rfl
    · have := hstored o ho hon
      exact ⟨this.iNo, this.iSize, this.iSectors⟩
    · exact setInode_setInode ..
    · rw [← hon, refresh_hit hl ho]
      exact setInode_self hl.refs ho
    · intro fs' nd' _ hopen hlist
      rw [setInode_setInode] at hlist
      have hat : fs'.inodeAt o.ref = .ok nd' := by
        apply @inodeAt_eq ⟨o.ref, nd'⟩
        rw [hlist, find_setInode, find_unique hl.refs ho]
        rfl
      have hpred : nd'.iOpenCnts - 1 = o.inode.iOpenCnts := by rw [hopen, hcnt]
      simp only [dirClose, inodeClose, hat, ok_bind, hpred]
      rw [if_neg Bool.false_ne_true, if_neg (hl.counts o ho)]
      rw [Fs.setInode, hlist, setInode_setInode, ← hon, refresh_hit hl ho]
      rfl
  | none =>
    have hopen := inodeOpen_miss ht hn hheap hfind
    have hnone : ∀ o ∈ fs.part.openInodes, o.ref ≠ freshRef fs.part.openInodes :=
      fun o ho => Nat.ne_of_lt (freshRef_not_mem _ o ho)
    have hset : ∀ nd : Inode, setInode (freshRef fs.part.openInodes) nd fs.part.openInodes =
        fs.part.openInodes := by
      intro nd
      refine (List.map_congr_left fun x hx => ?_).trans (List.map_id' _)
      exact if_neg (hnone x hx)
    have hcons : ∀ a b : Inode, setInode (freshRef fs.part.openInodes) a
        (⟨freshRef fs.part.openInodes, b⟩ :: fs.part.openInodes) =
          ⟨freshRef fs.part.openInodes, a⟩ :: fs.part.openInodes := by
      intro a b
      have := hset a
      rw [setInode] at this
      rw [setInode, List.map_cons, if_pos rfl, this]
    refine ⟨⟨false, freshRef fs.part.openInodes⟩, ⟨freshRef fs.part.openInodes, { diskInode fs.disk
      fs.part n with iOpenCnts := 1 }⟩ :: fs.part.openInodes, { diskInode fs.disk
      fs.part n with iOpenCnts := 1 }, ?_, rfl, ?_, hno, ⟨rfl, rfl, fun _ _ => rfl⟩, ?_,
      refresh_miss hfind _, ?_⟩
    · simp only [dirOpen, hdir, hopen, ok_bind]
      rfl
    · rw [List.find?_cons_of_pos (by simp)]
    · exact hcons ..
    · intro fs' nd' _ hone hlist
      rw [hcons] at hlist
      have hat : fs'.inodeAt (freshRef fs.part.openInodes) = .ok nd' := by
        apply @inodeAt_eq ⟨freshRef fs.part.openInodes, nd'⟩
        rw [hlist, List.find?_cons_of_pos (by simp)]
      have hone : nd'.iOpenCnts = 1 := hone
      have hpred : nd'.iOpenCnts - 1 = 0 := by
        rw [hone]
        rfl
      simp only [dirClose, inodeClose, hat, ok_bind, hpred]
      rw [if_neg Bool.false_ne_true, if_pos trivial, hlist, refresh_miss hfind,
        List.filter_cons_of_neg (by simp), List.filter_eq_self.mpr (by simpa using hnone)]
      rfl

end ZhuOS
