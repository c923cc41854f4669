import ZhuOS.InodeThreads
import ZhuOS.OpenFile

/-!
# `search_file` and `sys_open`: what becomes of the open inodes

`search_file` has one directory open at a time and leaves the last one to its caller. What
it opens and closes again leaves the list of open inodes as it was.
-/

namespace ZhuOS

open ByteMem

/-- The record of an inode as `inode_open` reads it. -/
def readInode (disk : Bytes) (part : Partition) (inodeNo : Nat) : Except Fault Inode := do
  let pos ← inodeLocate part inodeNo
  let buf ← ideRead disk pos.secLba (fun _ => 0) pos.secs
  return .ofBytes (shift buf pos.offSize)

/-- No address occurs twice, and what is on the list is open. -/
structure Live (l : List OpenInode) : Prop where
  refs : (l.map (·.ref)).Nodup
  counts : ∀ o ∈ l, o.inode.iOpenCnts ≠ 0

/-- What `inode_open` does to the list: the address of the inode, and the list behind it. -/
inductive Opens (fs : Fs) (n : Nat) : Nat → List OpenInode → Prop
  | hit {o : OpenInode} (ho : o ∈ fs.part.openInodes) (hno : o.inode.iNo.toNat = n) :
    Opens fs n o.ref (setInode o.ref { o.inode with iOpenCnts := o.inode.iOpenCnts + 1 }
      fs.part.openInodes)
  | miss {nd : Inode} (hmiss : Missing fs.part.openInodes n)
      (hread : readInode fs.disk fs.part n = .ok nd) :
    Opens fs n (freshRef fs.part.openInodes)
      (⟨freshRef fs.part.openInodes, { nd with iOpenCnts := 1 }⟩ :: fs.part.openInodes)

/-- The state but for the open inodes and the heap. -/
def Fs.relist (fs : Fs) (l : List OpenInode) (heap : Nat → Bool) : Fs :=
  { fs.setOpenInodes l with heap }

/-- A directory the caller has to close, and the list while it is open. -/
inductive Holds (fs : Fs) : Dir → List OpenInode → Prop
  | root : Holds fs fs.root fs.part.openInodes
  | opened {n ref : Nat} {l : List OpenInode} (h : Opens fs n ref l) : Holds fs ⟨false, ref⟩ l

section
variable {fs fs' : Fs} {n ref : Nat} {l l' : List OpenInode} {heap : Nat → Bool} {dir : Dir}
  {path : List UInt8} {flags : UInt8}

theorem inodeOpen_opens (h : inodeOpen fs n = .ok (ref, fs')) :
    ∃ l heap, fs' = fs.relist l heap ∧ Opens fs n ref l := by
  unfold inodeOpen at h
  cases hf : fs.part.openInodes.find? (·.inode.iNo.toNat = n) with
  | some o =>
    rw [hf] at h
    cases h
    have hno : o.inode.iNo.toNat = n := by simpa using List.find?_some hf
    exact ⟨_, fs.heap, rfl, .hit (List.mem_of_find?_eq_some hf) hno⟩
  | none =>
    rw [hf] at h
    obtain ⟨pos, hpos, h⟩ := bind_ok.mp h
    obtain ⟨-, -, h⟩ := bind_ok.mp h
    obtain ⟨buf, hbuf, h⟩ := bind_ok.mp h
    obtain ⟨-, -, h⟩ := bind_ok.mp h
    cases h
    have hread : readInode fs.disk fs.part n = .ok (.ofBytes (shift buf pos.offSize)) := by
      rw [readInode, hpos, ok_bind]
      exact bind_ok.mpr ⟨buf, hbuf, rfl⟩
    exact ⟨_, _, rfl, .miss (find_missing.mp hf) hread⟩

theorem freshRef_unlisted (l : List OpenInode) : freshRef l ∉ l.map (·.ref) := by
  intro hmem
  obtain ⟨o, ho, heq⟩ := List.mem_map.mp hmem
  exact absurd heq (Nat.ne_of_lt (freshRef_not_mem l o ho))

/-- Opening an inode and closing it again. -/
theorem Opens.close (hl : Live fs.part.openInodes) (h : Opens fs n ref l) :
    inodeClose (fs.relist l heap) ref = .ok (fs.relist fs.part.openInodes heap) := by
  cases h with
  | @hit o ho hno =>
    have hat : (fs.relist (setInode o.ref { o.inode with iOpenCnts := o.inode.iOpenCnts + 1 }
        fs.part.openInodes) heap).inodeAt o.ref =
        .ok { o.inode with iOpenCnts := o.inode.iOpenCnts + 1 } := by
      apply @inodeAt_eq ⟨o.ref, _⟩
      change (setInode o.ref _ fs.part.openInodes).find? _ = _
      rw [find_setInode, find_unique hl.refs ho]
      rfl
    have hpred : o.inode.iOpenCnts + 1 - 1 = o.inode.iOpenCnts := by simp
    simp only [inodeClose, hat, ok_bind, hpred]
    rw [if_neg (hl.counts o ho)]
    change Except.ok (fs.relist (setInode o.ref o.inode (setInode o.ref _ _)) heap) = _
    rw [setInode_setInode, setInode_self hl.refs ho]
  | miss hmiss hread =>
    rename_i nd
    have hat : (fs.relist (⟨freshRef fs.part.openInodes, { nd with iOpenCnts := 1 }⟩ ::
        fs.part.openInodes) heap).inodeAt (freshRef fs.part.openInodes) =
        .ok { nd with iOpenCnts := 1 } := by
      apply @inodeAt_eq ⟨freshRef fs.part.openInodes, _⟩
      change List.find? _ (_ :: fs.part.openInodes) = _
      rw [List.find?_cons_of_pos (by simp)]
    have hpred : (1 : UInt32) - 1 = 0 := rfl
    have hrest : ∀ o ∈ fs.part.openInodes, o.ref ≠ freshRef fs.part.openInodes :=
      fun o ho => Nat.ne_of_lt (freshRef_not_mem _ o ho)
    simp only [inodeClose, hat, ok_bind, hpred]
    rw [if_pos trivial]
    change Except.ok (fs.relist (List.filter _ (_ :: fs.part.openInodes)) heap) = _
    rw [List.filter_cons_of_neg (by simp), List.filter_eq_self.mpr (by simpa using hrest)]

theorem Holds.close (hl : Live fs.part.openInodes) (h : Holds fs dir l) :
    dirClose (fs.relist l heap) dir = .ok (fs.relist fs.part.openInodes heap) := by
  cases h with
  | root => rfl
  | opened ho => exact ho.close hl

theorem dirOpen_holds (h : dirOpen (fs.relist fs.part.openInodes heap) n = .ok (dir, fs')) :
    ∃ l heap', fs' = fs.relist l heap' ∧ Holds fs dir l := by
  obtain ⟨⟨inode, fs₁⟩, hopen, h⟩ := bind_ok.mp h
  obtain ⟨-, -, h⟩ := bind_ok.mp h
  cases h
  obtain ⟨l, heap', rfl, hopens⟩ := inodeOpen_opens hopen
  refine ⟨l, heap', rfl, .opened (n := n) ?_⟩
  cases hopens with
  | hit ho hno => exact .hit ho hno
  | miss hmiss hread => exact .miss hmiss hread

theorem searchDirEntry_relist {nd : Inode} {name : List UInt8} {r : Option DirEntry}
    (h : searchDirEntry (fs.relist l heap) nd name = .ok (r, fs')) :
    ∃ heap', fs' = fs.relist l heap' := by
  unfold searchDirEntry at h
  dsimp only at h
  split at h
  · cases h
    exact ⟨_, rfl⟩
  · obtain ⟨blocks, -, h⟩ := bind_ok.mp h
    obtain ⟨perSec, -, h⟩ := bind_ok.mp h
    obtain ⟨found, -, h⟩ := bind_ok.mp h
    cases h
    exact ⟨_, rfl⟩

/-- One directory is open in every round; the induction is on the rounds left. -/
theorem searchLoop_holds (hl : Live fs.part.openInodes) (fuel : Nat) {name : List UInt8}
    {subPath : Option (List UInt8)} {parentNo no : UInt32} {pre : List UInt8} {dirE : DirEntry}
    {record : PathSearchRecord} (hd : Holds fs dir l)
    (h : searchLoop fuel name subPath dir parentNo pre dirE (fs.relist l heap) =
      .ok (no, record, fs')) :
    ∃ l' heap', fs' = fs.relist l' heap' ∧ Holds fs record.parentDir l' := by
  induction fuel generalizing name subPath dir parentNo pre dirE l heap with
  | zero => cases h
  | succ fuel ih =>
    unfold searchLoop at h
    by_cases hname : name = []
    · rw [if_pos hname] at h
      simp only [hd.close hl, ok_bind] at h
      obtain ⟨⟨dir', fs₁⟩, hopen, h⟩ := bind_ok.mp h
      cases h
      exact dirOpen_holds hopen
    · rw [if_neg hname] at h
      obtain ⟨-, -, h⟩ := bind_ok.mp h
      obtain ⟨pre', -, h⟩ := bind_ok.mp h
      obtain ⟨nd, -, h⟩ := bind_ok.mp h
      obtain ⟨⟨found, fs₁⟩, hs, h⟩ := bind_ok.mp h
      obtain ⟨heap₁, rfl⟩ := searchDirEntry_relist hs
      cases found with
      | none =>
        cases h
        exact ⟨l, heap₁, rfl, hd⟩
      | some de =>
        obtain ⟨⟨name', rest⟩, -, h⟩ := bind_ok.mp h
        dsimp only at h
        by_cases hdir : de.fType = FT_DIRECTORY
        · rw [if_pos hdir] at h
          obtain ⟨nd', -, h⟩ := bind_ok.mp h
          simp only [hd.close hl, ok_bind] at h
          obtain ⟨⟨dir', fs₂⟩, hopen, h⟩ := bind_ok.mp h
          obtain ⟨l₂, heap₂, rfl, hd₂⟩ := dirOpen_holds hopen
          exact ih hd₂ h
        · rw [if_neg hdir] at h
          by_cases hfile : de.fType = FT_REGULAR
          · rw [if_pos hfile] at h
            cases h
            exact ⟨l, heap₁, rfl, hd⟩
          · rw [if_neg hfile] at h
            exact ih hd h

theorem searchFile_holds (hl : Live fs.part.openInodes) {no : UInt32} {record : PathSearchRecord}
    (h : searchFile fs path = .ok (no, record, fs')) :
    ∃ l heap, fs' = fs.relist l heap ∧ Holds fs record.parentDir l := by
  unfold searchFile at h
  split at h
  · cases h
    exact ⟨fs.part.openInodes, fs.heap, rfl, .root⟩
  · obtain ⟨-, -, h⟩ := bind_ok.mp h
    obtain ⟨⟨name, subPath⟩, -, h⟩ := bind_ok.mp h
    have hself : fs = fs.relist fs.part.openInodes fs.heap := rfl
    rw [hself] at h
    exact searchLoop_holds hl _ .root h

/-! ## The ends of `sys_open` -/

/-- The path leads to a regular file, or to no file in a directory, as the flags want it. -/
structure Passes (fs : Fs) (path : List UInt8) (flags : UInt8) (no : UInt32)
    (record : PathSearchRecord) (fs₁ : Fs) : Prop where
  slash : path.getLast? ≠ some slash
  search : searchFile fs path = .ok (no, record, fs₁)
  file : record.fileType ≠ FT_DIRECTORY
  depth : pathDepthCnt (fs.junk 0) path = pathDepthCnt (fs.junk 0) record.searchedPath
  wanted : no = -1 ↔ flags &&& O_CREAT ≠ 0

/-- How a call ends; in all but the first case it has a directory open. -/
inductive SysOpens (fs : Fs) (path : List UInt8) (flags : UInt8) : Int → Fs → Prop
  | refuses (heap : Nat → Bool) (hstop : ∀ no record fs₁, ¬ Passes fs path flags no record fs₁) :
    SysOpens fs path flags (-1) (fs.relist fs.part.openInodes heap)
  | leaks {no : UInt32} {record : PathSearchRecord} {l : List OpenInode} {heap : Nat → Bool}
      (hs : searchFile fs path = .ok (no, record, fs.relist l heap))
      (hd : Holds fs record.parentDir l)
      (hstop : ∀ no record fs₁, ¬ Passes fs path flags no record fs₁)
      (hslash : path.getLast? ≠ some slash) (hfile : record.fileType ≠ FT_DIRECTORY)
      (hdepth : pathDepthCnt (fs.junk 0) path ≠ pathDepthCnt (fs.junk 0) record.searchedPath) :
    SysOpens fs path flags (-1) (fs.relist l heap)
  | creates {record : PathSearchRecord} {l : List OpenInode} {heap : Nat → Bool} {r : Int}
      {fs₁ fs' : Fs} (hp : Passes fs path flags (-1) record (fs.relist l heap))
      (hd : Holds fs record.parentDir l)
      (hcreate : fileCreate (fs.relist l heap) record.parentDir (lastName path) flags =
        .ok (r, fs₁)) (hclose : dirClose fs₁ record.parentDir = .ok fs') :
    SysOpens fs path flags r fs'
  | opens {no : UInt32} {record : PathSearchRecord} {l : List OpenInode} {heap : Nat → Bool}
      {r : Int} {fs' : Fs} (hp : Passes fs path flags no record (fs.relist l heap))
      (hd : Holds fs record.parentDir l) (hno : no ≠ -1)
      (hopen : fileOpen (fs.relist l heap) no.toNat flags = .ok (r, fs')) :
    SysOpens fs path flags r fs'

theorem sysOpen_cases (hl : Live fs.part.openInodes) {r : Int}
    (h : sysOpen fs path flags = .ok (r, fs')) : SysOpens fs path flags r fs' := by
  unfold sysOpen at h
  by_cases hslash : path.getLast? = some slash
  · rw [if_pos hslash] at h
    cases h
    exact .refuses fs.heap fun _ _ _ hp => hp.slash hslash
  · rw [if_neg hslash] at h
    obtain ⟨-, -, h⟩ := bind_ok.mp h
    obtain ⟨depth, hdepth, h⟩ := bind_ok.mp h
    obtain ⟨⟨no, record, fs₁⟩, hs, h⟩ := bind_ok.mp h
    obtain ⟨l, heap, rfl, hd⟩ := searchFile_holds hl hs
    have hsame : ∀ {no' record' fs₂}, Passes fs path flags no' record' fs₂ →
        no' = no ∧ record' = record := by
      intro no' record' fs₂ hp
      have heq := hs.symm.trans hp.search
      cases heq
      exact ⟨rfl, rfl⟩
    have hclosed : (∀ no record fs₁, ¬ Passes fs path flags no record fs₁) →
        dirClose (fs.relist l heap) record.parentDir >>= (fun fs₂ => .ok (-1, fs₂)) =
          .ok (r, fs') → SysOpens fs path flags r fs' := by
      intro hstop hc
      rw [hd.close hl] at hc
      cases hc
      exact .refuses heap hstop
    dsimp only at h
    by_cases hdir : record.fileType = FT_DIRECTORY
    · rw [if_pos hdir] at h
      refine hclosed ?_ h
      intro no' record' fs₂ hp
      obtain ⟨rfl, rfl⟩ := hsame hp
      exact hp.file hdir
    · rw [if_neg hdir] at h
      obtain ⟨depth', hdepth', h⟩ := bind_ok.mp h
      by_cases hne : depth ≠ depth'
      · rw [if_pos hne] at h
        cases h
        have hdepths : pathDepthCnt (fs.junk 0) path ≠
            pathDepthCnt (fs.junk 0) record.searchedPath := by
          intro heq
          have heq := hdepth.symm.trans (heq.trans hdepth')
          cases heq
          exact hne rfl
        refine .leaks hs hd ?_ hslash hdir hdepths
        intro no' record' fs₂ hp
        obtain ⟨rfl, rfl⟩ := hsame hp
        exact hdepths hp.depth
      · rw [if_neg hne] at h
        have heq := not_not.mp hne
        subst heq
        have hdepths := hdepth.trans hdepth'.symm
        by_cases hmissing : ¬ (no ≠ -1) ∧ flags &&& O_CREAT = 0
        · rw [if_pos hmissing] at h
          refine hclosed ?_ h
          intro no' record' fs₂ hp
          obtain ⟨rfl, rfl⟩ := hsame hp
          exact hp.wanted.mp (not_not.mp hmissing.1) hmissing.2
        · rw [if_neg hmissing] at h
          by_cases hthere : no ≠ -1 ∧ flags &&& O_CREAT ≠ 0
          · rw [if_pos hthere] at h
            refine hclosed ?_ h
            intro no' record' fs₂ hp
            obtain ⟨rfl, rfl⟩ := hsame hp
            exact hthere.1 (hp.wanted.mpr hthere.2)
          · rw [if_neg hthere] at h
            have hwanted : no = -1 ↔ flags &&& O_CREAT ≠ 0 := by
              constructor
              · intro hno hzero
                exact hmissing ⟨not_not.mpr hno, hzero⟩
              · intro hflag
                by_contra hno
                exact hthere ⟨hno, hflag⟩
            have hp : Passes fs path flags no record (fs.relist l heap) :=
              ⟨hslash, hs, hdir, hdepths, hwanted⟩
            by_cases hflag : flags &&& O_CREAT ≠ 0
            · rw [if_pos hflag] at h
              obtain ⟨⟨fd, fs₂⟩, hcreate, h⟩ := bind_ok.mp h
              obtain ⟨fs₃, hclose, h⟩ := bind_ok.mp h
              cases h
              have hno := hwanted.mpr hflag
              subst hno
              exact .creates hp hd hcreate hclose
            · rw [if_neg hflag] at h
              have hno : no ≠ -1 := fun heq => hflag (hwanted.mp heq)
              exact .opens hp hd hno h

end

end ZhuOS
