import ZhuOS.InodeThreads
import ZhuOS.OpenFile

/-!
# `userprog/fork.c`: the files of parent and child

The child has a copy of the parent's `fd_table`, so that both refer to the same entries of
the file table. `update_inode_open_cnts` counts the inodes a second time; an entry has no
count, and the first `file_close` frees it.
-/

namespace ZhuOS

open ByteMem

/-! ## What a write leaves of the partition -/

theorem firstBlock_only {s s' : NodeState} {found : Bool} (h : firstBlock s = .ok (found, s')) :
    BlocksOnly s.part s'.part := by
  unfold firstBlock at h
  by_cases hnew : s.inode.iSectors 0 = 0
  · rw [if_pos hnew] at h
    obtain ⟨⟨lba, disk, part⟩, hc, h⟩ := bind_ok.mp h
    cases lba with
    | none =>
      cases h
      exact claimBlock_only hc
    | some lba =>
      obtain ⟨-, -, h⟩ := bind_ok.mp h
      cases h
      exact claimBlock_only hc
  · rw [if_neg hnew] at h
    cases h
    rfl

theorem claimBlocks_only (left : Nat) {blockIdx : Nat} {w w' : Writer} {found : Bool}
    (h : claimBlocks left blockIdx w = .ok (found, w')) : BlocksOnly w.part w'.part := by
  induction left generalizing blockIdx w with
  | zero =>
    cases h
    rfl
  | succ left ih =>
    obtain ⟨⟨lba, disk, part⟩, hc, h⟩ := bind_ok.mp h
    have hone := claimBlock_only hc
    cases lba with
    | none =>
      cases h
      exact hone
    | some lba =>
      dsimp only at h
      by_cases hdirect : blockIdx < 12
      · rw [if_pos hdirect] at h
        obtain ⟨-, -, h⟩ := bind_ok.mp h
        exact hone.trans (ih h)
      · rw [if_neg hdirect] at h
        exact hone.trans (ih h)

theorem claimBehindTable_only {w w' : Writer} {table : UInt32} {has will : Nat} {found : Bool}
    (h : claimBehindTable w table has will = .ok (found, w')) : BlocksOnly w.part w'.part := by
  obtain ⟨⟨ok, w₁⟩, hc, h⟩ := bind_ok.mp h
  have honly := claimBlocks_only _ hc
  cases ok with
  | false =>
    cases h
    exact honly
  | true =>
    obtain ⟨disk, -, h⟩ := bind_ok.mp h
    cases h
    exact honly

theorem writeBlocks_only {s : NodeState} {w : Writer} {has will : Nat} {found : Bool}
    (h : writeBlocks s has will = .ok (found, w)) : BlocksOnly s.part w.part := by
  unfold writeBlocks at h
  by_cases hsame : will = has
  · rw [if_pos hsame] at h
    by_cases hdirect : will ≤ 12
    · rw [if_pos hdirect] at h
      cases h
      rfl
    · rw [if_neg hdirect] at h
      obtain ⟨-, -, h⟩ := bind_ok.mp h
      obtain ⟨blocks, -, h⟩ := bind_ok.mp h
      cases h
      rfl
  · rw [if_neg hsame] at h
    by_cases hdirect : will ≤ 12
    · rw [if_pos hdirect] at h
      by_cases hfar : 13 < has
      · rw [if_pos hfar] at h
        cases h
      · rw [if_neg hfar] at h
        obtain ⟨-, -, h⟩ := bind_ok.mp h
        exact claimBlocks_only _ h
    · rw [if_neg hdirect] at h
      by_cases hnew : has ≤ 12
      · rw [if_pos hnew] at h
        obtain ⟨⟨lba, disk, part⟩, hc, h⟩ := bind_ok.mp h
        have hone := claimBlock_only hc
        cases lba with
        | none =>
          cases h
          exact hone
        | some lba =>
          obtain ⟨-, -, h⟩ := bind_ok.mp h
          exact hone.trans (claimBehindTable_only h)
      · rw [if_neg hnew] at h
        obtain ⟨-, -, h⟩ := bind_ok.mp h
        obtain ⟨blocks, -, h⟩ := bind_ok.mp h
        exact claimBehindTable_only h

theorem writeNode_only {s s' : NodeState} {src : Bytes} {count : UInt32} {r : Option WriteLoop}
    (h : writeNode s src count = .ok (r, s')) : BlocksOnly s.part s'.part := by
  obtain ⟨⟨first, s₁⟩, hf, h⟩ := bind_ok.mp h
  have hfirst := firstBlock_only hf
  cases first with
  | false =>
    cases h
    exact hfirst
  | true =>
    obtain ⟨-, -, h⟩ := bind_ok.mp h
    obtain ⟨⟨found, w⟩, hw, h⟩ := bind_ok.mp h
    have hblocks := hfirst.trans (writeBlocks_only hw)
    cases found with
    | false =>
      cases h
      exact hblocks
    | true =>
      obtain ⟨l, -, h⟩ := bind_ok.mp h
      obtain ⟨disk, -, h⟩ := bind_ok.mp h
      cases h
      exact hblocks

/-! ## What the calls leave of the tables -/

/-- The addresses of the open inodes. -/
def Fs.openRefs (fs : Fs) : List Nat := fs.part.openInodes.map (·.ref)

/-- Descriptors, entries and open inodes are those of before; counts, sizes and positions
may differ. -/
structure SameFiles (fs fs' : Fs) : Prop where
  fdTable : fs'.fdTable = fs.fdTable
  fdInode : ∀ i, (fs'.fileTable i).fdInode = (fs.fileTable i).fdInode
  refs : fs'.openRefs = fs.openRefs

section
variable {fs fs' fs'' : Fs} {fd : Nat} {buf : Bytes} {count : UInt32} {r : Int}

theorem SameFiles.refl (fs : Fs) : SameFiles fs fs := ⟨rfl, fun _ => rfl, rfl⟩

theorem SameFiles.trans (h : SameFiles fs fs') (h' : SameFiles fs' fs'') : SameFiles fs fs'' where
  fdTable := h'.fdTable.trans h.fdTable
  fdInode i := (h'.fdInode i).trans (h.fdInode i)
  refs := h'.refs.trans h.refs

theorem SameFiles.setInode (fs : Fs) (ref : Nat) (nd : Inode) :
    SameFiles fs (fs.setInode ref nd) where
  fdTable := rfl
  fdInode _ := rfl
  refs := setInode_refs ref nd fs.part.openInodes

theorem SameFiles.setPos (fs : Fs) (fd : Nat) (fdPos : UInt32) :
    SameFiles fs (fs.setPos fd fdPos) where
  fdTable := rfl
  fdInode i := by
    change (Function.update fs.fileTable fd _ i).fdInode = _
    by_cases hi : i = fd
    · subst hi
      rw [Function.update_self]
    · rw [Function.update_of_ne hi]
  refs := rfl

theorem SameFiles.setNode {s : NodeState} (h : BlocksOnly fs.part s.part) (ref : Nat) :
    SameFiles fs (fs.setNode ref s) where
  fdTable := rfl
  fdInode _ := rfl
  refs := by
    change (ZhuOS.setInode ref s.inode s.part.openInodes).map (·.ref) = _
    rw [setInode_refs, h.openInodes]
    rfl

theorem SameFiles.askMalloc (fs : Fs) (size : Nat) : SameFiles fs (fs.askMalloc size).2 :=
  ⟨rfl, fun _ => rfl, rfl⟩

theorem fileWrite_same {g : Nat} (h : fileWrite fs g buf count = .ok (r, fs')) :
    SameFiles fs fs' := by
  unfold fileWrite at h
  cases hf : (fs.fileTable g).fdInode with
  | none =>
    simp only [hf] at h
    cases h
  | some ref =>
    simp only [hf] at h
    obtain ⟨nd, -, h⟩ := bind_ok.mp h
    split at h
    · cases h
      exact .refl fs
    split at h
    · cases h
      exact .askMalloc fs 512
    have hbufs := (SameFiles.askMalloc fs 512).trans (.askMalloc _ (512 + 48))
    split at h
    · cases h
      exact hbufs
    obtain ⟨⟨done, s⟩, hw, h⟩ := bind_ok.mp h
    have hnode := hbufs.trans (.setNode (writeNode_only hw) ref)
    cases done with
    | none =>
      cases h
      exact hnode
    | some l =>
      cases h
      exact hnode.trans (.setPos _ g _)

theorem fileRead_same {g : Nat} {buf' : Bytes} (h : fileRead fs g buf count = .ok (r, buf', fs')) :
    SameFiles fs fs' := by
  unfold fileRead at h
  cases hf : (fs.fileTable g).fdInode with
  | none =>
    simp only [hf] at h
    cases h
  | some ref =>
    simp only [hf] at h
    obtain ⟨nd, -, h⟩ := bind_ok.mp h
    generalize (if nd.iSize < (fs.fileTable g).fdPos + count then
      nd.iSize - (fs.fileTable g).fdPos else count) = size at h
    split at h
    · cases h
      exact .refl fs
    split at h
    · cases h
      exact .askMalloc fs 512
    have hbufs := (SameFiles.askMalloc fs 512).trans (.askMalloc _ (512 + 48))
    split at h
    · cases h
      exact hbufs
    obtain ⟨-, -, h⟩ := bind_ok.mp h
    obtain ⟨blocks, -, h⟩ := bind_ok.mp h
    obtain ⟨l, -, h⟩ := bind_ok.mp h
    cases h
    exact hbufs.trans (.setPos _ g _)

theorem sysWrite_same (h : sysWrite fs fd buf count = .ok (r, fs')) : SameFiles fs fs' := by
  obtain ⟨g, -, h⟩ := bind_ok.mp h
  split at h
  · exact fileWrite_same h
  · cases h
    exact .refl fs

theorem sysRead_same {buf' : Bytes} (h : sysRead fs fd buf count = .ok (r, buf', fs')) :
    SameFiles fs fs' := by
  obtain ⟨g, -, h⟩ := bind_ok.mp h
  exact fileRead_same h

end

/-! ## `sys_fork` and the calls behind it -/

/-- `update_inode_open_cnts` from a descriptor on. -/
def updateInodeOpenCnts : (left localFd : Nat) → Fs → Except Fault Fs
  | 0, _, fs => return fs
  | left + 1, localFd, fs =>
    match fs.fdTable localFd with
    | none => updateInodeOpenCnts left (localFd + 1) fs
    | some globalFd => do
      ASSERT (globalFd < MAX_FILE_OPEN)
      match (fs.fileTable globalFd).fdInode with
      | none => .error .badAddress
      | some ref =>
        let nd ← fs.inodeAt ref
        updateInodeOpenCnts left (localFd + 1)
          (fs.setInode ref { nd with iOpenCnts := nd.iOpenCnts + 1 })

inductive Proc
  | parent
  | child
  deriving DecidableEq, Repr

/-- `sys_fork`: the child's `fd_table` is a copy. -/
def forkFiles (fs : Fs) : Except Fault (FdWorld Proc) := do
  let fs ← updateInodeOpenCnts (MAX_FILES_OPEN_PER_PROC - 3) 3 fs
  return ⟨fs, fun _ => fs.fdTable⟩

inductive FdCall
  | read (p : Proc) (fd : Nat) (buf : Bytes) (count : UInt32)
  | write (p : Proc) (fd : Nat) (buf : Bytes) (count : UInt32)
  | close (p : Proc) (fd : Nat)

/-- The standard streams are no files. -/
def FdCall.exec (w : FdWorld Proc) : FdCall → Except Fault (FdWorld Proc)
  | .read p fd buf count =>
    if fd ≤ 2 then .ok w
    else do
      let (_, _, fs) ← sysRead (w.load p) fd buf count
      return w.store p fs
  | .write p fd buf count =>
    if fd ≤ 2 then .ok w
    else do
      let (_, fs) ← sysWrite (w.load p) fd buf count
      return w.store p fs
  | .close p fd => do
    let (_, fs) ← sysClose (w.load p) fd
    return w.store p fs

def forkSystem : Guarded.System (FdWorld Proc) FdCall Fault :=
  ⟨fun _ _ => True, FdCall.exec⟩

/-- A descriptor of the parent at the fork, its entry and the inode of that. -/
structure Inherited (fs : Fs) (fd i ref : Nat) : Prop where
  lo : 2 < fd
  hi : fd < MAX_FILES_OPEN_PER_PROC
  entry : fs.fdTable fd = some i
  inode : (fs.fileTable i).fdInode = some ref

/-- What both processes may expect of the descriptors they have not closed. -/
structure SharedRight (fs : Fs) (calls : List FdCall) (w : FdWorld Proc) : Prop where
  kept : ∀ p fd i ref, Inherited fs fd i ref → .close p fd ∉ calls →
    w.fdTables p fd = some i ∧ (w.fs.fileTable i).fdInode = some ref ∧
      getFreeSlotInGlobal w.fs.fileTable ≠ some i
  listed : ∀ fd i ref, Inherited fs fd i ref → (ref ∈ w.fs.openRefs ↔
    ∃ p fd' j, Inherited fs fd' j ref ∧ .close p fd' ∉ calls)

/-! ## Before the first close -/

/-- Descriptors, entries and open inodes are those of before. -/
structure Stays (w w' : FdWorld Proc) : Prop where
  fdTables : w'.fdTables = w.fdTables
  fdInode : ∀ i, (w'.fs.fileTable i).fdInode = (w.fs.fileTable i).fdInode
  refs : w'.fs.openRefs = w.fs.openRefs

/-- The state at the fork. -/
def forked (fs : Fs) : FdWorld Proc := ⟨fs, fun _ => fs.fdTable⟩

section
variable {fs fs' : Fs} {w w' w'' : FdWorld Proc} {p q : Proc} {fd k i : Nat} {e : FdCall}
  {calls : List FdCall}

theorem openRefs_of_inodeAt {ref : Nat} {nd : Inode} (h : fs.inodeAt ref = .ok nd) :
    ref ∈ fs.openRefs := by
  obtain ⟨o, ho, href, -⟩ := inodeAt_mem h
  rw [← href]
  exact List.mem_map_of_mem ho

/-- Every descriptor has been looked at, and its inode is open. -/
theorem updateInodeOpenCnts_ok (left : Nat) {localFd : Nat}
    (h : updateInodeOpenCnts left localFd fs = .ok fs') : SameFiles fs fs' ∧
      ∀ fd i, localFd ≤ fd → fd < localFd + left → fs.fdTable fd = some i →
        ∃ ref ∈ fs.openRefs, (fs.fileTable i).fdInode = some ref := by
  induction left generalizing localFd fs with
  | zero =>
    cases h
    refine ⟨.refl _, ?_⟩
    intro fd i hlo hhi
    omega
  | succ left ih =>
    unfold updateInodeOpenCnts at h
    cases hfd : fs.fdTable localFd with
    | none =>
      simp only [hfd] at h
      obtain ⟨hsame, hall⟩ := ih h
      refine ⟨hsame, ?_⟩
      intro fd i hlo hhi hi
      have hne : fd ≠ localFd := by
        rintro rfl
        rw [hfd] at hi
        cases hi
      exact hall fd i (by omega) (by omega) hi
    | some g =>
      simp only [hfd] at h
      obtain ⟨-, -, h⟩ := bind_ok.mp h
      cases hf : (fs.fileTable g).fdInode with
      | none =>
        simp only [hf] at h
        cases h
      | some ref =>
        simp only [hf] at h
        obtain ⟨nd, hat, h⟩ := bind_ok.mp h
        obtain ⟨hsame, hall⟩ := ih h
        have hset := SameFiles.setInode fs ref { nd with iOpenCnts := nd.iOpenCnts + 1 }
        refine ⟨hset.trans hsame, ?_⟩
        intro fd i hlo hhi hi
        by_cases he : fd = localFd
        · subst he
          rw [hfd] at hi
          cases hi
          exact ⟨ref, openRefs_of_inodeAt hat, hf⟩
        · rw [← hset.refs]
          exact hall fd i (by omega) (by omega) hi

theorem forkFiles_ok (h : forkFiles fs = .ok w) : Stays (forked fs) w ∧
    ∀ fd i ref, Inherited fs fd i ref → ref ∈ fs.openRefs := by
  obtain ⟨fs₁, hu, h⟩ := bind_ok.mp h
  cases h
  obtain ⟨hsame, hall⟩ := updateInodeOpenCnts_ok _ hu
  constructor
  · exact ⟨funext fun _ => hsame.fdTable, hsame.fdInode, hsame.refs⟩
  · intro fd i ref hin
    obtain ⟨ref', hmem, hat⟩ := hall fd i hin.lo hin.hi hin.entry
    rw [hin.inode] at hat
    cases hat
    exact hmem

theorem Stays.refl (w : FdWorld Proc) : Stays w w := ⟨rfl, fun _ => rfl, rfl⟩

theorem Stays.trans (h : Stays w w') (h' : Stays w' w'') : Stays w w'' where
  fdTables := h'.fdTables.trans h.fdTables
  fdInode i := (h'.fdInode i).trans (h.fdInode i)
  refs := h'.refs.trans h.refs

theorem SameFiles.store (h : SameFiles (w.load p) fs') : Stays w (w.store p fs') where
  fdTables := by
    have htable : fs'.fdTable = w.fdTables p := h.fdTable
    change Function.update w.fdTables p fs'.fdTable = _
    rw [htable, Function.update_eq_self]
  fdInode := h.fdInode
  refs := h.refs

/-- A call that closes nothing. -/
theorem exec_stays (hopen : ∀ p fd, 2 < fd → e ≠ .close p fd) (he : e.exec w = .ok w') :
    Stays w w' := by
  cases e with
  | read p fd buf count =>
    by_cases hfd : fd ≤ 2
    · simp only [FdCall.exec, if_pos hfd] at he
      cases he
      exact .refl w
    · simp only [FdCall.exec, if_neg hfd] at he
      obtain ⟨⟨r, buf', fs'⟩, hr, he⟩ := bind_ok.mp he
      cases he
      exact (sysRead_same hr).store
  | write p fd buf count =>
    by_cases hfd : fd ≤ 2
    · simp only [FdCall.exec, if_pos hfd] at he
      cases he
      exact .refl w
    · simp only [FdCall.exec, if_neg hfd] at he
      obtain ⟨⟨r, fs'⟩, hr, he⟩ := bind_ok.mp he
      cases he
      exact (sysWrite_same hr).store
  | close p fd =>
    have hfd : ¬ 2 < fd := fun hlt => hopen p fd hlt rfl
    simp only [FdCall.exec, sysClose, if_neg hfd] at he
    cases he
    exact (SameFiles.refl _).store

theorem run_stays (hrun : Guarded.Run forkSystem w calls w')
    (hopen : ∀ p fd, 2 < fd → .close p fd ∉ calls) : Stays w w' := by
  induction hrun with
  | nil => exact .refl _
  | cons hg he _ ih =>
    apply (exec_stays _ he).trans
    · apply ih
      intro p fd hfd hmem
      exact hopen p fd hfd (List.mem_cons_of_mem _ hmem)
    · intro p fd hfd heq
      exact hopen p fd hfd (heq ▸ List.mem_cons_self)

theorem Stays.right (h : Stays (forked fs) w)
    (hlisted : ∀ fd i ref, Inherited fs fd i ref → ref ∈ fs.openRefs)
    (hopen : ∀ p fd, 2 < fd → .close p fd ∉ calls) : SharedRight fs calls w where
  kept p fd i ref hin _ := by
    have hinode : (w.fs.fileTable i).fdInode = some ref := (h.fdInode i).trans hin.inode
    refine ⟨?_, hinode, ?_⟩
    · rw [h.fdTables]
      exact hin.entry
    · intro hfree
      have hnone := (getFreeSlot_some hfree).2.2.1
      rw [hinode] at hnone
      cases hnone
  listed fd i ref hin := by
    constructor
    · intro _
      exact ⟨.parent, fd, i, hin, hopen .parent fd hin.lo⟩
    · intro _
      rw [h.refs]
      exact hlisted fd i ref hin

/-! ## After it -/

/-- A descriptor whose entry the other process has freed. -/
structure Dangling (w : FdWorld Proc) (p : Proc) (fd i : Nat) : Prop where
  entry : w.fdTables p fd = some i
  freed : (w.fs.fileTable i).fdInode = none

theorem exec_close (hfd : 2 < fd) (he : FdCall.exec w (.close p fd) = .ok w') :
    ∃ i, fd < MAX_FILES_OPEN_PER_PROC ∧ w.fdTables p fd = some i ∧
      (w.fs.fileTable i).fdInode ≠ none ∧ w'.fs.fileTable = Function.update w.fs.fileTable i
        { w.fs.fileTable i with fdInode := none } ∧
      w'.fdTables = Function.update w.fdTables p (Function.update (w.fdTables p) fd none) := by
  obtain ⟨⟨r, fs'⟩, hc, he⟩ := bind_ok.mp he
  cases he
  obtain ⟨i, hhi, hi, htaken, hfile, htable⟩ := sysClose_tables hc hfd
  refine ⟨i, hhi, hi, htaken, hfile, ?_⟩
  change Function.update w.fdTables p fs'.fdTable = _
  rw [htable]
  rfl

/-- Another descriptor than the one that is closed. -/
theorem closed_other {v : Option Nat} (hne : ¬ (q = p ∧ k = fd)) :
    Function.update w.fdTables p (Function.update (w.fdTables p) fd v) q k = w.fdTables q k := by
  by_cases hq : q = p
  · subst hq
    have hk : k ≠ fd := fun hk => hne ⟨rfl, hk⟩
    rw [Function.update_self, Function.update_of_ne hk]
  · rw [Function.update_of_ne hq]

/-- It stays so: it cannot be closed, and nobody opens a file. -/
theorem Dangling.step (h : Dangling w q k i) (hk : 2 < k) (he : e.exec w = .ok w') :
    e ≠ .close q k ∧ Dangling w' q k i := by
  by_cases hclose : ∃ p fd, 2 < fd ∧ e = .close p fd
  · obtain ⟨p, fd, hfd, rfl⟩ := hclose
    obtain ⟨j, -, hj, htaken, hfile, htables⟩ := exec_close hfd he
    have hij : i ≠ j := by
      rintro rfl
      exact htaken h.freed
    have hne : ¬ (q = p ∧ k = fd) := by
      rintro ⟨rfl, rfl⟩
      rw [h.entry] at hj
      exact hij (Option.some.inj hj)
    refine ⟨?_, ?_, ?_⟩
    · intro heq
      cases heq
      exact hne ⟨rfl, rfl⟩
    · rw [htables, closed_other hne]
      exact h.entry
    · rw [hfile, Function.update_of_ne hij]
      exact h.freed
  · have hopen : ∀ p fd, 2 < fd → e ≠ .close p fd := fun p fd hfd heq => hclose ⟨p, fd, hfd, heq⟩
    have hs := exec_stays hopen he
    refine ⟨hopen q k hk, ?_, ?_⟩
    · rw [hs.fdTables]
      exact h.entry
    · rw [hs.fdInode]
      exact h.freed

theorem Dangling.run (h : Dangling w q k i) (hk : 2 < k)
    (hrun : Guarded.Run forkSystem w calls w') :
    .close q k ∉ calls ∧ Dangling w' q k i := by
  induction hrun with
  | nil => exact ⟨List.not_mem_nil, h⟩
  | cons hg he _ ih =>
    obtain ⟨hne, hstep⟩ := h.step hk he
    obtain ⟨hnot, hend⟩ := ih hstep
    refine ⟨?_, hend⟩
    intro hmem
    rcases List.mem_cons.mp hmem with heq | hmem
    · exact hne heq.symm
    · exact hnot hmem

def Proc.other : Proc → Proc
  | .parent => .child
  | .child => .parent

theorem Proc.other_ne (p : Proc) : p.other ≠ p := by
  cases p <;> exact nofun

/-- The first close leaves the same descriptor of the other process dangling. -/
theorem run_dangling (h : Stays (forked fs) w) (hrun : Guarded.Run forkSystem w calls w')
    (hfd : 2 < fd) (hmem : .close p fd ∈ calls) : ∃ q k i ref, Inherited fs k i ref ∧
      .close q k ∉ calls ∧ Dangling w' q k i := by
  induction hrun with
  | nil => cases hmem
  | @cons s t u e es hg he hrest ih =>
    by_cases hclose : ∃ p fd, 2 < fd ∧ e = .close p fd
    · obtain ⟨p, k, hk, rfl⟩ := hclose
      obtain ⟨i, hhi, hi, htaken, hfile, htables⟩ := exec_close hk he
      obtain ⟨ref, href⟩ := Option.ne_none_iff_exists'.mp htaken
      have hin : Inherited fs k i ref := by
        refine ⟨hk, hhi, ?_, ?_⟩
        · rw [h.fdTables] at hi
          exact hi
        · exact (h.fdInode i).symm.trans href
      have hother : ¬ (p.other = p ∧ k = k) := fun heq => p.other_ne heq.1
      have hd : Dangling t p.other k i := by
        constructor
        · rw [htables, closed_other hother, h.fdTables]
          exact hin.entry
        · rw [hfile, Function.update_self]
      obtain ⟨hnot, hend⟩ := hd.run hk hrest
      refine ⟨p.other, k, i, ref, hin, ?_, hend⟩
      intro hmem
      rcases List.mem_cons.mp hmem with heq | hmem
      · injection heq with hp
        exact p.other_ne hp
      · exact hnot hmem
    · have hopen : ∀ p fd, 2 < fd → e ≠ .close p fd := fun p fd hfd heq => hclose ⟨p, fd, hfd, heq⟩
      have htail : .close p fd ∈ es := by
        rcases List.mem_cons.mp hmem with heq | hmem
        · exact absurd heq.symm (hopen p fd hfd)
        · exact hmem
      obtain ⟨q, k, i, ref, hin, hnot, hend⟩ := ih (h.trans (exec_stays hopen he)) htail
      refine ⟨q, k, i, ref, hin, ?_, hend⟩
      intro hmem
      rcases List.mem_cons.mp hmem with heq | hmem
      · exact hopen q k hin.lo heq.symm
      · exact hnot hmem

/-- The descriptors of both are right until one of them closes a file. -/
theorem forked_run_right_iff {w₀ : FdWorld Proc} (hfork : forkFiles fs = .ok w₀)
    (hrun : Guarded.Run forkSystem w₀ calls w) :
    SharedRight fs calls w ↔ ∀ p fd, 2 < fd → .close p fd ∉ calls := by
  obtain ⟨hstart, hlisted⟩ := forkFiles_ok hfork
  constructor
  · intro hright p fd hfd hmem
    obtain ⟨q, k, i, ref, hin, hnot, hend⟩ := run_dangling hstart hrun hfd hmem
    have hkept := (hright.kept q k i ref hin hnot).2.1
    rw [hend.freed] at hkept
    cases hkept
  · intro hopen
    exact (hstart.trans (run_stays hrun hopen)).right hlisted hopen

end

/-- The running process has inode 0, an empty file, as descriptor 3. -/
def openedFs (iOpenCnts : UInt32) : Fs :=
  { closedFs with
    part := { tablePartition with openInodes := [⟨1, { inodeInit 0 with iOpenCnts }⟩] }
    fileTable := Function.update closedFs.fileTable 3 ⟨0, 0, some 1⟩
    fdTable := Function.update closedFs.fdTable 3 (some 3) }

theorem forkFiles_openedFs : forkFiles (openedFs 1) = .ok (forked (openedFs 2)) := rfl

/-- Both processes read at the end of the file. -/
theorem forked_run_right_reads : ∃ w, Guarded.Run forkSystem (forked (openedFs 2))
      [.read .parent 3 (fun _ => 0) 1, .read .child 3 (fun _ => 0) 1] w ∧
    SharedRight (openedFs 1)
      [.read .parent 3 (fun _ => 0) 1, .read .child 3 (fun _ => 0) 1] w := by
  have hrun : Guarded.Run forkSystem (forked (openedFs 2))
      [.read .parent 3 (fun _ => 0) 1, .read .child 3 (fun _ => 0) 1] _ :=
    .cons trivial rfl <| .cons trivial rfl <| .nil _
  refine ⟨_, hrun, (forked_run_right_iff forkFiles_openedFs hrun).mpr ?_⟩
  intro p fd _ hmem
  simp at hmem

/-- The child closes its descriptor, and the parent's has no inode behind it. -/
theorem forked_run_close : ∃ w₀ w, forkFiles (openedFs 1) = .ok w₀ ∧
    Guarded.Run forkSystem w₀ [.close .child 3] w ∧
    ¬ SharedRight (openedFs 1) [.close .child 3] w := by
  have hrun : Guarded.Run forkSystem (forked (openedFs 2)) [.close .child 3] _ :=
    .cons trivial rfl <| .nil _
  refine ⟨_, _, forkFiles_openedFs, hrun, ?_⟩
  intro h
  have hin : Inherited (openedFs 1) 3 3 1 := ⟨by decide, by decide, rfl, rfl⟩
  have hkept := (h.kept .parent 3 3 1 hin (by simp)).2.1
  cases hkept

end ZhuOS
