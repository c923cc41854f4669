import ZhuOS.OpenDirs
import ZhuOS.Lib.Guarded
import Mathlib.Logic.Function.Basic

/-!
# `fs/inode.c`: `inode_open` by several threads

A thread that does not find the number on `open_inodes` sleeps inside `ide_read` before
it puts the inode there, and others run meanwhile. `inodeOpenBegin` and `inodeOpenEnd` are
the two sides of the sleep.
-/

namespace ZhuOS

open ByteMem

/-- What a thread inside `ide_read` goes on with: the number, where its record lies, and
which of the two calls of `sys_malloc` found memory. -/
structure Reading where
  no : Nat
  pos : InodePosition
  inodeFound : Bool
  inodeBuf : Bool

/-- `inode_open` up to `ide_read`, the number not on the list. -/
def inodeOpenBegin (fs : Fs) (inodeNo : Nat) : Except Fault (Reading × Fs) := do
  let pos ← inodeLocate fs.part inodeNo
  let (inodeFound, fs) := fs.askMalloc SIZEOF_INODE
  let (inodeBuf, fs) := fs.askMalloc (pos.secs * 512)
  return (⟨inodeNo, pos, inodeFound, inodeBuf⟩, fs)

/-- From the end of `ide_read` on. -/
def inodeOpenEnd (fs : Fs) (r : Reading) : Except Fault (Nat × Fs) := do
  orNull r.inodeBuf
  let buf ← ideRead fs.disk r.pos.secLba (fun _ => 0) r.pos.secs
  orNull r.inodeFound
  let nd := Inode.ofBytes (shift buf r.pos.offSize)
  let ref := freshRef fs.part.openInodes
  return (ref, fs.setOpenInodes (⟨ref, { nd with iOpenCnts := 1 }⟩ :: fs.part.openInodes))

/-- The search of `inode_open`, and the count of what it finds. -/
def inodeFind (fs : Fs) (inodeNo : Nat) : Option (Nat × Fs) :=
  match fs.part.openInodes.find? (·.inode.iNo.toNat = inodeNo) with
  | some o => some (o.ref, fs.setInode o.ref { o.inode with iOpenCnts := o.inode.iOpenCnts + 1 })
  | none => none

/-- With nobody in between it is `inode_open`. -/
theorem inodeOpen_eq (fs : Fs) (inodeNo : Nat) : inodeOpen fs inodeNo =
    match inodeFind fs inodeNo with
    | some r => .ok r
    | none => inodeOpenBegin fs inodeNo >>= fun (r, fs) => inodeOpenEnd fs r := by
  unfold inodeOpen inodeFind inodeOpenBegin
  cases fs.part.openInodes.find? (·.inode.iNo.toNat = inodeNo) with
  | some o => rfl
  | none =>
    cases inodeLocate fs.part inodeNo with
    | error e => rfl
    | ok pos => rfl

/-- The inodes each thread has opened and not closed, and the threads that sleep. -/
structure InodeWorld where
  fs : Fs
  reading : Nat → Option Reading
  held : Nat → List Nat

inductive InodeCall
  | open (t inodeNo : Nat)
  /-- the thread's `ide_read` is done -/
  | wake (t : Nat)
  | close (t ref : Nat)

namespace InodeWorld

/-- Numbers come from directory entries and from the super block: their records hold
them. Threads close what they have opened. -/
def guard (w : InodeWorld) : InodeCall → Prop
  | .open t inodeNo => w.reading t = none ∧ inodeNo < 4096 ∧
      (diskInode w.fs.disk w.fs.part inodeNo).iNo.toNat = inodeNo
  | .wake t => w.reading t ≠ none
  | .close t ref => w.reading t = none ∧ ref ∈ w.held t

/-- A thread has opened an inode. -/
def opened (w : InodeWorld) (t : Nat) (fs : Fs) (ref : Nat) : InodeWorld where
  fs := fs
  reading := Function.update w.reading t none
  held := Function.update w.held t (ref :: w.held t)

def exec (w : InodeWorld) : InodeCall → Except Fault InodeWorld
  | .open t inodeNo =>
    match inodeFind w.fs inodeNo with
    | some (ref, fs) => .ok (w.opened t fs ref)
    | none => do
      let (r, fs) ← inodeOpenBegin w.fs inodeNo
      return { w with fs, reading := Function.update w.reading t (some r) }
  | .wake t =>
    match w.reading t with
    | none => .ok w
    | some r => do
      let (ref, fs) ← inodeOpenEnd w.fs r
      return w.opened t fs ref
  | .close t ref => do
    let fs ← inodeClose w.fs ref
    return { w with fs, held := Function.update w.held t ((w.held t).erase ref) }

def system : Guarded.System InodeWorld InodeCall Fault := ⟨guard, exec⟩

/-- A thread that has to read an inode from the disk finds no other in the course of
reading it. -/
def ReadOnce (w : InodeWorld) : InodeCall → Prop
  | .open _ inodeNo => w.fs.part.openInodes.find? (·.inode.iNo.toNat = inodeNo) = none →
      ∀ u r, w.reading u = some r → r.no ≠ inodeNo
  | .wake _ | .close _ _ => True

end InodeWorld

/-- One inode in memory for each number, so that those who hold it share it. -/
structure OneEach (fs : Fs) : Prop where
  nos : (fs.part.openInodes.map (·.inode.iNo)).Nodup
  shared : ∀ ref ref' nd nd', fs.inodeAt ref = .ok nd → fs.inodeAt ref' = .ok nd' →
    nd.iNo = nd'.iNo → ref = ref'

/-! ## What a list of open inodes keeps -/

structure DistinctInodes (l : List OpenInode) : Prop where
  refs : (l.map (·.ref)).Nodup
  nos : (l.map (·.inode.iNo)).Nodup

/-- The list holds no inode of this number. -/
def Missing (l : List OpenInode) (n : Nat) : Prop := ∀ o ∈ l, o.inode.iNo.toNat ≠ n

section
variable {l : List OpenInode} {fs fs' : Fs} {n ref : Nat} {nd : Inode}

theorem setInode_nos (h : ∀ o ∈ l, o.ref = ref → o.inode.iNo = nd.iNo) :
    (setInode ref nd l).map (·.inode.iNo) = l.map (·.inode.iNo) := by
  rw [setInode, List.map_map]
  apply List.map_congr_left
  intro o ho
  by_cases href : o.ref = ref
  · simp [href, h o ho href]
  · simp [href]

theorem DistinctInodes.setInode (hd : DistinctInodes l)
    (h : ∀ o ∈ l, o.ref = ref → o.inode.iNo = nd.iNo) : DistinctInodes (setInode ref nd l) := by
  constructor
  · rw [setInode_refs]
    exact hd.refs
  · rw [setInode_nos h]
    exact hd.nos

theorem missing_iff : Missing l n ↔ ∀ i ∈ l.map (·.inode.iNo), i.toNat ≠ n := by
  simp [Missing]

theorem find_missing : l.find? (·.inode.iNo.toNat = n) = none ↔ Missing l n := by
  simp [List.find?_eq_none, Missing]

/-- The inode at an address is on the list. -/
theorem inodeAt_mem (h : fs.inodeAt ref = .ok nd) :
    ∃ o ∈ fs.part.openInodes, o.ref = ref ∧ o.inode = nd := by
  unfold Fs.inodeAt at h
  cases hf : fs.part.openInodes.find? (·.ref = ref) with
  | none =>
    rw [hf] at h
    cases h
  | some o =>
    rw [hf] at h
    cases h
    exact ⟨o, List.mem_of_find?_eq_some hf, by simpa using List.find?_some hf, rfl⟩

theorem DistinctInodes.oneEach (hd : DistinctInodes fs.part.openInodes) : OneEach fs := by
  constructor
  · exact hd.nos
  · intro ref ref' nd nd' h h' hno
    obtain ⟨o, ho, rfl, rfl⟩ := inodeAt_mem h
    obtain ⟨o', ho', rfl, rfl⟩ := inodeAt_mem h'
    rw [List.inj_on_of_nodup_map hd.nos ho ho' hno]

/-- What an operation of one thread leaves for the others. -/
structure Keeping (fs fs' : Fs) : Prop where
  disk : fs'.disk = fs.disk
  part : fs'.part = { fs.part with openInodes := fs'.part.openInodes }
  distinct : DistinctInodes fs.part.openInodes → DistinctInodes fs'.part.openInodes

/-- A number that is on the list is counted, and none is put there. -/
theorem inodeFind_keeping (h : inodeFind fs n = some (ref, fs'))
    (hd : DistinctInodes fs.part.openInodes) : Keeping fs fs' ∧
      fs'.part.openInodes.map (·.inode.iNo) = fs.part.openInodes.map (·.inode.iNo) := by
  unfold inodeFind at h
  cases hf : fs.part.openInodes.find? (·.inode.iNo.toNat = n) with
  | none =>
    rw [hf] at h
    cases h
  | some o =>
    rw [hf] at h
    cases h
    have ho := List.mem_of_find?_eq_some hf
    have hsame : ∀ o' ∈ fs.part.openInodes, o'.ref = o.ref → o'.inode.iNo = o.inode.iNo := by
      intro o' ho' href
      rw [List.inj_on_of_nodup_map hd.refs ho' ho href]
    exact ⟨⟨rfl, rfl, fun hd => hd.setInode hsame⟩, setInode_nos hsame⟩

/-- `inode_close` takes numbers away at most. -/
theorem inodeClose_keeping (h : inodeClose fs ref = .ok fs')
    (hd : DistinctInodes fs.part.openInodes) :
    Keeping fs fs' ∧ ∀ n, Missing fs.part.openInodes n → Missing fs'.part.openInodes n := by
  obtain ⟨nd, hat, h⟩ := bind_ok.mp h
  obtain ⟨o, ho, rfl, rfl⟩ := inodeAt_mem hat
  by_cases hlast : o.inode.iOpenCnts - 1 = 0
  · simp only [hlast, if_true] at h
    cases h
    have hsub : fs.part.openInodes.filter (·.ref ≠ o.ref) ⊆ fs.part.openInodes :=
      fun _ hm => List.mem_of_mem_filter hm
    constructor
    · constructor
      · rfl
      · rfl
      · intro hd
        constructor
        · exact hd.refs.sublist (List.filter_sublist.map _)
        · exact hd.nos.sublist (List.filter_sublist.map _)
    · intro n hm o' ho'
      exact hm o' (hsub ho')
  · simp only [hlast, if_false] at h
    cases h
    have hsame : ∀ o' ∈ fs.part.openInodes, o'.ref = o.ref → o'.inode.iNo = o.inode.iNo := by
      intro o' ho' href
      rw [List.inj_on_of_nodup_map hd.refs ho' ho href]
    constructor
    · exact ⟨rfl, rfl, fun hd => hd.setInode hsame⟩
    · intro n hm
      rw [missing_iff] at hm ⊢
      intro i hi
      apply hm
      have hnos : (fs.setInode o.ref { o.inode with iOpenCnts := o.inode.iOpenCnts - 1
          }).part.openInodes.map (·.inode.iNo) = fs.part.openInodes.map (·.inode.iNo) :=
        setInode_nos hsame
      rw [← hnos]
      exact hi

/-- The allocations before the sleep. -/
theorem inodeOpenBegin_ok {r : Reading} (h : inodeOpenBegin fs n = .ok (r, fs')) :
    fs'.disk = fs.disk ∧ fs'.part = fs.part ∧ r.no = n ∧ inodeLocate fs.part n = .ok r.pos := by
  obtain ⟨pos, hpos, h⟩ := bind_ok.mp h
  cases h
  exact ⟨rfl, rfl, rfl, hpos⟩

/-- What is put on the list after the sleep is what lies in the record. -/
theorem inodeOpenEnd_ok {r : Reading} (ht : TableFits fs.part) (hn : r.no < 4096)
    (hpos : inodeLocate fs.part r.no = .ok r.pos) (h : inodeOpenEnd fs r = .ok (ref, fs')) :
    ref = freshRef fs.part.openInodes ∧ fs' = fs.setOpenInodes
      (⟨ref, { diskInode fs.disk fs.part r.no with iOpenCnts := 1 }⟩ :: fs.part.openInodes) := by
  obtain ⟨pos, hpos', hlba, -, hsecs, haddr, hfit⟩ := inodeLocate_ok ht hn
  cases hpos.symm.trans hpos'
  have hcnt : 0 < r.pos.secs ∧ r.pos.secs < 256 := by omega
  obtain ⟨-, -, h⟩ := bind_ok.mp h
  rw [ideRead_few hcnt.1 hcnt.2 hlba, ok_bind] at h
  obtain ⟨-, -, h⟩ := bind_ok.mp h
  cases h
  exact ⟨rfl, by rw [inodeBuf_inode haddr hfit]⟩

end

/-! ## What every run keeps -/

structure InodeInv (w : InodeWorld) : Prop where
  fits : TableFits w.fs.part
  distinct : DistinctInodes w.fs.part.openInodes
  record : ∀ t r, w.reading t = some r → r.no < 4096 ∧
    inodeLocate w.fs.part r.no = .ok r.pos ∧
    (diskInode w.fs.disk w.fs.part r.no).iNo.toNat = r.no
  missing : ∀ t r, w.reading t = some r → Missing w.fs.part.openInodes r.no
  once : ∀ t u r r', w.reading t = some r → w.reading u = some r' → r.no = r'.no → t = u

namespace InodeInv

variable {w w' : InodeWorld} {t n ref : Nat} {fs : Fs} {r : Reading}

/-- Another list of open inodes, and one thread fewer asleep. -/
theorem relist (h : InodeInv w) (hk : Keeping w.fs fs) {reading : Nat → Option Reading}
    (hsub : ∀ u r, reading u = some r → w.reading u = some r)
    (hmiss : ∀ u r, reading u = some r → Missing fs.part.openInodes r.no)
    (held : Nat → List Nat) : InodeInv ⟨fs, reading, held⟩ := by
  have hpart := hk.part
  constructor
  · change TableFits fs.part
    rw [hpart]
    exact ⟨h.fits.disk, h.fits.part⟩
  · exact hk.distinct h.distinct
  · intro u r hu
    change _ ∧ inodeLocate fs.part _ = _ ∧ (diskInode fs.disk fs.part _).iNo.toNat = _
    rw [hpart, hk.disk]
    exact h.record u r (hsub u r hu)
  · exact hmiss
  · intro t u r r' ht hu
    exact h.once t u r r' (hsub t r ht) (hsub u r' hu)

/-- The number is on the list: the search found it. -/
theorem open_hit (h : InodeInv w) (hf : inodeFind w.fs n = some (ref, fs))
    (hr : w.reading t = none) : InodeInv (w.opened t fs ref) := by
  obtain ⟨hk, hnos⟩ := inodeFind_keeping hf h.distinct
  have hsub : ∀ u r, Function.update w.reading t none u = some r → w.reading u = some r := by
    intro u r hu
    rw [← hr, Function.update_eq_self] at hu
    exact hu
  apply h.relist hk hsub
  intro u r hu
  rw [missing_iff, hnos, ← missing_iff]
  exact h.missing u r (hsub u r hu)

/-- It is not, and nobody else is reading it. -/
theorem open_miss (h : InodeInv w) (hmiss : Missing w.fs.part.openInodes n) (hn : n < 4096)
    (hno : (diskInode w.fs.disk w.fs.part n).iNo.toNat = n)
    (honce : ∀ u r, w.reading u = some r → r.no ≠ n) (hb : inodeOpenBegin w.fs n = .ok (r, fs)) :
    InodeInv { w with fs, reading := Function.update w.reading t (some r) } := by
  obtain ⟨hdisk, hpart, rfl, hpos⟩ := inodeOpenBegin_ok hb
  have hcases : ∀ u r', Function.update w.reading t (some r) u = some r' →
      u = t ∧ r' = r ∨ w.reading u = some r' ∧ r'.no ≠ r.no := by
    intro u r' hu
    by_cases he : u = t
    · subst he
      rw [Function.update_self] at hu
      cases hu
      exact .inl ⟨rfl, rfl⟩
    · rw [Function.update_of_ne he] at hu
      exact .inr ⟨hu, honce u r' hu⟩
  constructor
  · exact hpart ▸ h.fits
  · exact hpart ▸ h.distinct
  · intro u r' hu
    change _ ∧ inodeLocate fs.part _ = _ ∧ (diskInode fs.disk fs.part _).iNo.toNat = _
    rw [hpart, hdisk]
    rcases hcases u r' hu with ⟨-, rfl⟩ | ⟨hu, -⟩
    · exact ⟨hn, hpos, hno⟩
    · exact h.record u r' hu
  · intro u r' hu
    change Missing fs.part.openInodes _
    rw [hpart]
    rcases hcases u r' hu with ⟨-, rfl⟩ | ⟨hu, -⟩
    · exact hmiss
    · exact h.missing u r' hu
  · intro u v r' r'' hu hv hsame
    rcases hcases u r' hu with ⟨rfl, rfl⟩ | ⟨hu, hne⟩
    · rcases hcases v r'' hv with ⟨rfl, -⟩ | ⟨-, hne⟩
      · rfl
      · exact absurd hsame.symm hne
    · rcases hcases v r'' hv with ⟨rfl, rfl⟩ | ⟨hv, -⟩
      · exact absurd hsame hne
      · exact h.once u v r' r'' hu hv hsame

/-- The thread goes on: the number is still missing, and now it is there. -/
theorem wake (h : InodeInv w) (hr : w.reading t = some r)
    (he : inodeOpenEnd w.fs r = .ok (ref, fs)) : InodeInv (w.opened t fs ref) := by
  obtain ⟨hn, hpos, hno⟩ := h.record t r hr
  obtain ⟨rfl, rfl⟩ := inodeOpenEnd_ok h.fits hn hpos he
  have hmiss := h.missing t r hr
  have hsub : ∀ u r', Function.update w.reading t none u = some r' →
      u ≠ t ∧ w.reading u = some r' := by
    intro u r' hu
    by_cases he : u = t
    · subst he
      rw [Function.update_self] at hu
      cases hu
    · rw [Function.update_of_ne he] at hu
      exact ⟨he, hu⟩
  apply h.relist _ (fun u r' hu => (hsub u r' hu).2)
  · intro u r' hu
    obtain ⟨hut, hu⟩ := hsub u r' hu
    intro o ho
    rcases List.mem_cons.mp ho with rfl | ho
    · intro heq
      exact hut (h.once u t r' r hu hr (heq.symm.trans hno))
    · exact h.missing u r' hu o ho
  · constructor
    · rfl
    · rfl
    · intro hd
      constructor
      · apply List.nodup_cons.mpr ⟨_, hd.refs⟩
        intro hm
        obtain ⟨o, ho, href⟩ := List.mem_map.mp hm
        exact Nat.ne_of_lt (freshRef_not_mem _ o ho) href
      · apply List.nodup_cons.mpr ⟨_, hd.nos⟩
        intro hm
        obtain ⟨o, ho, hio⟩ := List.mem_map.mp hm
        exact hmiss o ho (by rw [hio]; exact hno)

theorem close (h : InodeInv w) (hc : inodeClose w.fs ref = .ok fs) (held : Nat → List Nat) :
    InodeInv ⟨fs, w.reading, held⟩ := by
  obtain ⟨hk, hmiss⟩ := inodeClose_keeping hc h.distinct
  apply h.relist hk fun _ _ hu => hu
  intro u r hu
  exact hmiss _ (h.missing u r hu)

theorem preserved : Guarded.Preserves (InodeWorld.system.only InodeWorld.ReadOnce) InodeInv := by
  rintro w e w' h ⟨hg, hp⟩ he
  cases e with
  | «open» t n =>
    obtain ⟨hr, hn, hno⟩ := hg
    change w.exec (.open t n) = .ok w' at he
    cases hf : inodeFind w.fs n with
    | some found =>
      simp only [InodeWorld.exec, hf] at he
      cases he
      exact h.open_hit hf hr
    | none =>
      simp only [InodeWorld.exec, hf] at he
      obtain ⟨⟨r, fs⟩, hb, he⟩ := bind_ok.mp he
      cases he
      have hnone : w.fs.part.openInodes.find? (·.inode.iNo.toNat = n) = none := by
        unfold inodeFind at hf
        split at hf
        · cases hf
        · assumption
      exact h.open_miss (find_missing.mp hnone) hn hno (hp hnone) hb
  | wake t =>
    change w.exec (.wake t) = .ok w' at he
    cases hr : w.reading t with
    | none => exact absurd hr hg
    | some r =>
      simp only [InodeWorld.exec, hr] at he
      obtain ⟨⟨ref, fs⟩, hend, he⟩ := bind_ok.mp he
      cases he
      exact h.wake hr hend
  | close t ref =>
    obtain ⟨fs, hc, he⟩ := bind_ok.mp he
    cases he
    exact h.close hc _

end InodeInv

/-- Every run in which no thread looks in vain for an inode another one is reading. -/
theorem inodes_run {fs : Fs} (ht : TableFits fs.part) (hd : DistinctInodes fs.part.openInodes)
    {held : Nat → List Nat} {calls : List InodeCall} {w : InodeWorld}
    (hrun : Guarded.Run (InodeWorld.system.only InodeWorld.ReadOnce) ⟨fs, fun _ => none, held⟩
      calls w) : OneEach w.fs := by
  have hstart : InodeInv ⟨fs, fun _ => none, held⟩ := by
    constructor
    · exact ht
    · exact hd
    · exact nofun
    · exact nofun
    · exact nofun
  exact (hrun.preserved InodeInv.preserved hstart).distinct.oneEach

/-- A partition of which nothing is open. -/
def closedFs : Fs where
  disk := fun _ => 0
  part := tablePartition
  rootDir := 0
  fileTable := fun _ => ⟨0, 0, none⟩
  fdTable := fun _ => none
  heap := fun _ => true
  junk := fun _ => 0

def closedInodes : InodeWorld := ⟨closedFs, fun _ => none, fun _ => []⟩

theorem closedInodes_record : (diskInode closedFs.disk closedFs.part 0).iNo.toNat = 0 := rfl

/-- One thread opens inode 0, and another when it is there. -/
theorem inodes_run_after : ∃ w, Guarded.Run (InodeWorld.system.only InodeWorld.ReadOnce)
    closedInodes [.open 1 0, .wake 1, .open 2 0] w ∧ OneEach w.fs := by
  have hrun : Guarded.Run (InodeWorld.system.only InodeWorld.ReadOnce) closedInodes
      [.open 1 0, .wake 1, .open 2 0] _ :=
    .cons ⟨⟨rfl, by decide, closedInodes_record⟩, nofun⟩ rfl <|
    .cons ⟨nofun, trivial⟩ rfl <|
    .cons ⟨⟨rfl, by decide, closedInodes_record⟩, nofun⟩ rfl <| .nil _
  have hd : DistinctInodes closedFs.part.openInodes := ⟨.nil, .nil⟩
  exact ⟨_, hrun, inodes_run tablePartition_fits hd hrun⟩

/-- Two threads read inode 0 from the disk at the same time, and each puts it on the list. -/
theorem inodes_run_both : ∃ w, Guarded.Run InodeWorld.system closedInodes
    [.open 1 0, .open 2 0, .wake 1, .wake 2] w ∧ ¬ OneEach w.fs := by
  have hrun : Guarded.Run InodeWorld.system closedInodes
      [.open 1 0, .open 2 0, .wake 1, .wake 2] _ :=
    .cons ⟨rfl, by decide, closedInodes_record⟩ rfl <|
    .cons ⟨rfl, by decide, closedInodes_record⟩ rfl <|
    .cons nofun rfl <| .cons nofun rfl <| .nil _
  refine ⟨_, hrun, ?_⟩
  intro h
  have hnos : ([0, 0] : List UInt32).Nodup := h.nos
  exact absurd hnos (by decide)

end ZhuOS
