import ZhuOS.FileReads
import ZhuOS.ForkFiles
import ZhuOS.Writers

/-!
# `fd_pos`

The position of a descriptor stays within its file. `file_write` puts it one byte before the
end of what it has written, which is no position when a write of nothing finds a file empty.
-/

namespace ZhuOS

open ByteMem

def SEEK_SET : UInt8 := 1
def SEEK_CUR : UInt8 := 2
def SEEK_END : UInt8 := 3

/-- `sys_lseek`: the position, or -1. -/
def sysLseek (fs : Fs) (fd : Int) (offset : Int32) (whence : UInt8) : Except Fault (Int × Fs) :=
  if fd < 0 then return (-1, fs)
  else do
    ASSERT (0 < whence ∧ whence < 4)
    let globalFd ← fdLocal2global fs fd.toNat
    let pf := fs.fileTable globalFd
    match pf.fdInode with
    | none => .error .badAddress
    | some ref =>
      let nd ← fs.inodeAt ref
      let fileSize := nd.iSize.toInt32
      let newPos :=
        if whence = SEEK_SET then offset
        else if whence = SEEK_CUR then pf.fdPos.toInt32 + offset
        else fileSize + offset
      if newPos < 0 ∨ fileSize - 1 < newPos then return (-1, fs)
      else return (newPos.toInt, fs.setPos globalFd newPos.toUInt32)

/-- A position that both tests let pass lies in the file. -/
theorem seek_le {size : UInt32} {newPos : Int32} (hneg : ¬ newPos < 0)
    (hpast : ¬ size.toInt32 - 1 < newPos) : newPos.toUInt32.toNat ≤ size.toNat := by
  rw [Int32.lt_iff_toInt_lt] at hneg hpast
  have hnew : newPos.toInt = newPos.toBitVec.toInt := rfl
  have hsize : (size.toInt32 - 1).toInt = (size.toBitVec - 1).toInt := rfl
  have hz : (0 : Int32).toInt = 0 := rfl
  rw [hnew, hz] at hneg
  rw [hnew, hsize] at hpast
  change newPos.toBitVec.toNat ≤ size.toBitVec.toNat
  generalize newPos.toBitVec = x at *
  generalize size.toBitVec = s at *
  rw [BitVec.toInt_eq_toNat_cond] at hneg hpast
  rw [BitVec.toInt_eq_toNat_cond] at hpast
  bv_omega

/-! ## Inodes that do not shrink -/

/-- Every inode of the second list is one of the first, and no shorter. -/
def Grows (l l' : List OpenInode) : Prop :=
  ∀ o' ∈ l', ∃ o ∈ l, o.ref = o'.ref ∧ o.inode.iSize.toNat ≤ o'.inode.iSize.toNat

section
variable {fileTable : Nat → File} {l l' l'' : List OpenInode} {spare held : Nat → Nat}
  {i n ref : Nat} {f : File} {nd : Inode} {fs fs' : Fs} {r : Int}

theorem Grows.refl (l : List OpenInode) : Grows l l := fun o ho => ⟨o, ho, rfl, Nat.le_refl _⟩

theorem Grows.trans (h : Grows l l') (h' : Grows l' l'') : Grows l l'' := by
  intro o'' ho''
  obtain ⟨o', ho', href', hle'⟩ := h' o'' ho''
  obtain ⟨o, ho, href, hle⟩ := h o' ho'
  exact ⟨o, ho, href.trans href', hle.trans hle'⟩

theorem Grows.setInode (h : ∀ o ∈ l, o.ref = ref → o.inode.iSize.toNat ≤ nd.iSize.toNat) :
    Grows l (setInode ref nd l) := by
  intro o' ho'
  rcases mem_setInode ho' with ⟨hold, -⟩ | ⟨o, ho, href, rfl⟩
  · exact ⟨o', hold, rfl, Nat.le_refl _⟩
  · exact ⟨o, ho, rfl, h o ho href⟩

/-- The inode at the address is the one that changes. -/
theorem Grows.setAt {o : OpenInode} (hl : Live l) (ho : o ∈ l)
    (hle : o.inode.iSize.toNat ≤ nd.iSize.toNat) : Grows l (ZhuOS.setInode o.ref nd l) := by
  apply Grows.setInode
  intro a ha href
  rw [hl.unique ho ha href]
  exact hle

theorem Grows.filter (p : OpenInode → Bool) (l : List OpenInode) : Grows l (l.filter p) :=
  fun o ho => ⟨o, List.mem_of_mem_filter ho, rfl, Nat.le_refl _⟩

theorem inodeClose_grows (hl : Live fs.part.openInodes) (hc : inodeClose fs ref = .ok fs') :
    Grows fs.part.openInodes fs'.part.openInodes := by
  obtain ⟨nd, hat, hc⟩ := bind_ok.mp hc
  obtain ⟨o, ho, rfl, rfl⟩ := inodeAt_mem hat
  by_cases hlast : o.inode.iOpenCnts - 1 = 0
  · simp only [hlast, if_true] at hc
    cases hc
    exact .filter _ _
  · simp only [hlast, if_false] at hc
    cases hc
    exact .setAt hl ho (Nat.le_refl _)

/-! ## The invariant -/

/-- Every entry stands in its file, and its file is open. -/
structure PosInv (fileTable : Nat → File) (l : List OpenInode) (spare : Nat → Nat) : Prop where
  covered : Covered fileTable l spare
  inFile : ∀ i < MAX_FILE_OPEN, ∀ o ∈ l, (fileTable i).fdInode = some o.ref →
    (fileTable i).fdPos.toNat ≤ o.inode.iSize.toNat

namespace PosInv

/-- Inodes grow or go, and entries stay where they are. -/
theorem grows (h : PosInv fileTable l spare) {spare' : Nat → Nat} (hg : Grows l l')
    (hc : Covered fileTable l' spare') : PosInv fileTable l' spare' := by
  refine ⟨hc, ?_⟩
  intro i hi o' ho' htaken
  obtain ⟨o, ho, href, hle⟩ := hg o' ho'
  rw [← href] at htaken
  exact (h.inFile i hi o ho htaken).trans hle

theorem mono (h : PosInv fileTable l spare) {spare' : Nat → Nat}
    (hle : ∀ r, spare' r ≤ spare r) : PosInv fileTable l spare' :=
  ⟨h.covered.mono hle, h.inFile⟩

/-- An inode that was not on the list, with one spare user. -/
theorem added (h : PosInv fileTable l spare) (hr : ref ∉ l.map (·.ref))
    (hone : nd.iOpenCnts = 1) :
    PosInv fileTable (⟨ref, nd⟩ :: l) (Function.update spare ref (spare ref + 1)) := by
  refine ⟨h.covered.added hr hone, ?_⟩
  intro i hi o ho htaken
  rcases List.mem_cons.mp ho with rfl | ho
  · exact absurd htaken (h.covered.unlisted hr hi)
  · exact h.inFile i hi o ho htaken

theorem opens (h : PosInv fileTable fs.part.openInodes spare) (hroom : Room 1 fs.part.openInodes)
    (ho : Opens fs n ref l) : PosInv fileTable l (Function.update spare ref (spare ref + 1)) := by
  have hc := h.covered.opens hroom ho
  cases ho with
  | @hit o ho hno => exact h.grows (.setAt h.covered.live ho (Nat.le_refl _)) hc
  | miss hmiss hread => exact h.added (freshRef_unlisted _) rfl

/-- `inode_close` by a spare user. -/
theorem closes (h : PosInv fs.fileTable fs.part.openInodes spare) (hs : spare ref ≠ 0)
    (hc : inodeClose fs ref = .ok fs') : PosInv fs'.fileTable fs'.part.openInodes
      (Function.update spare ref (spare ref - 1)) := by
  have hcovered := h.covered.closes hs hc
  have hg := inodeClose_grows h.covered.live hc
  rw [(inodeClose_tables hc).1] at hcovered ⊢
  exact h.grows hg hcovered

/-- A spare user takes an entry, which stands at the start. -/
theorem take (h : PosInv fileTable l spare) (hs : spare ref ≠ 0) (hi : i < MAX_FILE_OPEN)
    (hfree : (fileTable i).fdInode = none) (hf : f.fdInode = some ref) (hpos : f.fdPos = 0) :
    PosInv (Function.update fileTable i f) l (Function.update spare ref (spare ref - 1)) := by
  refine ⟨h.covered.take hs hi hfree hf, ?_⟩
  intro j hj o ho htaken
  by_cases hji : j = i
  · subst hji
    rw [Function.update_self, hpos]
    exact Nat.zero_le _
  · rw [Function.update_of_ne hji] at htaken ⊢
    exact h.inFile j hj o ho htaken

/-- A spare user that was added takes its entry. -/
theorem taken (h : PosInv fileTable l (Function.update spare ref (spare ref + 1)))
    (hi : i < MAX_FILE_OPEN) (hfree : (fileTable i).fdInode = none) (hf : f.fdInode = some ref)
    (hpos : f.fdPos = 0) : PosInv (Function.update fileTable i f) l spare := by
  have hspare : Function.update spare ref (spare ref + 1) ref ≠ 0 := by
    rw [Function.update_self]
    exact Nat.succ_ne_zero _
  have htake := h.take hspare hi hfree hf hpos
  rwa [Function.update_idem, Function.update_self, Nat.add_sub_cancel, Function.update_eq_self]
    at htake

/-- An entry moves within its file. -/
theorem setPos (h : PosInv fs.fileTable fs.part.openInodes spare) {pos : UInt32}
    (hpos : ∀ o ∈ fs.part.openInodes, (fs.fileTable i).fdInode = some o.ref →
      pos.toNat ≤ o.inode.iSize.toNat) :
    PosInv (fs.setPos i pos).fileTable (fs.setPos i pos).part.openInodes spare := by
  have hsame : ∀ j, ((fs.setPos i pos).fileTable j).fdInode = (fs.fileTable j).fdInode := by
    intro j
    by_cases hji : j = i
    · subst hji
      simp [Fs.setPos]
    · simp [Fs.setPos, Function.update_of_ne hji]
  have hslots : slotCnt (fs.setPos i pos).fileTable = slotCnt fs.fileTable := by
    funext r
    unfold slotCnt slotsOf
    simp only [hsame]
  obtain ⟨held, hc, hle⟩ := h.covered
  refine ⟨⟨held, hc, ?_⟩, ?_⟩
  · rw [hslots]
    exact hle
  · intro j hj o ho htaken
    rw [hsame] at htaken
    by_cases hji : j = i
    · subst hji
      have hself : ((fs.setPos j pos).fileTable j).fdPos = pos := by simp [Fs.setPos]
      rw [hself]
      exact hpos o ho htaken
    · have hother : (fs.setPos i pos).fileTable j = fs.fileTable j := by
        simp [Fs.setPos, Function.update_of_ne hji]
      rw [hother]
      exact h.inFile j hj o ho htaken

/-! ## The functions -/

theorem fileOpen (h : PosInv fs.fileTable fs.part.openInodes spare)
    (hroom : Room 1 fs.part.openInodes) {flag : UInt8} (ho : fileOpen fs n flag = .ok (r, fs')) :
    PosInv fs'.fileTable fs'.part.openInodes spare := by
  unfold ZhuOS.fileOpen at ho
  cases hslot : getFreeSlotInGlobal fs.fileTable with
  | none =>
    rw [hslot] at ho
    cases ho
    exact h
  | some i =>
    obtain ⟨-, hi, hfree, -⟩ := getFreeSlot_some hslot
    rw [hslot] at ho
    obtain ⟨⟨ref, fs₁⟩, hopen, ho⟩ := bind_ok.mp ho
    obtain ⟨l, heap, rfl, hopens⟩ := inodeOpen_opens hopen
    have h₁ := (h.opens hroom hopens).taken (f := ⟨0, flag.toUInt32, some ref⟩) hi hfree rfl rfl
    obtain ⟨nd, hat, ho⟩ := bind_ok.mp ho
    obtain ⟨o, hmem, rfl, rfl⟩ := inodeAt_mem hat
    by_cases hw : writes flag.toUInt32
    · rw [if_pos hw] at ho
      by_cases hdeny : o.inode.writeDeny = true
      · rw [if_pos hdeny] at ho
        cases ho
        exact h₁
      · rw [if_neg hdeny] at ho
        obtain ⟨-, heq⟩ := pcbFdInstall_ok (Except.ok.inj ho)
        rw [heq]
        exact h₁.grows (.setAt h₁.covered.live hmem (Nat.le_refl _))
          (h₁.covered.refill hmem rfl rfl)
    · rw [if_neg hw] at ho
      obtain ⟨-, heq⟩ := pcbFdInstall_ok (Except.ok.inj ho)
      rw [heq]
      exact h₁

theorem fileClose (h : PosInv fs.fileTable fs.part.openInodes spare) (hi : i < MAX_FILE_OPEN)
    (hc : fileClose fs i = .ok (r, fs')) : PosInv fs'.fileTable fs'.part.openInodes spare := by
  unfold ZhuOS.fileClose at hc
  cases hf : (fs.fileTable i).fdInode with
  | none =>
    simp only [hf] at hc
    cases hc
  | some ref =>
    simp only [hf] at hc
    obtain ⟨nd, hat, hc⟩ := bind_ok.mp hc
    obtain ⟨fs₁, hclose, hc⟩ := bind_ok.mp hc
    cases hc
    obtain ⟨o, ho, rfl, rfl⟩ := inodeAt_mem hat
    have hset : PosInv fs.fileTable
        (fs.setInode o.ref { o.inode with writeDeny := false }).part.openInodes spare :=
      h.grows (.setAt h.covered.live ho (Nat.le_refl _)) (h.covered.refill ho rfl rfl)
    have hg := inodeClose_grows hset.covered.live hclose
    have hcovered :=
      Covered.free (f := { fs.fileTable i with fdInode := none }) hset.covered hi hf rfl hclose
    have hfile : (fs₁.setSlot i { fs.fileTable i with fdInode := none }).fileTable =
        Function.update fs.fileTable i { fs.fileTable i with fdInode := none } := by
      unfold Fs.setSlot
      rw [(inodeClose_tables hclose).1]
      rfl
    rw [hfile]
    refine ⟨hcovered, ?_⟩
    intro j hj o' ho' htaken
    by_cases hji : j = i
    · subst hji
      rw [Function.update_self] at htaken
      cases htaken
    · rw [Function.update_of_ne hji] at htaken ⊢
      obtain ⟨a, ha, href, hle⟩ := hg o' ho'
      rw [← href] at htaken
      exact (hset.inFile j hj a ha htaken).trans hle

end PosInv

end

/-! ## A directory that gets an entry -/

/-- The size as it was, or an entry more. -/
def EntrySized (s s' : NodeState) : Prop :=
  s'.inode.iSize = s.inode.iSize ∨ s'.inode.iSize = s.inode.iSize + s.part.sb.dirEntrySize

section
variable {s s' : NodeState} {de : DirEntry} {b : Bool} {blocks : Nat → UInt32} {k : Nat}

theorem writeFirstEntry_size {lba : UInt32} {ioBuf : Bytes}
    (h : writeFirstEntry s lba de ioBuf = .ok (b, s')) :
    s'.inode.iSize = s.inode.iSize + s.part.sb.dirEntrySize := by
  obtain ⟨disk, -, h⟩ := bind_ok.mp h
  cases h
  rfl

theorem syncNewBlock_size {ioBuf : Bytes} (h : syncNewBlock s blocks k de ioBuf = .ok (b, s')) :
    EntrySized s s' := by
  obtain ⟨⟨lba, disk, part⟩, hc, h⟩ := bind_ok.mp h
  have hone := (claimBlock_only hc).sb
  cases lba with
  | none =>
    cases h
    exact .inl rfl
  | some lba =>
    right
    dsimp only at h
    by_cases hlt : k < 12
    · rw [if_pos hlt] at h
      rw [writeFirstEntry_size h]
      exact congrArg _ (congrArg _ hone)
    · rw [if_neg hlt] at h
      by_cases htable : k = 12
      · rw [if_pos htable] at h
        obtain ⟨⟨first, disk', part'⟩, hc', h⟩ := bind_ok.mp h
        have htwo := (claimBlock_only hc').sb
        obtain ⟨first, rfl⟩ := claimBlock_some hc'
        obtain ⟨disk'', -, h⟩ := bind_ok.mp h
        rw [writeFirstEntry_size h]
        exact congrArg _ (congrArg _ (htwo.trans hone))
      · rw [if_neg htable] at h
        obtain ⟨disk', -, h⟩ := bind_ok.mp h
        rw [writeFirstEntry_size h]
        exact congrArg _ (congrArg _ hone)

theorem syncBlocks_size (left : Nat) {perSec : Nat} {ioBuf : Bytes}
    (h : syncBlocks s blocks de perSec left k ioBuf = .ok (b, s')) : EntrySized s s' := by
  induction left generalizing k ioBuf with
  | zero =>
    cases h
    exact .inl rfl
  | succ left ih =>
    unfold syncBlocks at h
    by_cases hz : blocks k = 0
    · rw [if_pos hz] at h
      exact syncNewBlock_size h
    · rw [if_neg hz] at h
      obtain ⟨buf, -, h⟩ := bind_ok.mp h
      cases hfree : scanFree buf perSec 0 with
      | none =>
        simp only [hfree] at h
        exact ih h
      | some j =>
        simp only [hfree] at h
        obtain ⟨disk, -, h⟩ := bind_ok.mp h
        cases h
        exact .inr rfl

theorem syncDirEntry_size {ioBuf : Bytes} (h : syncDirEntry s de ioBuf = .ok (b, s')) :
    EntrySized s s' := by
  obtain ⟨perSec, -, h⟩ := bind_ok.mp h
  obtain ⟨-, -, h⟩ := bind_ok.mp h
  exact syncBlocks_size _ h

end

section
variable {fs fs' : Fs} {spare : Nat → Nat} {dir : Dir} {filename : List UInt8} {flag : UInt8}
  {r : Int} {l : List OpenInode} {path : List UInt8} {flags : UInt8} {fd : Nat}

/-- An entry more does not take the size of the directory past 32 bits. -/
def HasRoom (part : Partition) (l : List OpenInode) (dir : Dir) : Prop :=
  ∀ o ∈ l, o.ref = dir.inode → o.inode.iSize.toNat + part.sb.dirEntrySize.toNat < 2 ^ 32

/-- No size is within an entry of 32 bits, of an inode that is open or of one on the disk. -/
structure SizesFit (fs : Fs) : Prop where
  listed : ∀ o ∈ fs.part.openInodes,
    o.inode.iSize.toNat + fs.part.sb.dirEntrySize.toNat < 2 ^ 32
  stored : ∀ n nd, readInode fs.disk fs.part n = .ok nd →
    nd.iSize.toNat + fs.part.sb.dirEntrySize.toNat < 2 ^ 32

theorem SizesFit.hasRoom (h : SizesFit fs) (hd : Holds fs dir l) : HasRoom fs.part l dir := by
  intro o ho _
  cases hd with
  | root => exact h.listed o ho
  | opened hopen =>
    cases hopen with
    | @hit a ha _ =>
      rcases mem_setInode ho with ⟨hold, -⟩ | ⟨-, -, -, rfl⟩
      · exact h.listed o hold
      · exact h.listed a ha
    | @miss nd _ hread =>
      rcases List.mem_cons.mp ho with rfl | hold
      · exact h.stored _ nd hread
      · exact h.listed o hold

theorem createSync_grows {c : Creating} {synced : Bool} (hl : Live fs.part.openInodes)
    (hroom : HasRoom fs.part fs.part.openInodes dir)
    (h : createSync fs dir filename c = .ok (synced, fs')) : ∃ l nd,
      Grows fs.part.openInodes l ∧ (∀ (fileTable : Nat → File) spare,
        Covered fileTable fs.part.openInodes spare → Covered fileTable l spare) ∧
      l.map (·.ref) = fs.part.openInodes.map (·.ref) ∧ nd.iOpenCnts = 1 ∧
      fs'.part.openInodes = ⟨c.ref, nd⟩ :: l := by
  obtain ⟨de, -, h⟩ := bind_ok.mp h
  obtain ⟨parent, hat, h⟩ := bind_ok.mp h
  obtain ⟨⟨done, s⟩, hs, h⟩ := bind_ok.mp h
  have hk := syncDirEntry_keeps hs
  obtain ⟨o, ho, href, rfl⟩ := inodeAt_mem hat
  have hle : o.inode.iSize.toNat ≤ s.inode.iSize.toNat := by
    have hfits := hroom o ho href
    obtain hsame | hmore := syncDirEntry_size hs
    · rw [hsame]
    · rw [hmore]
      dsimp only
      rw [UInt32.toNat_add, Nat.mod_eq_of_lt hfits]
      exact Nat.le_add_right _ _
  have hlist : (fs.setNode dir.inode s).part.openInodes =
      setInode dir.inode s.inode fs.part.openInodes := by
    change setInode dir.inode s.inode s.part.openInodes = _
    rw [hk.blocks.openInodes]
  cases done with
  | false => cases syncDirEntry_true hs
  | true =>
    obtain ⟨disk, -, h⟩ := bind_ok.mp h
    obtain ⟨disk', -, h⟩ := bind_ok.mp h
    obtain ⟨disk'', -, h⟩ := bind_ok.mp h
    cases h
    refine ⟨_, _, ?_, ?_, setInode_refs .., rfl, congrArg (List.cons _) hlist⟩
    · rw [← href]
      exact .setAt hl ho hle
    · intro fileTable spare hc
      exact hc.refill ho href hk.iOpenCnts

namespace PosInv

theorem fileCreate (h : PosInv fs.fileTable fs.part.openInodes spare)
    (hroom : HasRoom fs.part fs.part.openInodes dir)
    (hc : fileCreate fs dir filename flag = .ok (r, fs')) :
    PosInv fs'.fileTable fs'.part.openInodes spare := by
  obtain ⟨⟨begun, fs₁⟩, hb, hc⟩ := bind_ok.mp hc
  cases createBegin_ok hb with
  | failed heap =>
    cases hc
    exact h
  | @marked n i heap hin hfree hslot =>
    obtain ⟨-, hi, hnone, -⟩ := getFreeSlot_some hslot
    obtain ⟨⟨synced, fs₂⟩, hs, hc⟩ := bind_ok.mp hc
    obtain ⟨hfile, -⟩ := createSync_tables hs
    obtain ⟨l, nd, hg, hcover, hrefs, hone, hlist⟩ := createSync_grows (by exact h.covered.live)
      (by exact hroom) hs
    obtain rfl := createSync_true hs
    obtain ⟨-, heq⟩ := pcbFdInstall_ok (Except.ok.inj hc)
    have hparent : PosInv fs.fileTable l spare := h.grows hg (hcover _ _ h.covered)
    have hfresh : freshRef fs.part.openInodes ∉ l.map (·.ref) := by
      rw [hrefs]
      exact freshRef_unlisted _
    have hmade := (hparent.added hfresh hone).taken
      (f := ⟨0, flag.toUInt32, some (freshRef fs.part.openInodes)⟩) hi hnone rfl rfl
    rw [heq]
    change PosInv fs₂.fileTable fs₂.part.openInodes spare
    rw [hfile, hlist]
    exact hmade

theorem holds (h : PosInv fs.fileTable fs.part.openInodes noSpare)
    (hroom : Room 2 fs.part.openInodes) (hd : Holds fs dir l) :
    ∃ spare, PosInv fs.fileTable l spare ∧ Room 1 l ∧
      ∀ fs₁ fs', PosInv fs₁.fileTable fs₁.part.openInodes spare →
        dirClose fs₁ dir = .ok fs' → PosInv fs'.fileTable fs'.part.openInodes noSpare := by
  cases hd with
  | root =>
    refine ⟨noSpare, h, ?_, ?_⟩
    · intro o ho
      have hlt := hroom o ho
      omega
    · intro fs₁ fs' h₁ hc
      cases hc
      exact h₁
  | @opened n ref l ho =>
    have hone : Room 1 fs.part.openInodes := by
      intro o ho
      have hlt := hroom o ho
      omega
    refine ⟨_, h.opens hone ho, hroom.opens (by decide) ho, ?_⟩
    intro fs₁ fs' h₁ hc
    have hspare : Function.update noSpare ref (noSpare ref + 1) ref ≠ 0 := by
      rw [Function.update_self]
      exact Nat.succ_ne_zero _
    apply (h₁.closes hspare hc).mono
    intro r
    exact Nat.zero_le _

/-- `sys_open`, in a directory that has room where it creates. -/
theorem sysOpen (h : PosInv fs.fileTable fs.part.openInodes noSpare)
    (hroom : Room 2 fs.part.openInodes)
    (hfit : flags &&& O_CREAT ≠ 0 → SizesFit fs)
    (ho : sysOpen fs path flags = .ok (r, fs')) :
    PosInv fs'.fileTable fs'.part.openInodes noSpare := by
  cases sysOpen_cases h.covered.live ho with
  | refuses heap hstop => exact h
  | @leaks no record l heap hs hd hstop =>
    obtain ⟨spare, hl, -, -⟩ := h.holds hroom hd
    exact hl.mono fun _ => Nat.zero_le _
  | @creates record l heap r fs₁ fs' hp hd hcreate hclose =>
    obtain ⟨spare, hl, -, hback⟩ := h.holds hroom hd
    have hsearched : PosInv (fs.relist l heap).fileTable (fs.relist l heap).part.openInodes
        spare := hl
    have hdir : HasRoom fs.part l record.parentDir := (hfit (hp.wanted.mp rfl)).hasRoom hd
    exact hback fs₁ fs' (hsearched.fileCreate hdir hcreate) hclose
  | @opens no record l heap r fs' hp hd hno hopen =>
    obtain ⟨spare, hl, hone, -⟩ := h.holds hroom hd
    have hsearched : PosInv (fs.relist l heap).fileTable (fs.relist l heap).part.openInodes
        spare := hl
    exact (hsearched.fileOpen hone hopen).mono fun _ => Nat.zero_le _

theorem sysClose (h : PosInv fs.fileTable fs.part.openInodes noSpare)
    (hc : sysClose fs fd = .ok (r, fs')) : PosInv fs'.fileTable fs'.part.openInodes noSpare := by
  unfold ZhuOS.sysClose at hc
  by_cases hfd : 2 < fd
  · rw [if_pos hfd] at hc
    obtain ⟨i, hi, hc⟩ := bind_ok.mp hc
    obtain ⟨⟨ret, fs₁⟩, hclose, hc⟩ := bind_ok.mp hc
    cases hc
    obtain ⟨-, -, hlt⟩ := fdLocal2global_ok hi
    have hclosed := h.fileClose hlt hclose
    exact hclosed
  · rw [if_neg hfd] at hc
    cases hc
    exact h

theorem sysLseek (h : PosInv fs.fileTable fs.part.openInodes spare) {at_ : Int} {offset : Int32}
    {whence : UInt8} (hc : sysLseek fs at_ offset whence = .ok (r, fs')) :
    PosInv fs'.fileTable fs'.part.openInodes spare := by
  unfold ZhuOS.sysLseek at hc
  by_cases hneg : at_ < 0
  · rw [if_pos hneg] at hc
    cases hc
    exact h
  · rw [if_neg hneg] at hc
    obtain ⟨-, -, hc⟩ := bind_ok.mp hc
    obtain ⟨i, hi, hc⟩ := bind_ok.mp hc
    dsimp only at hc
    cases hf : (fs.fileTable i).fdInode with
    | none =>
      rw [hf] at hc
      cases hc
    | some ref =>
      rw [hf] at hc
      obtain ⟨nd, hat, hc⟩ := bind_ok.mp hc
      obtain ⟨o, ho, rfl, rfl⟩ := inodeAt_mem hat
      generalize (if whence = SEEK_SET then offset else if whence = SEEK_CUR then
        (fs.fileTable i).fdPos.toInt32 + offset else o.inode.iSize.toInt32 + offset) = newPos at hc
      by_cases hout : newPos < 0 ∨ o.inode.iSize.toInt32 - 1 < newPos
      · rw [if_pos hout] at hc
        cases hc
        exact h
      · rw [if_neg hout] at hc
        cases hc
        apply h.setPos
        intro a ha htaken
        rw [hf] at htaken
        rw [h.covered.live.unique ho ha (Option.some.inj htaken).symm]
        obtain ⟨hlow, hhigh⟩ := not_or.mp hout
        exact seek_le hlow hhigh

end PosInv

end

/-! ## Reading and writing -/

/-- Where the loop of `file_write` ends. -/
theorem writeLoop_end {blocks : Nat → UInt32} {src : Bytes} {count : Nat} (fuel : Nat)
    {l l' : WriteLoop} (hsum : l.bytesWritten + l.sizeLeft = count)
    (h : writeLoop blocks src count fuel l = .ok l') :
    l'.iSize = l.iSize + l.sizeLeft ∧ (0 < l.sizeLeft → l'.iSize ≤ 512 * 140) ∧
      l'.fdPos % 2 ^ 32 = (l.fdPos + l.sizeLeft) % 2 ^ 32 := by
  induction fuel generalizing l with
  | zero => cases h
  | succ fuel ih =>
    rw [writeLoop] at h
    by_cases hmore : l.bytesWritten < count
    · rw [if_pos hmore] at h
      by_cases hfar : 140 ≤ l.iSize / 512
      · rw [if_pos hfar] at h
        cases h
      · rw [if_neg hfar] at h
        obtain ⟨hpos, hle, hfit, -⟩ :=
          chunkSize_spec l.sizeLeft (l.iSize % 512) (by omega) (Nat.mod_lt _ (by decide))
        generalize hchunk : chunkSize l.sizeLeft (l.iSize % 512) = chunk at hpos hle hfit
        have hu : u32 (l.iSize + chunk) = l.iSize + chunk := u32_eq (by omega)
        obtain ⟨disk, ioBuf, h⟩ : ∃ disk ioBuf, writeLoop blocks src count fuel {
            disk, ioBuf
            iSize := l.iSize + chunk
            fdPos := u32 (l.fdPos + chunk)
            bytesWritten := l.bytesWritten + chunk
            sizeLeft := l.sizeLeft - chunk
            firstWriteBlock := false } = .ok l' := by
          simp only [hchunk, hu] at h
          cases hf : l.firstWriteBlock with
          | true =>
            rw [hf, if_pos rfl] at h
            obtain ⟨io, -, h⟩ := bind_ok.mp h
            obtain ⟨disk, -, h⟩ := bind_ok.mp h
            exact ⟨disk, _, h⟩
          | false =>
            rw [hf, if_neg Bool.false_ne_true] at h
            obtain ⟨io, hio, h⟩ := bind_ok.mp h
            cases hio
            obtain ⟨disk, -, h⟩ := bind_ok.mp h
            exact ⟨disk, _, h⟩
        obtain ⟨hsize, hmax, hend⟩ := ih (by dsimp only; omega) h
        dsimp only at hsize hmax hend
        unfold u32 at hend
        refine ⟨by omega, ?_, by omega⟩
        intro _
        by_cases hlast : 0 < l.sizeLeft - chunk
        · exact hmax hlast
        · omega
    · rw [if_neg hmore] at h
      cases h
      exact ⟨by omega, by omega, by omega⟩

theorem readLoop_end {disk : Bytes} {blocks : Nat → UInt32} {size : Nat} (fuel : Nat)
    {l l' : ReadLoop} (hsum : l.bytesRead + l.sizeLeft = size)
    (h : readLoop disk blocks size fuel l = .ok l') :
    l'.fdPos = l.fdPos + l.sizeLeft ∧ (0 < l.sizeLeft → l'.fdPos ≤ 512 * 140) := by
  induction fuel generalizing l with
  | zero => cases h
  | succ fuel ih =>
    rw [readLoop] at h
    by_cases hmore : l.bytesRead < size
    · rw [if_pos hmore] at h
      by_cases hfar : 140 ≤ l.fdPos / 512
      · rw [if_pos hfar] at h
        cases h
      · rw [if_neg hfar] at h
        obtain ⟨hpos, hle, hfit, -⟩ :=
          chunkSize_spec l.sizeLeft (l.fdPos % 512) (by omega) (Nat.mod_lt _ (by decide))
        generalize hchunk : chunkSize l.sizeLeft (l.fdPos % 512) = chunk at hpos hle hfit
        have hu : u32 (l.fdPos + chunk) = l.fdPos + chunk := u32_eq (by omega)
        obtain ⟨io, -, h⟩ := bind_ok.mp h
        simp only [hchunk, hu] at h
        obtain ⟨hend, hmax⟩ := ih (by dsimp only; omega) h
        dsimp only at hend hmax
        refine ⟨by omega, ?_⟩
        intro _
        by_cases hlast : 0 < l.sizeLeft - chunk
        · exact hmax hlast
        · omega
    · rw [if_neg hmore] at h
      cases h
      omega

/-- The blocks of a write change neither the size nor the users. -/
structure SameSize (nd nd' : Inode) : Prop where
  iSize : nd'.iSize = nd.iSize
  iOpenCnts : nd'.iOpenCnts = nd.iOpenCnts

/-- They change the addresses and nothing else. -/
def SectorsOnly (nd nd' : Inode) : Prop := nd' = { nd with iSectors := nd'.iSectors }

theorem SectorsOnly.refl (nd : Inode) : SectorsOnly nd nd := rfl

theorem SectorsOnly.trans {nd nd' nd'' : Inode} (h : SectorsOnly nd nd')
    (h' : SectorsOnly nd' nd'') : SectorsOnly nd nd'' := by
  unfold SectorsOnly at *
  rw [h', h]

theorem SectorsOnly.setSector (nd : Inode) (k : Nat) (lba : UInt32) :
    SectorsOnly nd (nd.setSector k lba) := rfl

theorem SectorsOnly.iNo {nd nd' : Inode} (h : SectorsOnly nd nd') : nd'.iNo = nd.iNo := by
  rw [h]

theorem SectorsOnly.size {nd nd' : Inode} (h : SectorsOnly nd nd') : SameSize nd nd' := by
  rw [h]
  exact ⟨rfl, rfl⟩

theorem firstBlock_sectors {s s' : NodeState} {found : Bool} (h : firstBlock s = .ok (found, s')) :
    found = true ∧ SectorsOnly s.inode s'.inode := by
  unfold firstBlock at h
  by_cases hnew : s.inode.iSectors 0 = 0
  · rw [if_pos hnew] at h
    obtain ⟨⟨r, disk, part⟩, hc, h⟩ := bind_ok.mp h
    obtain ⟨lba, rfl⟩ := claimBlock_some hc
    obtain ⟨-, -, h⟩ := bind_ok.mp h
    cases h
    exact ⟨rfl, .setSector ..⟩
  · rw [if_neg hnew] at h
    cases h
    exact ⟨rfl, .refl _⟩

theorem claimBlocks_sectors (left : Nat) {blockIdx : Nat} {w w' : Writer} {found : Bool}
    (h : claimBlocks left blockIdx w = .ok (found, w')) :
    found = true ∧ SectorsOnly w.inode w'.inode := by
  induction left generalizing blockIdx w with
  | zero =>
    cases h
    exact ⟨rfl, .refl _⟩
  | succ left ih =>
    obtain ⟨⟨r, disk, part⟩, hc, h⟩ := bind_ok.mp h
    obtain ⟨lba, rfl⟩ := claimBlock_some hc
    dsimp only at h
    by_cases hdirect : blockIdx < 12
    · rw [if_pos hdirect] at h
      obtain ⟨-, -, h⟩ := bind_ok.mp h
      obtain ⟨hfound, hsectors⟩ := ih h
      exact ⟨hfound, (SectorsOnly.setSector ..).trans hsectors⟩
    · rw [if_neg hdirect] at h
      obtain ⟨hfound, hsectors⟩ := ih h
      exact ⟨hfound, hsectors⟩

theorem claimBehindTable_sectors {w w' : Writer} {table : UInt32} {has will : Nat} {found : Bool}
    (h : claimBehindTable w table has will = .ok (found, w')) :
    found = true ∧ SectorsOnly w.inode w'.inode := by
  obtain ⟨⟨ok, w₁⟩, hc, h⟩ := bind_ok.mp h
  obtain ⟨rfl, hsectors⟩ := claimBlocks_sectors _ hc
  obtain ⟨disk, -, h⟩ := bind_ok.mp h
  cases h
  exact ⟨rfl, hsectors⟩

theorem writeBlocks_sectors {s : NodeState} {w : Writer} {has will : Nat} {found : Bool}
    (h : writeBlocks s has will = .ok (found, w)) :
    found = true ∧ SectorsOnly s.inode w.inode := by
  unfold writeBlocks at h
  by_cases hsame : will = has
  · rw [if_pos hsame] at h
    by_cases hdirect : will ≤ 12
    · rw [if_pos hdirect] at h
      cases h
      exact ⟨rfl, .refl _⟩
    · rw [if_neg hdirect] at h
      obtain ⟨-, -, h⟩ := bind_ok.mp h
      obtain ⟨blocks, -, h⟩ := bind_ok.mp h
      cases h
      exact ⟨rfl, .refl _⟩
  · rw [if_neg hsame] at h
    by_cases hdirect : will ≤ 12
    · rw [if_pos hdirect] at h
      by_cases hfar : 13 < has
      · rw [if_pos hfar] at h
        cases h
      · rw [if_neg hfar] at h
        obtain ⟨-, -, h⟩ := bind_ok.mp h
        exact claimBlocks_sectors _ h
    · rw [if_neg hdirect] at h
      by_cases hnew : has ≤ 12
      · rw [if_pos hnew] at h
        obtain ⟨⟨r, disk, part⟩, hc, h⟩ := bind_ok.mp h
        obtain ⟨lba, rfl⟩ := claimBlock_some hc
        obtain ⟨-, -, h⟩ := bind_ok.mp h
        obtain ⟨hfound, hsectors⟩ := claimBehindTable_sectors h
        exact ⟨hfound, (SectorsOnly.setSector ..).trans hsectors⟩
      · rw [if_neg hnew] at h
        obtain ⟨-, -, h⟩ := bind_ok.mp h
        obtain ⟨blocks, -, h⟩ := bind_ok.mp h
        exact claimBehindTable_sectors h

/-- A write that returns has made the file longer by `count`, and stands one byte before its
end. -/
theorem writeNode_end {s s' : NodeState} {src : Bytes} {count : UInt32} {r : Option WriteLoop}
    (h : writeNode s src count = .ok (r, s')) : ∃ l, r = some l ∧
      s'.inode.iOpenCnts = s.inode.iOpenCnts ∧
      s'.inode.iSize.toNat = s.inode.iSize.toNat + count.toNat ∧
      (UInt32.ofNat l.fdPos).toNat = ((s.inode.iSize - 1).toNat + count.toNat) % 2 ^ 32 := by
  obtain ⟨⟨first, s₁⟩, hf, h⟩ := bind_ok.mp h
  obtain ⟨rfl, hsectors₁⟩ := firstBlock_sectors hf
  obtain ⟨-, -, h⟩ := bind_ok.mp h
  obtain ⟨⟨found, w⟩, hw, h⟩ := bind_ok.mp h
  obtain ⟨rfl, hsectors₂⟩ := writeBlocks_sectors hw
  have hsame := (hsectors₁.trans hsectors₂).size
  obtain ⟨l, hloop, h⟩ := bind_ok.mp h
  obtain ⟨disk, -, h⟩ := bind_ok.mp h
  cases h
  obtain ⟨hsize, hmax, hpos⟩ := writeLoop_end _ (Nat.zero_add _) hloop
  dsimp only at hsize hmax hpos
  rw [hsame.iSize] at hsize hpos
  have hlt := UInt32.toNat_lt s.inode.iSize
  refine ⟨l, rfl, hsame.iOpenCnts, ?_, ?_⟩
  · change (UInt32.ofNat l.iSize).toNat = _
    rw [UInt32.toNat_ofNat', hsize]
    omega
  · rw [UInt32.toNat_ofNat']
    exact hpos

section
variable {fs fs' : Fs} {spare : Nat → Nat} {r : Int} {fd i : Nat} {buf buf' : Bytes}
  {count : UInt32}

namespace PosInv

/-- `file_write`; something is written, or there was something in the file. -/
theorem fileWrite (h : PosInv fs.fileTable fs.part.openInodes spare)
    (hsome : ∀ ref nd, (fs.fileTable i).fdInode = some ref → fs.inodeAt ref = .ok nd →
      nd.iSize = 0 → count ≠ 0)
    (hw : fileWrite fs i buf count = .ok (r, fs')) :
    PosInv fs'.fileTable fs'.part.openInodes spare := by
  cases hf : (fs.fileTable i).fdInode with
  | none =>
    unfold ZhuOS.fileWrite at hw
    rw [hf] at hw
    cases hw
  | some ref =>
    have hat : ∃ nd, fs.inodeAt ref = .ok nd := by
      unfold ZhuOS.fileWrite at hw
      rw [hf] at hw
      obtain ⟨nd, hat, -⟩ := bind_ok.mp hw
      exact ⟨nd, hat⟩
    obtain ⟨nd, hat⟩ := hat
    have hcount := hsome ref nd hf hat
    rw [fileWrite_eq hf hat] at hw
    by_cases hbig : 512 * 140 < nd.iSize + count
    · rw [if_pos hbig] at hw
      cases hw
      exact h
    rw [if_neg hbig] at hw
    by_cases h0 : fs.heap 0 = false
    · rw [if_pos h0] at hw
      cases hw
      exact h
    rw [if_neg h0] at hw
    by_cases h1 : fs.heap 1 = false
    · rw [if_pos h1] at hw
      cases hw
      exact h
    rw [if_neg h1] at hw
    obtain ⟨⟨done, s⟩, hrun, hw⟩ := bind_ok.mp hw
    obtain ⟨l, rfl, hcnt, hsize, hpos⟩ := writeNode_end hrun
    have hlist := (writeNode_only hrun).openInodes
    cases hw
    obtain ⟨o, ho, rfl, rfl⟩ := inodeAt_mem hat
    have hnode : PosInv ((fs.bufferless 2).setNode o.ref s).fileTable
        ((fs.bufferless 2).setNode o.ref s).part.openInodes spare := by
      change PosInv fs.fileTable (setInode o.ref s.inode s.part.openInodes) spare
      rw [hlist]
      have hle : o.inode.iSize.toNat ≤ s.inode.iSize.toNat := by
        rw [hsize]
        exact Nat.le_add_right _ _
      exact h.grows (.setAt h.covered.live ho hle) (h.covered.refill ho rfl hcnt)
    apply hnode.setPos
    intro a ha htaken
    have hself : a.ref = o.ref := by
      change (fs.fileTable i).fdInode = some a.ref at htaken
      rw [hf] at htaken
      exact (Option.some.inj htaken).symm
    have hnd : a.inode = s.inode := by
      rcases mem_setInode ha with ⟨-, hne⟩ | ⟨a', -, -, rfl⟩
      · exact absurd hself hne
      · rfl
    rw [hnd, hsize, hpos]
    have hlt := UInt32.toNat_lt s.inode.iSize
    by_cases hz : o.inode.iSize = 0
    · have hne : count.toNat ≠ 0 := fun he => hcount hz (UInt32.toNat_inj.mp he)
      have hone : (o.inode.iSize - 1).toNat = 2 ^ 32 - 1 := by rw [hz]; rfl
      have hzero : o.inode.iSize.toNat = 0 := by rw [hz]; rfl
      dsimp only at hsize ⊢
      rw [hone, hzero]
      omega
    · have hne : o.inode.iSize.toNat ≠ 0 := fun he => hz (UInt32.toNat_inj.mp he)
      have hpred : (o.inode.iSize - 1).toNat = o.inode.iSize.toNat - 1 := by
        have hle : (1 : UInt32) ≤ o.inode.iSize :=
          UInt32.le_iff_toNat_le.mpr (Nat.one_le_iff_ne_zero.mpr hne)
        rw [UInt32.toNat_sub_of_le _ _ hle]
        rfl
      dsimp only at hsize ⊢
      rw [hpred]
      omega

/-- `file_read` stops at the end of the file, whatever the count. -/
theorem fileRead (h : PosInv fs.fileTable fs.part.openInodes spare) (hi : i < MAX_FILE_OPEN)
    (hr : fileRead fs i buf count = .ok (r, buf', fs')) :
    PosInv fs'.fileTable fs'.part.openInodes spare := by
  cases hf : (fs.fileTable i).fdInode with
  | none =>
    unfold ZhuOS.fileRead at hr
    simp only [hf] at hr
    cases hr
  | some ref =>
    have hat : ∃ nd, fs.inodeAt ref = .ok nd := by
      unfold ZhuOS.fileRead at hr
      simp only [hf] at hr
      obtain ⟨nd, hat, -⟩ := bind_ok.mp hr
      exact ⟨nd, hat⟩
    obtain ⟨nd, hat⟩ := hat
    rw [fileRead_eq hf hat] at hr
    by_cases hend : nd.iSize < (fs.fileTable i).fdPos + count ∧
        readSize nd (fs.fileTable i).fdPos count = 0
    · rw [if_pos hend] at hr
      cases hr
      exact h
    rw [if_neg hend] at hr
    by_cases h0 : fs.heap 0 = false
    · rw [if_pos h0] at hr
      cases hr
      exact h
    rw [if_neg h0] at hr
    by_cases h1 : fs.heap 1 = false
    · rw [if_pos h1] at hr
      cases hr
      exact h
    rw [if_neg h1] at hr
    obtain ⟨-, -, hr⟩ := bind_ok.mp hr
    obtain ⟨all, -, hr⟩ := bind_ok.mp hr
    obtain ⟨l, hloop, hr⟩ := bind_ok.mp hr
    obtain ⟨hpos, hmax⟩ := readLoop_end _ (Nat.zero_add _) hloop
    cases hr
    have hsame : PosInv (fs.bufferless 2).fileTable (fs.bufferless 2).part.openInodes spare := h
    apply hsame.setPos
    intro a ha htaken
    obtain ⟨o, ho, rfl, rfl⟩ := inodeAt_mem hat
    have hself : a = o := by
      change (fs.fileTable i).fdInode = some a.ref at htaken
      rw [hf] at htaken
      exact h.covered.live.unique ho ha (Option.some.inj htaken).symm
    subst hself
    have hin := h.inFile i hi a ho hf
    change l.fdPos = (fs.fileTable i).fdPos.toNat +
      (readSize a.inode (fs.fileTable i).fdPos count).toNat at hpos
    change 0 < (readSize a.inode (fs.fileTable i).fdPos count).toNat → _ at hmax
    have hlt := UInt32.toNat_lt a.inode.iSize
    rw [UInt32.toNat_ofNat', hpos]
    unfold readSize at hpos hmax ⊢
    by_cases hpast : a.inode.iSize < (fs.fileTable i).fdPos + count
    · rw [if_pos hpast, UInt32.toNat_sub_of_le _ _ (UInt32.le_iff_toNat_le.mpr hin)]
      omega
    · rw [if_neg hpast] at hpos hmax ⊢
      rw [UInt32.lt_iff_toNat_lt, UInt32.toNat_add] at hpast
      omega

/-- `sys_write`; where it writes, something is written, or there was something in the file. -/
theorem sysWrite (h : PosInv fs.fileTable fs.part.openInodes spare)
    (hsome : ∀ j ref nd, fs.fdTable fd = some j → writes (fs.fileTable j).fdFlag →
      (fs.fileTable j).fdInode = some ref → fs.inodeAt ref = .ok nd → nd.iSize = 0 → count ≠ 0)
    (hw : sysWrite fs fd buf count = .ok (r, fs')) :
    PosInv fs'.fileTable fs'.part.openInodes spare := by
  obtain ⟨j, hj, hw⟩ := bind_ok.mp hw
  obtain ⟨-, hentry, -⟩ := fdLocal2global_ok hj
  by_cases hflag : writes (fs.fileTable j).fdFlag
  · rw [if_pos hflag] at hw
    exact h.fileWrite (fun ref nd => hsome j ref nd hentry hflag) hw
  · rw [if_neg hflag] at hw
    cases hw
    exact h

theorem sysRead (h : PosInv fs.fileTable fs.part.openInodes spare)
    (hr : sysRead fs fd buf count = .ok (r, buf', fs')) :
    PosInv fs'.fileTable fs'.part.openInodes spare := by
  obtain ⟨j, hj, hr⟩ := bind_ok.mp hr
  obtain ⟨-, -, hlt⟩ := fdLocal2global_ok hj
  exact h.fileRead hlt hr

end PosInv

end

/-! ## The calls -/

inductive PosCall
  | open (p : Nat) (pathname : List UInt8) (flags : UInt8)
  | close (p fd : Nat)
  | write (p fd : Nat) (buf : Bytes) (count : UInt32)
  | read (p fd : Nat) (buf : Bytes) (count : UInt32)
  | lseek (p : Nat) (fd : Int) (offset : Int32) (whence : UInt8)

namespace PosCall

def exec (w : FdWorld Nat) : PosCall → Except Fault (FdWorld Nat)
  | .open p pathname flags => do
    let (_, fs) ← sysOpen (w.load p) pathname flags
    return w.store p fs
  | .close p fd => do
    let (_, fs) ← sysClose (w.load p) fd
    return w.store p fs
  | .write p fd buf count => do
    let (_, fs) ← sysWrite (w.load p) fd buf count
    return w.store p fs
  | .read p fd buf count => do
    let (_, _, fs) ← sysRead (w.load p) fd buf count
    return w.store p fs
  | .lseek p fd offset whence => do
    let (_, fs) ← sysLseek (w.load p) fd offset whence
    return w.store p fs

def system : Guarded.System (FdWorld Nat) PosCall Fault := ⟨fun _ _ => True, exec⟩

/-- No counter and no size wraps, and no write of nothing finds its file empty. -/
def Fair (w : FdWorld Nat) : PosCall → Prop
  | .open _ _ flags => Room 2 w.fs.part.openInodes ∧ (flags &&& O_CREAT ≠ 0 → SizesFit w.fs)
  | .write p fd _ count => ∀ i ref nd, w.fdTables p fd = some i →
    writes (w.fs.fileTable i).fdFlag → (w.fs.fileTable i).fdInode = some ref →
    w.fs.inodeAt ref = .ok nd → nd.iSize = 0 → count ≠ 0
  | _ => True

end PosCall

theorem positions_preserved : Guarded.Preserves (PosCall.system.only PosCall.Fair)
    fun w => PosInv w.fs.fileTable w.fs.part.openInodes noSpare := by
  rintro w e w' h ⟨-, hfair⟩ he
  have hload : ∀ p, PosInv (w.load p).fileTable (w.load p).part.openInodes noSpare := fun _ => h
  cases e with
  | «open» p pathname flags =>
    obtain ⟨hroom, hfit⟩ := hfair
    obtain ⟨⟨r, fs⟩, ho, he⟩ := bind_ok.mp he
    cases he
    exact (hload p).sysOpen hroom (fun hcreat => ⟨(hfit hcreat).listed, (hfit hcreat).stored⟩) ho
  | close p fd =>
    obtain ⟨⟨r, fs⟩, hc, he⟩ := bind_ok.mp he
    cases he
    exact (hload p).sysClose hc
  | write p fd buf count =>
    obtain ⟨⟨r, fs⟩, hw, he⟩ := bind_ok.mp he
    cases he
    exact (hload p).sysWrite hfair hw
  | read p fd buf count =>
    obtain ⟨⟨r, buf', fs⟩, hr, he⟩ := bind_ok.mp he
    cases he
    exact (hload p).sysRead hr
  | lseek p fd offset whence =>
    obtain ⟨⟨r, fs⟩, hs, he⟩ := bind_ok.mp he
    cases he
    exact (hload p).sysLseek hs

/-- No descriptor is in use, and every user of an inode is counted. -/
structure NoneOpen (w : FdWorld Nat) : Prop where
  counted : ∃ held, Counted w.fs.part.openInodes held
  free : ∀ i, (w.fs.fileTable i).fdInode = none

/-- Every descriptor stands in its file. -/
def FdWorld.InFiles (w : FdWorld Nat) : Prop :=
  ∀ i < MAX_FILE_OPEN, ∀ ref, (w.fs.fileTable i).fdInode = some ref →
    ∃ nd, w.fs.inodeAt ref = .ok nd ∧ (w.fs.fileTable i).fdPos ≤ nd.iSize

theorem NoneOpen.inv {w : FdWorld Nat} (h : NoneOpen w) :
    PosInv w.fs.fileTable w.fs.part.openInodes noSpare := by
  obtain ⟨held, hc⟩ := h.counted
  refine ⟨.closed hc h.free, ?_⟩
  intro i _ o _ htaken
  rw [h.free i] at htaken
  cases htaken

theorem PosInv.inFiles {w : FdWorld Nat}
    (h : PosInv w.fs.fileTable w.fs.part.openInodes noSpare) : w.InFiles := by
  intro i hi ref htaken
  have hlisted : ref ∈ w.fs.part.openInodes.map (·.ref) := by
    by_contra hnot
    exact h.covered.unlisted hnot hi htaken
  obtain ⟨o, ho, rfl⟩ := List.mem_map.mp hlisted
  have hle := h.inFile i hi o ho htaken
  exact ⟨o.inode, inodeAt_eq (find_unique h.covered.live.refs ho), UInt32.le_iff_toNat_le.mpr hle⟩

/-- Every run in which no write of nothing finds its file empty. -/
theorem positions_run {w w' : FdWorld Nat} {calls : List PosCall} (h : NoneOpen w)
    (hrun : Guarded.Run (PosCall.system.only PosCall.Fair) w calls w') : w'.InFiles :=
  (hrun.preserved positions_preserved h.inv).inFiles

/-- The image of `writerStart`, with block 0 in use. -/
def posStart : FdWorld Nat where
  fs := { writerStart.fs with
    part := { writerStart.fs.part with
      blockBitmap := ⟨512, fun i => if i = 0 then 1 else 0⟩ } }
  fdTables := writerStart.fdTables

theorem posStart_none : NoneOpen posStart where
  counted := writerStart_inv.covered.imp fun _ h => h.1
  free _ := rfl

/-- Two bytes are written and read back. -/
theorem positions_run_write : ∃ w, Guarded.Run (PosCall.system.only PosCall.Fair) posStart
    [.open 1 pathF O_RDWR, .write 1 3 (fun _ => 7) 2, .lseek 1 3 0 SEEK_SET,
      .read 1 3 (fun _ => 0) 9] w ∧ w.InFiles := by
  have hcheck : ([PosCall.open 1 pathF O_RDWR, .write 1 3 (fun _ => 7) 2, .lseek 1 3 0 SEEK_SET,
      .read 1 3 (fun _ => 0) 9].foldlM PosCall.exec posStart).toOption.any (fun _ => true) =
        true := by
    decide +kernel
  obtain ⟨w, hw, -⟩ := ok_of_check hcheck
  obtain ⟨w₁, hopen, hw⟩ := bind_ok.mp hw
  obtain ⟨w₂, hwrite, hw⟩ := bind_ok.mp hw
  obtain ⟨w₃, hseek, hw⟩ := bind_ok.mp hw
  obtain ⟨w₄, hread, hw⟩ := bind_ok.mp hw
  cases hw
  have hrun : Guarded.Run (PosCall.system.only PosCall.Fair) posStart
      [.open 1 pathF O_RDWR, .write 1 3 (fun _ => 7) 2, .lseek 1 3 0 SEEK_SET,
        .read 1 3 (fun _ => 0) 9] w := by
    refine .cons ⟨trivial, ?_, ?_⟩ hopen <| .cons ⟨trivial, ?_⟩ hwrite <|
      .cons ⟨trivial, trivial⟩ hseek <| .cons ⟨trivial, trivial⟩ hread <| .nil w
    · intro o ho
      rw [List.mem_singleton.mp ho]
      decide
    · intro hcreat
      exact absurd rfl hcreat
    · intro _ _ _ _ _ _ _ _
      decide
  exact ⟨w, hrun, positions_run posStart_none hrun⟩

/-- Nothing is written to the empty file `f`. -/
theorem positions_run_nothing : NoneOpen posStart ∧ ∃ w, Guarded.Run PosCall.system posStart
    [.open 1 pathF O_RDWR, .write 1 3 (fun _ => 7) 0] w ∧ ¬ w.InFiles := by
  refine ⟨posStart_none, ?_⟩
  have hcheck : ([PosCall.open 1 pathF O_RDWR, .write 1 3 (fun _ => 7) 0].foldlM PosCall.exec
      posStart).toOption.any (fun w => (w.fs.fileTable 3).fdInode.any fun ref =>
        (w.fs.inodeAt ref).toOption.any fun nd =>
          decide (nd.iSize < (w.fs.fileTable 3).fdPos)) = true := by
    decide +kernel
  obtain ⟨w, hrun, hbad⟩ := Guarded.Run.of_check (M := PosCall.system) (fun _ _ => trivial) hcheck
  refine ⟨w, hrun, ?_⟩
  intro hin
  obtain ⟨ref, htaken, hbad⟩ := (Option.any_eq_true ..).mp hbad
  obtain ⟨nd, hat, hle⟩ := hin 3 (by decide) ref htaken
  rw [hat] at hbad
  exact absurd (UInt32.lt_iff_toNat_lt.mp (of_decide_eq_true hbad))
    (Nat.not_lt.mpr (UInt32.le_iff_toNat_le.mp hle))

end ZhuOS
