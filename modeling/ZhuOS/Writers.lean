import ZhuOS.OpenCounts
import ZhuOS.Lib.Guarded

/-!
# `write_deny`

`file_open` sets it for a descriptor that writes and refuses a second one. The refused call
leaves its entry of the file table taken, `file_close` clears the flag whoever closes, and
`file_create` never sets it.
-/

namespace ZhuOS

/-- An entry of the file table that writes to the inode. -/
structure WritesTo (fileTable : Nat → File) (i ref : Nat) : Prop where
  hi : i < MAX_FILE_OPEN
  inode : (fileTable i).fdInode = some ref
  flag : writes (fileTable i).fdFlag

/-- At most one entry writes to an inode, and the flag says whether there is one. -/
structure OneWriter (fileTable : Nat → File) (l : List OpenInode) : Prop where
  one : ∀ i j ref, WritesTo fileTable i ref → WritesTo fileTable j ref → i = j
  deny : ∀ o ∈ l, o.inode.writeDeny = true ↔ ∃ i, WritesTo fileTable i o.ref

/-- The inode of every entry is counted, and `spare` users beside the entries. -/
structure WriterInv (fileTable : Nat → File) (l : List OpenInode) (spare : Nat → Nat) :
    Prop extends OneWriter fileTable l where
  covered : ∃ held, Counted l held ∧ ∀ ref, slotCnt fileTable ref + spare ref ≤ held ref

/-- No record on the disk has the flag set, which `inode_sync` never stores. -/
def CleanRecords (fs : Fs) : Prop :=
  ∀ n nd, readInode fs.disk fs.part n = .ok nd → nd.writeDeny = false

section
variable {fileTable : Nat → File} {l l' : List OpenInode} {spare held : Nat → Nat}
  {i j n ref : Nat} {f : File} {fs fs' : Fs} {flag : UInt8} {r : Int}

theorem writesTo_update : WritesTo (Function.update fileTable i f) j ref ↔
    (j = i ∧ i < MAX_FILE_OPEN ∧ f.fdInode = some ref ∧ writes f.fdFlag) ∨
      (j ≠ i ∧ WritesTo fileTable j ref) := by
  by_cases hj : j = i
  · subst hj
    constructor
    · rintro ⟨hi, hinode, hflag⟩
      rw [Function.update_self] at hinode hflag
      exact .inl ⟨rfl, hi, hinode, hflag⟩
    · rintro (⟨-, hi, hinode, hflag⟩ | ⟨hne, -⟩)
      · refine ⟨hi, ?_, ?_⟩
        · rw [Function.update_self]
          exact hinode
        · rw [Function.update_self]
          exact hflag
      · exact absurd rfl hne
  · constructor
    · rintro ⟨hi, hinode, hflag⟩
      rw [Function.update_of_ne hj] at hinode hflag
      exact .inr ⟨hj, hi, hinode, hflag⟩
    · rintro (⟨heq, -⟩ | ⟨-, hi, hinode, hflag⟩)
      · exact absurd heq hj
      · refine ⟨hi, ?_, ?_⟩
        · rw [Function.update_of_ne hj]
          exact hinode
        · rw [Function.update_of_ne hj]
          exact hflag

/-- What becomes of a free entry does not matter unless it writes. -/
theorem writesTo_free (hfree : (fileTable i).fdInode = none)
    (hread : ¬ writes f.fdFlag) (j ref : Nat) :
    WritesTo (Function.update fileTable i f) j ref ↔ WritesTo fileTable j ref := by
  rw [writesTo_update]
  constructor
  · rintro (⟨-, -, -, hw⟩ | ⟨-, hold⟩)
    · exact absurd hw hread
    · exact hold
  · intro hold
    refine .inr ⟨?_, hold⟩
    rintro rfl
    have hinode := hold.inode
    rw [hfree] at hinode
    cases hinode

/-- A bound on a sum that changes at one address. -/
theorem cover_update {a b c : Nat → Nat} (h : ∀ r, a r + b r ≤ c r) (ref : Nat) {x y z : Nat}
    (hle : x + y ≤ z) (r : Nat) :
    Function.update a ref x r + Function.update b ref y r ≤ Function.update c ref z r := by
  by_cases hr : r = ref
  · subst hr
    rw [Function.update_self, Function.update_self, Function.update_self]
    exact hle
  · rw [Function.update_of_ne hr, Function.update_of_ne hr, Function.update_of_ne hr]
    exact h r

/-- The inode of every entry is counted, and `spare` users beside the entries. -/
def Covered (fileTable : Nat → File) (l : List OpenInode) (spare : Nat → Nat) : Prop :=
  ∃ held, Counted l held ∧ ∀ ref, slotCnt fileTable ref + spare ref ≤ held ref

namespace Covered

theorem live (h : Covered fileTable l spare) : Live l := by
  obtain ⟨held, hc, -⟩ := h
  exact hc.live

/-- No entry has an inode that is not on the list. -/
theorem unlisted (h : Covered fileTable l spare) (hr : ref ∉ l.map (·.ref))
    (hi : i < MAX_FILE_OPEN) : (fileTable i).fdInode ≠ some ref := by
  intro htaken
  obtain ⟨held, hc, hle⟩ := h
  have hpos : 0 < slotCnt fileTable ref := Finset.card_pos.mpr ⟨i, mem_slotsOf.mpr ⟨hi, htaken⟩⟩
  have hsum := hle ref
  rw [hc.unlisted hr] at hsum
  omega

theorem closed (hc : Counted l held) (hfree : ∀ i, (fileTable i).fdInode = none) :
    Covered fileTable l fun _ => 0 := by
  refine ⟨held, hc, ?_⟩
  intro ref
  have hempty : slotsOf fileTable ref = ∅ := by
    apply Finset.eq_empty_of_forall_notMem
    intro i hi
    obtain ⟨-, hinode⟩ := mem_slotsOf.mp hi
    rw [hfree] at hinode
    cases hinode
  rw [slotCnt, hempty]
  exact Nat.zero_le _

theorem mono (h : Covered fileTable l spare) {spare' : Nat → Nat}
    (hle : ∀ r, spare' r ≤ spare r) : Covered fileTable l spare' := by
  obtain ⟨held, hc, hcover⟩ := h
  refine ⟨held, hc, ?_⟩
  intro r
  exact (Nat.add_le_add_left (hle r) _).trans (hcover r)

/-- The users of one inode change, and there are enough. -/
theorem change (h : ∀ r, slotCnt fileTable r + spare r ≤ held r) {y z : Nat}
    (hle : slotCnt fileTable ref + y ≤ z) (r : Nat) :
    slotCnt fileTable r + Function.update spare ref y r ≤ Function.update held ref z r := by
  have hsum := cover_update h ref hle r
  rwa [Function.update_eq_self] at hsum

/-- An inode that was not on the list, with one spare user. -/
theorem added (h : Covered fileTable l spare) (hr : ref ∉ l.map (·.ref)) {nd : Inode}
    (hone : nd.iOpenCnts = 1) :
    Covered fileTable (⟨ref, nd⟩ :: l) (Function.update spare ref (spare ref + 1)) := by
  obtain ⟨held, hc, hle⟩ := h
  have hcnt : nd.iOpenCnts.toNat = 1 := by
    rw [hone]
    rfl
  have hnone := hle ref
  rw [hc.unlisted hr] at hnone
  exact ⟨_, hc.cons hr hcnt one_ne_zero, change hle (by omega)⟩

theorem opens (h : Covered fileTable fs.part.openInodes spare) (hroom : Room 1 fs.part.openInodes)
    (ho : Opens fs n ref l) : Covered fileTable l (Function.update spare ref (spare ref + 1)) := by
  obtain ⟨held, hc, hle⟩ := h
  have hone := hle ref
  exact ⟨_, hc.opens ho (hroom.fits (by decide) hc ref), change hle (by omega)⟩

/-- `inode_close` by a spare user. -/
theorem closes (h : Covered fs.fileTable fs.part.openInodes spare) (hs : spare ref ≠ 0)
    (hc : inodeClose fs ref = .ok fs') : Covered fs'.fileTable fs'.part.openInodes
      (Function.update spare ref (spare ref - 1)) := by
  obtain ⟨held, hcount, hle⟩ := h
  obtain ⟨l, rfl, -, -, hl⟩ := hcount.close hc
  have hone := hle ref
  exact ⟨_, hl, change hle (by omega)⟩

/-- An inode keeps its count. -/
theorem refill (h : Covered fileTable l spare) {o : OpenInode} {nd : Inode} (ho : o ∈ l)
    (href : o.ref = ref) (hcnt : nd.iOpenCnts = o.inode.iOpenCnts) :
    Covered fileTable (setInode ref nd l) spare := by
  obtain ⟨held, hc, hle⟩ := h
  exact ⟨held, hc.refill ho href hcnt, hle⟩

/-- A spare user takes an entry. -/
theorem take (h : Covered fileTable l spare) (hs : spare ref ≠ 0) (hi : i < MAX_FILE_OPEN)
    (hfree : (fileTable i).fdInode = none) (hf : f.fdInode = some ref) :
    Covered (Function.update fileTable i f) l (Function.update spare ref (spare ref - 1)) := by
  obtain ⟨held, hc, hle⟩ := h
  refine ⟨held, hc, ?_⟩
  intro r
  have hone := hle ref
  have hsum := cover_update hle ref (x := slotCnt fileTable ref + 1) (y := spare ref - 1)
    (z := held ref) (by omega) r
  rw [slotCnt_take hi hfree hf]
  rwa [Function.update_eq_self] at hsum

/-- The entry of an inode that has been closed is freed. -/
theorem free (h : Covered fs.fileTable fs.part.openInodes spare) (hi : i < MAX_FILE_OPEN)
    (htaken : (fs.fileTable i).fdInode = some ref) (hf : f.fdInode = none)
    (hc : inodeClose fs ref = .ok fs') :
    Covered (Function.update fs.fileTable i f) fs'.part.openInodes spare := by
  obtain ⟨held, hcount, hle⟩ := h
  obtain ⟨l, rfl, -, -, hl⟩ := hcount.close hc
  refine ⟨_, hl, ?_⟩
  intro r
  have hpos := hle ref
  have hslot : 0 < slotCnt fs.fileTable ref :=
    Finset.card_pos.mpr ⟨i, mem_slotsOf.mpr ⟨hi, htaken⟩⟩
  have hsum := cover_update hle ref (x := slotCnt fs.fileTable ref - 1) (y := spare ref)
    (z := held ref - 1) (by omega) r
  rw [slotCnt_free hi htaken hf]
  rwa [Function.update_eq_self] at hsum

end Covered

namespace WriterInv

/-- No file is open. -/
theorem closed (hc : Counted l held) (hfree : ∀ i, (fileTable i).fdInode = none)
    (hdeny : ∀ o ∈ l, o.inode.writeDeny = false) : WriterInv fileTable l fun _ => 0 := by
  have hnobody : ∀ i ref, ¬ WritesTo fileTable i ref := by
    intro i ref hw
    have hinode := hw.inode
    rw [hfree] at hinode
    cases hinode
  refine ⟨⟨?_, ?_⟩, Covered.closed hc hfree⟩
  · intro i j ref hi
    exact absurd hi (hnobody i ref)
  · intro o ho
    rw [hdeny o ho]
    constructor
    · intro hfalse
      cases hfalse
    · rintro ⟨i, hi⟩
      exact absurd hi (hnobody i o.ref)

/-- Nobody writes to what is not on the list. -/
theorem unlisted (h : WriterInv fileTable l spare) (hr : ref ∉ l.map (·.ref)) (i : Nat) :
    ¬ WritesTo fileTable i ref :=
  fun hw => Covered.unlisted h.covered hr hw.hi hw.inode

theorem live (h : WriterInv fileTable l spare) : Live l := Covered.live h.covered

/-- Counts and contents of the inodes change, and who writes to them does not. -/
theorem carry (h : WriterInv fileTable l spare) {fileTable' : Nat → File} {spare' : Nat → Nat}
    (hsame : ∀ i ref, WritesTo fileTable' i ref ↔ WritesTo fileTable i ref)
    (hfrom : FromList l l') (hc : Covered fileTable' l' spare') :
    WriterInv fileTable' l' spare' where
  one i j ref hi hj := h.one i j ref ((hsame i ref).mp hi) ((hsame j ref).mp hj)
  deny o' ho' := by
    obtain ⟨o, ho, href, hflags⟩ := hfrom o' ho'
    rw [hflags.writeDeny, ← href, h.deny o ho]
    exact exists_congr fun i => (hsame i o.ref).symm
  covered := hc

/-- An inode that was not on the list, with one spare user. -/
theorem added (h : WriterInv fileTable l spare) (hr : ref ∉ l.map (·.ref)) {nd : Inode}
    (hone : nd.iOpenCnts = 1) (hdeny : nd.writeDeny = false) :
    WriterInv fileTable (⟨ref, nd⟩ :: l) (Function.update spare ref (spare ref + 1)) where
  one := h.one
  deny o ho := by
    rcases List.mem_cons.mp ho with rfl | ho
    · rw [hdeny]
      constructor
      · intro hfalse
        cases hfalse
      · rintro ⟨i, hi⟩
        exact absurd hi (h.unlisted hr i)
    · exact h.deny o ho
  covered := Covered.added h.covered hr hone

/-- `inode_open`, with the inode as one spare user more. -/
theorem opens (h : WriterInv fileTable fs.part.openInodes spare) (hclean : CleanRecords fs)
    (hroom : Room 1 fs.part.openInodes) (ho : Opens fs n ref l) :
    WriterInv fileTable l (Function.update spare ref (spare ref + 1)) := by
  have hc := Covered.opens h.covered hroom ho
  cases ho with
  | @hit o ho hno =>
    have hfrom : FromList fs.part.openInodes (setInode o.ref { o.inode with
        iOpenCnts := o.inode.iOpenCnts + 1 } fs.part.openInodes) := by
      apply FromList.setInode
      intro a ha href
      rw [h.live.unique ho ha href]
      exact ⟨rfl, rfl⟩
    exact h.carry (fun _ _ => Iff.rfl) hfrom hc
  | @miss nd hmiss hread => exact h.added (freshRef_unlisted _) rfl (hclean n nd hread)

/-- `inode_close` by a spare user. -/
theorem closes (h : WriterInv fs.fileTable fs.part.openInodes spare) (hs : spare ref ≠ 0)
    (hc : inodeClose fs ref = .ok fs') : WriterInv fs'.fileTable fs'.part.openInodes
      (Function.update spare ref (spare ref - 1)) := by
  have hcovered := Covered.closes h.covered hs hc
  obtain ⟨held, hcount, -⟩ := h.covered
  obtain ⟨l, rfl, hfrom, -, -⟩ := hcount.close hc
  exact h.carry (fun _ _ => Iff.rfl) hfrom hcovered

/-- An entry that only reads. -/
theorem take_reader (h : WriterInv fileTable l spare) (hs : spare ref ≠ 0)
    (hi : i < MAX_FILE_OPEN) (hfree : (fileTable i).fdInode = none) (hf : f.fdInode = some ref)
    (hread : ¬ writes f.fdFlag) : WriterInv (Function.update fileTable i f) l
      (Function.update spare ref (spare ref - 1)) := by
  exact h.carry (writesTo_free hfree hread) (.refl l) (Covered.take h.covered hs hi hfree hf)

/-- The first entry that writes, and the flag is set. -/
theorem take_writer (h : WriterInv fileTable l spare) (hs : spare ref ≠ 0)
    (hi : i < MAX_FILE_OPEN) (hfree : (fileTable i).fdInode = none) (hf : f.fdInode = some ref)
    (hwrite : writes f.fdFlag) {o : OpenInode} (ho : o ∈ l) (href : o.ref = ref)
    (hdeny : o.inode.writeDeny = false) : WriterInv (Function.update fileTable i f)
      (setInode ref { o.inode with writeDeny := true } l)
      (Function.update spare ref (spare ref - 1)) := by
  have hnobody : ∀ j, ¬ WritesTo fileTable j ref := by
    intro j hj
    rw [← href] at hj
    have htrue := (h.deny o ho).mpr ⟨j, hj⟩
    rw [hdeny] at htrue
    cases htrue
  have hcovered : Covered fileTable (setInode ref { o.inode with writeDeny := true } l) spare :=
    Covered.refill h.covered ho href rfl
  refine ⟨⟨?_, ?_⟩, hcovered.take hs hi hfree hf⟩
  · intro a b r ha hb
    rcases writesTo_update.mp ha with ⟨rfl, -, hra, -⟩ | ⟨-, hold⟩
    · rcases writesTo_update.mp hb with ⟨rfl, -⟩ | ⟨-, hold⟩
      · rfl
      · rw [hf] at hra
        cases hra
        exact absurd hold (hnobody b)
    · rcases writesTo_update.mp hb with ⟨rfl, -, hrb, -⟩ | ⟨-, hold'⟩
      · rw [hf] at hrb
        cases hrb
        exact absurd hold (hnobody a)
      · exact h.one a b r hold hold'
  · intro o' ho'
    rcases mem_setInode ho' with ⟨hold, hne⟩ | ⟨a, -, haref, rfl⟩
    · rw [h.deny o' hold]
      constructor
      · rintro ⟨j, hj⟩
        refine ⟨j, writesTo_update.mpr (.inr ⟨?_, hj⟩)⟩
        rintro rfl
        have hinode := hj.inode
        rw [hfree] at hinode
        cases hinode
      · rintro ⟨j, hj⟩
        rcases writesTo_update.mp hj with ⟨-, -, hr, -⟩ | ⟨-, hj⟩
        · rw [hf] at hr
          exact absurd (Option.some.inj hr).symm hne
        · exact ⟨j, hj⟩
    · constructor
      · intro _
        refine ⟨i, writesTo_update.mpr (.inl ⟨rfl, hi, ?_, hwrite⟩)⟩
        rw [hf, haref]
      · intro _
        rfl

/-- `file_open`, of an inode that has no writer where the descriptor writes. -/
theorem fileOpen (h : WriterInv fs.fileTable fs.part.openInodes spare) (hclean : CleanRecords fs)
    (hroom : Room 1 fs.part.openInodes) (hfair : writes flag.toUInt32 →
      ∀ o ∈ fs.part.openInodes, o.inode.iNo.toNat = n → o.inode.writeDeny = false)
    (ho : fileOpen fs n flag = .ok (r, fs')) :
    WriterInv fs'.fileTable fs'.part.openInodes spare := by
  unfold ZhuOS.fileOpen at ho
  cases hslot : getFreeSlotInGlobal fs.fileTable with
  | none =>
    rw [hslot] at ho
    cases ho
    exact h
  | some i =>
    obtain ⟨-, hi, hfree, -⟩ := getFreeSlot_some hslot
    rw [hslot] at ho
    obtain ⟨⟨ref, fs₁⟩, hopen, ho⟩ := bind_ok.mp ho
    obtain ⟨l, heap, rfl, hopens⟩ := inodeOpen_opens hopen
    have h₁ := h.opens hclean hroom hopens
    have hspare : Function.update spare ref (spare ref + 1) ref ≠ 0 := by
      rw [Function.update_self]
      exact Nat.succ_ne_zero _
    have hback : Function.update (Function.update spare ref (spare ref + 1)) ref
        (Function.update spare ref (spare ref + 1) ref - 1) = spare := by
      rw [Function.update_idem, Function.update_self, Nat.add_sub_cancel, Function.update_eq_self]
    obtain ⟨nd, hat, ho⟩ := bind_ok.mp ho
    obtain ⟨o, hmem, href, rfl⟩ := inodeAt_mem hat
    by_cases hw : writes flag.toUInt32
    · rw [if_pos hw] at ho
      have hdeny : o.inode.writeDeny = false := by
        rcases hopens.from h.live hmem with ⟨a, ha, haref, hflags⟩ | ⟨nd, hread, -, -, hflags⟩
        · rw [hflags.writeDeny]
          exact hfair hw a ha (hopens.no h.live ha (haref.trans href))
        · rw [hflags.writeDeny]
          exact hclean n nd hread
      rw [hdeny, if_neg Bool.false_ne_true] at ho
      obtain ⟨-, heq⟩ := pcbFdInstall_ok (Except.ok.inj ho)
      have htake := h₁.take_writer hspare hi hfree (f := ⟨0, flag.toUInt32, some ref⟩) rfl hw hmem
        href hdeny
      rw [hback] at htake
      rw [heq]
      exact htake
    · rw [if_neg hw] at ho
      obtain ⟨-, heq⟩ := pcbFdInstall_ok (Except.ok.inj ho)
      have htake := h₁.take_reader hspare hi hfree (f := ⟨0, flag.toUInt32, some ref⟩) rfl hw
      rw [hback] at htake
      rw [heq]
      exact htake

/-- `file_create` of a file its descriptor cannot write to. -/
theorem fileCreate (h : WriterInv fs.fileTable fs.part.openInodes spare) {dir : Dir}
    {name : List UInt8} (hread : ¬ writes flag.toUInt32)
    (hc : fileCreate fs dir name flag = .ok (r, fs')) :
    WriterInv fs'.fileTable fs'.part.openInodes spare := by
  obtain ⟨held, hcount, hle⟩ := h.covered
  cases fileCreate_ok hcount hc with
  | failed heap => exact h
  | @made _ i n _ l hslot hfile hfd hfrom hl hlist =>
    obtain ⟨-, hi, hfree, -⟩ := getFreeSlot_some hslot
    have hz := hcount.unlisted (freshRef_unlisted fs.part.openInodes)
    have h₁ := h.carry (fun _ _ => Iff.rfl) hfrom ⟨held, hl, hle⟩
    have h₂ : WriterInv fs.fileTable (⟨freshRef fs.part.openInodes,
        { inodeInit (.ofNat n) with iOpenCnts := 1 }⟩ :: l) _ := h₁.added (hl.absent hz) rfl rfl
    have hspare : Function.update spare (freshRef fs.part.openInodes)
        (spare (freshRef fs.part.openInodes) + 1) (freshRef fs.part.openInodes) ≠ 0 := by
      rw [Function.update_self]
      exact Nat.succ_ne_zero _
    have htake := h₂.take_reader hspare hi hfree (f := ⟨0, flag.toUInt32, some _⟩) rfl hread
    rw [Function.update_idem, Function.update_self, Nat.add_sub_cancel,
      Function.update_eq_self] at htake
    rw [hfile, hlist]
    exact htake

/-- `file_close`; where it is not the writer's, there must be none. -/
theorem fileClose (h : WriterInv fs.fileTable fs.part.openInodes spare) (hi : i < MAX_FILE_OPEN)
    (hfair : ∀ ref nd, (fs.fileTable i).fdInode = some ref → fs.inodeAt ref = .ok nd →
      writes (fs.fileTable i).fdFlag ∨ nd.writeDeny = false)
    (hc : fileClose fs i = .ok (r, fs')) :
    WriterInv fs'.fileTable fs'.part.openInodes spare := by
  unfold ZhuOS.fileClose at hc
  cases hf : (fs.fileTable i).fdInode with
  | none =>
    simp only [hf] at hc
    cases hc
  | some ref =>
    simp only [hf] at hc
    obtain ⟨nd, hat, hc⟩ := bind_ok.mp hc
    obtain ⟨fs₁, hclose, hc⟩ := bind_ok.mp hc
    cases hc
    have hfree := hfair ref nd hf hat
    obtain ⟨o, ho, rfl, rfl⟩ := inodeAt_mem hat
    have hset : Covered fs.fileTable
        (fs.setInode o.ref { o.inode with writeDeny := false }).part.openInodes spare :=
      Covered.refill h.covered ho rfl rfl
    have hcovered :=
      Covered.free (f := { fs.fileTable i with fdInode := none }) hset hi hf rfl hclose
    obtain ⟨held, hcount, -⟩ := hset
    obtain ⟨l, rfl, hfrom, -, -⟩ := hcount.close hclose
    change WriterInv (Function.update fs.fileTable i { fs.fileTable i with fdInode := none }) l
      spare
    refine ⟨⟨?_, ?_⟩, hcovered⟩
    · intro a b r ha hb
      rcases writesTo_update.mp ha with ⟨-, -, hnone, -⟩ | ⟨-, ha⟩
      · cases hnone
      rcases writesTo_update.mp hb with ⟨-, -, hnone, -⟩ | ⟨-, hb⟩
      · cases hnone
      exact h.one a b r ha hb
    · intro o' ho'
      obtain ⟨a, ha, href, hflags⟩ := hfrom o' ho'
      rw [hflags.writeDeny, ← href]
      rcases mem_setInode ha with ⟨ha, hne⟩ | ⟨a, -, hself, rfl⟩
      · rw [h.deny a ha]
        apply exists_congr
        intro j
        rw [writesTo_update]
        constructor
        · intro hj
          refine .inr ⟨?_, hj⟩
          rintro rfl
          have hinode := hj.inode
          rw [hf] at hinode
          exact hne (Option.some.inj hinode).symm
        · rintro (⟨-, -, hnone, -⟩ | ⟨-, hj⟩)
          · cases hnone
          · exact hj
      · constructor
        · intro hfalse
          cases hfalse
        · rintro ⟨j, hj⟩
          rcases writesTo_update.mp hj with ⟨-, -, hnone, -⟩ | ⟨hji, hj⟩
          · cases hnone
          change WritesTo fs.fileTable j a.ref at hj
          rw [hself] at hj
          rcases hfree with hw | hdeny
          · exact absurd (h.one j i o.ref hj ⟨hi, hf, hw⟩) hji
          · have htrue := (h.deny o ho).mpr ⟨j, hj⟩
            rw [hdeny] at htrue
            cases htrue

theorem mono (h : WriterInv fileTable l spare) {spare' : Nat → Nat}
    (hle : ∀ r, spare' r ≤ spare r) : WriterInv fileTable l spare' :=
  ⟨h.toOneWriter, Covered.mono h.covered hle⟩

end WriterInv

end

/-! ## The calls -/

/-- A call that would write neither creates the file nor finds it with another writer. -/
structure OpenFair (fs : Fs) (pathname : List UInt8) (flags : UInt8) : Prop where
  creates : writes flags.toUInt32 → flags &&& O_CREAT ≠ 0 →
    ∀ record fs', searchFile fs pathname ≠ .ok (-1, record, fs')
  opens : writes flags.toUInt32 → flags &&& O_CREAT = 0 →
    ∀ no record fs', searchFile fs pathname = .ok (no, record, fs') →
      ∀ o ∈ fs.part.openInodes, o.inode.iNo.toNat = no.toNat → o.inode.writeDeny = false

/-- Who closes is the writer, or there is none. -/
def CloseFair (fs : Fs) (fd : Nat) : Prop :=
  ∀ i ref nd, fs.fdTable fd = some i → (fs.fileTable i).fdInode = some ref →
    fs.inodeAt ref = .ok nd → writes (fs.fileTable i).fdFlag ∨ nd.writeDeny = false

section
variable {fs fs' : Fs} {path : List UInt8} {flags : UInt8} {r : Int} {fd : Nat}

/-- No handle is left. -/
def noSpare : Nat → Nat := fun _ => 0

/-- What `search_file` leaves open is one spare user, or the root. -/
theorem WriterInv.holds (h : WriterInv fs.fileTable fs.part.openInodes noSpare)
    (hclean : CleanRecords fs) (hroom : Room 2 fs.part.openInodes) {dir : Dir}
    {l : List OpenInode} (hd : Holds fs dir l) : ∃ spare, WriterInv fs.fileTable l spare ∧
      Room 1 l ∧ ∀ fs₁ fs', WriterInv fs₁.fileTable fs₁.part.openInodes spare →
        dirClose fs₁ dir = .ok fs' → WriterInv fs'.fileTable fs'.part.openInodes noSpare := by
  cases hd with
  | root =>
    refine ⟨noSpare, h, ?_, ?_⟩
    · intro o ho
      have hlt := hroom o ho
      omega
    · intro fs₁ fs' h₁ hc
      cases hc
      exact h₁
  | @opened n ref l ho =>
    have hone : Room 1 fs.part.openInodes := by
      intro o ho
      have hlt := hroom o ho
      omega
    refine ⟨_, h.opens hclean hone ho, hroom.opens (by decide) ho, ?_⟩
    intro fs₁ fs' h₁ hc
    have hspare : Function.update noSpare ref (noSpare ref + 1) ref ≠ 0 := by
      rw [Function.update_self]
      exact Nat.succ_ne_zero _
    apply (h₁.closes hspare hc).mono
    intro r
    exact Nat.zero_le _

theorem WriterInv.sysOpen (h : WriterInv fs.fileTable fs.part.openInodes noSpare)
    (hclean : CleanRecords fs) (hroom : Room 2 fs.part.openInodes)
    (hfair : OpenFair fs path flags) (ho : sysOpen fs path flags = .ok (r, fs')) :
    WriterInv fs'.fileTable fs'.part.openInodes noSpare := by
  cases sysOpen_cases h.live ho with
  | refuses heap hstop => exact h
  | @leaks no record l heap hs hd hstop =>
    obtain ⟨spare, hl, -, -⟩ := h.holds hclean hroom hd
    exact hl.mono fun _ => Nat.zero_le _
  | @creates record l heap r fs₁ fs' hp hd hcreate hclose =>
    obtain ⟨spare, hl, -, hback⟩ := h.holds hclean hroom hd
    have hread : ¬ writes flags.toUInt32 :=
      fun hw => hfair.creates hw (hp.wanted.mp rfl) _ _ hp.search
    have hmade : WriterInv fs₁.fileTable fs₁.part.openInodes spare :=
      WriterInv.fileCreate hl hread hcreate
    exact hback fs₁ fs' hmade hclose
  | @opens no record l heap r fs' hp hd hno hopen =>
    obtain ⟨spare, hl, hone, -⟩ := h.holds hclean hroom hd
    have hflag : flags &&& O_CREAT = 0 := by
      by_contra hflag
      exact hno (hp.wanted.mpr hflag)
    have hdeny : writes flags.toUInt32 → ∀ o ∈ l, o.inode.iNo.toNat = no.toNat →
        o.inode.writeDeny = false := by
      intro hw o ho hon
      have hold := hfair.opens hw hflag no record _ hp.search
      rcases hd.from h.live ho with ⟨a, ha, -, hflags⟩ | ⟨n, nd, hread, hflags⟩
      · rw [hflags.writeDeny]
        rw [hflags.iNo] at hon
        exact hold a ha hon
      · rw [hflags.writeDeny]
        exact hclean n nd hread
    have hsearched : WriterInv (fs.relist l heap).fileTable (fs.relist l heap).part.openInodes
        spare := hl
    exact (hsearched.fileOpen hclean hone hdeny hopen).mono fun _ => Nat.zero_le _

theorem WriterInv.sysClose (h : WriterInv fs.fileTable fs.part.openInodes noSpare)
    (hfair : CloseFair fs fd) (hc : sysClose fs fd = .ok (r, fs')) :
    WriterInv fs'.fileTable fs'.part.openInodes noSpare := by
  unfold ZhuOS.sysClose at hc
  by_cases hfd : 2 < fd
  · rw [if_pos hfd] at hc
    obtain ⟨i, hi, hc⟩ := bind_ok.mp hc
    obtain ⟨⟨ret, fs₁⟩, hclose, hc⟩ := bind_ok.mp hc
    cases hc
    obtain ⟨-, hentry, hlt⟩ := fdLocal2global_ok hi
    have hclosed := h.fileClose hlt (fun ref nd => hfair i ref nd hentry) hclose
    exact hclosed
  · rw [if_neg hfd] at hc
    cases hc
    exact h

end

inductive OpenCall
  | open (p : Nat) (pathname : List UInt8) (flags : UInt8)
  | close (p fd : Nat)

namespace OpenCall

def exec (w : FdWorld Nat) : OpenCall → Except Fault (FdWorld Nat)
  | .open p pathname flags => do
    let (_, fs) ← sysOpen (w.load p) pathname flags
    return w.store p fs
  | .close p fd => do
    let (_, fs) ← sysClose (w.load p) fd
    return w.store p fs

def system : Guarded.System (FdWorld Nat) OpenCall Fault := ⟨fun _ _ => True, exec⟩

/-- The flag keeps its meaning through the call. -/
def Fair (w : FdWorld Nat) : OpenCall → Prop
  | .open p pathname flags => CleanRecords w.fs ∧ Room 2 w.fs.part.openInodes ∧
    OpenFair (w.load p) pathname flags
  | .close p fd => CloseFair (w.load p) fd

end OpenCall

theorem writers_preserved : Guarded.Preserves (OpenCall.system.only OpenCall.Fair)
    fun w => WriterInv w.fs.fileTable w.fs.part.openInodes noSpare := by
  rintro w e w' h ⟨-, hfair⟩ he
  cases e with
  | «open» p pathname flags =>
    obtain ⟨hclean, hroom, hfair⟩ := hfair
    obtain ⟨⟨r, fs⟩, ho, he⟩ := bind_ok.mp he
    cases he
    have hload : WriterInv (w.load p).fileTable (w.load p).part.openInodes noSpare := h
    exact hload.sysOpen hclean hroom hfair ho
  | close p fd =>
    obtain ⟨⟨r, fs⟩, hc, he⟩ := bind_ok.mp he
    cases he
    have hload : WriterInv (w.load p).fileTable (w.load p).part.openInodes noSpare := h
    exact hload.sysClose hfair hc

/-- Every run in which the flag keeps its meaning. -/
theorem writers_run {w w' : FdWorld Nat} {calls : List OpenCall}
    (h : WriterInv w.fs.fileTable w.fs.part.openInodes noSpare)
    (hrun : Guarded.Run (OpenCall.system.only OpenCall.Fair) w calls w') :
    OneWriter w'.fs.fileTable w'.fs.part.openInodes :=
  (hrun.preserved writers_preserved h).toOneWriter

/-- One process writes to inode 0, and another reads it. -/
def sharedStart : FdWorld Nat where
  fs := { closedFs with
    part := { tablePartition with
      openInodes := [⟨1, { inodeInit 0 with iOpenCnts := 2, writeDeny := true }⟩] }
    fileTable := Function.update (Function.update closedFs.fileTable 3 ⟨0, 2, some 1⟩)
      4 ⟨0, 0, some 1⟩ }
  fdTables := Function.update (Function.update (fun _ _ => none) 1
    (Function.update (fun _ => none) 3 (some 3))) 2 (Function.update (fun _ => none) 3 (some 4))

theorem sharedStart_inv :
    WriterInv sharedStart.fs.fileTable sharedStart.fs.part.openInodes noSpare := by
  have hwriter : ∀ i ref, WritesTo sharedStart.fs.fileTable i ref → i = 3 := by
    intro i ref hw
    have hall : ∀ i < MAX_FILE_OPEN, writes (sharedStart.fs.fileTable i).fdFlag → i = 3 := by
      decide
    exact hall i hw.hi hw.flag
  refine ⟨⟨?_, ?_⟩, Function.update (fun _ => 0) 1 2, ⟨?_, ?_, ?_, ?_⟩, ?_⟩
  · intro i j ref hi hj
    rw [hwriter i ref hi, hwriter j ref hj]
  · intro o ho
    rw [List.mem_singleton.mp ho]
    exact ⟨fun _ => ⟨3, by decide, rfl, by decide⟩, fun _ => rfl⟩
  · exact List.nodup_singleton _
  · intro o ho
    rw [List.mem_singleton.mp ho]
    rfl
  · intro o ho
    rw [List.mem_singleton.mp ho]
    decide
  · intro ref hne
    by_cases href : ref = 1
    · rw [href]
      exact List.mem_singleton.mpr rfl
    · rw [Function.update_of_ne href] at hne
      exact absurd rfl hne
  · intro ref
    by_cases href : ref = 1
    · subst href
      decide
    · have hnone : ∀ i < MAX_FILE_OPEN, (sharedStart.fs.fileTable i).fdInode = none ∨
          (sharedStart.fs.fileTable i).fdInode = some 1 := by
        decide
      have hempty : slotsOf sharedStart.fs.fileTable ref = ∅ := by
        apply Finset.eq_empty_of_forall_notMem
        intro i hi
        obtain ⟨hlt, hi⟩ := mem_slotsOf.mp hi
        rcases hnone i hlt with h | h
        · rw [h] at hi
          cases hi
        · rw [h] at hi
          exact href (Option.some.inj hi).symm
      rw [slotCnt, hempty]
      exact Nat.zero_le _

/-- The writer closes first. -/
theorem writers_run_close : ∃ w, Guarded.Run (OpenCall.system.only OpenCall.Fair) sharedStart
    [.close 1 3, .close 2 3] w ∧ OneWriter w.fs.fileTable w.fs.part.openInodes := by
  have hrun : Guarded.Run (OpenCall.system.only OpenCall.Fair) sharedStart
      [.close 1 3, .close 2 3] _ :=
    .cons ⟨trivial, by
      intro i ref nd hi _ _
      cases hi
      exact .inl (by decide)⟩ rfl <|
    .cons ⟨trivial, by
      intro i ref nd hi hinode hat
      cases hi
      cases hinode
      cases hat
      exact .inr rfl⟩ rfl <| .nil _
  exact ⟨_, hrun, writers_run sharedStart_inv hrun⟩

/-- The image of `treeFs` with the number in the record of `f`, and no file open. -/
def writerStart : FdWorld Nat :=
  ⟨{ treeFs with disk := Function.update treeDisk (2048 + 76) 1 }, fun _ _ => none⟩

/-- The entry 3 writes to an inode that is open to writers. -/
def undenied (w : FdWorld Nat) : Bool :=
  decide (writes (w.fs.fileTable 3).fdFlag) && w.fs.part.openInodes.any fun o =>
    decide ((w.fs.fileTable 3).fdInode = some o.ref) && !o.inode.writeDeny

theorem writerStart_inv :
    WriterInv writerStart.fs.fileTable writerStart.fs.part.openInodes noSpare := by
  have hroot : Counted writerStart.fs.part.openInodes (Function.update (fun _ => 0) 1 1) := by
    refine ⟨List.nodup_singleton _, ?_, ?_, ?_⟩
    · intro o ho
      rw [List.mem_singleton.mp ho]
      rfl
    · intro o ho
      rw [List.mem_singleton.mp ho]
      decide
    · intro ref hne
      by_cases href : ref = 1
      · rw [href]
        exact List.mem_singleton.mpr rfl
      · rw [Function.update_of_ne href] at hne
        exact absurd rfl hne
  apply WriterInv.closed hroot
  · intro i
    rfl
  · intro o ho
    rw [List.mem_singleton.mp ho]
    decide +kernel

/-- The reader closes first: the writer goes on writing, and a second one is let in. -/
theorem writers_run_reader :
    WriterInv writerStart.fs.fileTable writerStart.fs.part.openInodes noSpare ∧
    ∃ w, Guarded.Run OpenCall.system writerStart
      [.open 1 pathF O_RDWR, .open 2 pathF O_RDONLY, .close 2 3] w ∧
      ¬ OneWriter w.fs.fileTable w.fs.part.openInodes := by
  refine ⟨writerStart_inv, ?_⟩
  obtain ⟨w, hrun, hbad⟩ := Guarded.Run.of_check (M := OpenCall.system) (p := undenied)
    (fun _ _ => trivial) (s := writerStart)
    (by decide +kernel : ([OpenCall.open 1 pathF O_RDWR, .open 2 pathF O_RDONLY,
      .close 2 3].foldlM OpenCall.exec writerStart).toOption.any undenied = true)
  refine ⟨w, hrun, ?_⟩
  intro h
  obtain ⟨hwrites, hbad⟩ := Bool.and_eq_true_iff.mp hbad
  obtain ⟨o, ho, hbad⟩ := List.any_eq_true.mp hbad
  obtain ⟨hinode, hdeny⟩ := Bool.and_eq_true_iff.mp hbad
  have hwriter : WritesTo w.fs.fileTable 3 o.ref :=
    ⟨by decide, of_decide_eq_true hinode, of_decide_eq_true hwrites⟩
  have htrue := (h.deny o ho).mpr ⟨3, hwriter⟩
  rw [htrue] at hdeny
  cases hdeny

end ZhuOS
