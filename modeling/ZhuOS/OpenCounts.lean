import ZhuOS.DirInsert
import ZhuOS.OpenCalls
import Mathlib.Data.Finset.Card

/-!
# Counting the users of an inode

`i_open_cnts` of an inode on the list is the number of its users, and an inode without
users is not on the list. The users are given as a number for each address.
-/

namespace ZhuOS

/-- The list of open inodes counts the users `held`. -/
structure Counted (l : List OpenInode) (held : Nat → Nat) : Prop where
  refs : (l.map (·.ref)).Nodup
  count : ∀ o ∈ l, o.inode.iOpenCnts.toNat = held o.ref
  used : ∀ o ∈ l, held o.ref ≠ 0
  listed : ∀ ref, held ref ≠ 0 → ref ∈ l.map (·.ref)

/-- What a change of size, blocks or count leaves of an inode. -/
structure SameFlags (nd nd' : Inode) : Prop where
  iNo : nd'.iNo = nd.iNo
  writeDeny : nd'.writeDeny = nd.writeDeny

/-- Every inode of the second list is one of the first. -/
def FromList (l l' : List OpenInode) : Prop :=
  ∀ o' ∈ l', ∃ o ∈ l, o.ref = o'.ref ∧ SameFlags o.inode o'.inode

section
variable {l l' l'' : List OpenInode} {held : Nat → Nat} {ref n : Nat} {nd : Inode} {fs fs' : Fs}

theorem FromList.refl (l : List OpenInode) : FromList l l :=
  fun o ho => ⟨o, ho, rfl, rfl, rfl⟩

theorem FromList.trans (h : FromList l l') (h' : FromList l' l'') : FromList l l'' := by
  intro o'' ho''
  obtain ⟨o', ho', href', heq'⟩ := h' o'' ho''
  obtain ⟨o, ho, href, heq⟩ := h o' ho'
  exact ⟨o, ho, href.trans href', heq'.iNo.trans heq.iNo, heq'.writeDeny.trans heq.writeDeny⟩

theorem mem_setInode {o' : OpenInode} (h : o' ∈ setInode ref nd l) :
    o' ∈ l ∧ o'.ref ≠ ref ∨ ∃ o ∈ l, o.ref = ref ∧ o' = { o with inode := nd } := by
  obtain ⟨o, ho, heq⟩ := List.mem_map.mp h
  by_cases href : o.ref = ref
  · rw [if_pos href] at heq
    exact .inr ⟨o, ho, href, heq.symm⟩
  · rw [if_neg href] at heq
    subst heq
    exact .inl ⟨ho, href⟩

theorem FromList.setInode (h : ∀ o ∈ l, o.ref = ref → SameFlags o.inode nd) :
    FromList l (setInode ref nd l) := by
  intro o' ho'
  rcases mem_setInode ho' with ⟨hold, -⟩ | ⟨o, ho, href, rfl⟩
  · exact ⟨o', hold, rfl, rfl, rfl⟩
  · exact ⟨o, ho, rfl, h o ho href⟩

/-- The inode at an address is the only one there. -/
theorem Live.unique (h : Live l) {o o' : OpenInode} (ho : o ∈ l) (ho' : o' ∈ l)
    (href : o'.ref = o.ref) : o' = o := List.inj_on_of_nodup_map h.refs ho' ho href

namespace Counted

theorem live (h : Counted l held) : Live l where
  refs := h.refs
  counts o ho hz := by
    apply h.used o ho
    rw [← h.count o ho, hz]
    rfl

theorem unlisted (h : Counted l held) (hr : ref ∉ l.map (·.ref)) : held ref = 0 := by
  by_contra hne
  exact hr (h.listed ref hne)

theorem absent (h : Counted l held) (hz : held ref = 0) : ref ∉ l.map (·.ref) := by
  intro hmem
  obtain ⟨o, ho, rfl⟩ := List.mem_map.mp hmem
  exact h.used o ho hz

/-- An inode on the list gets another count. -/
theorem setInode (h : Counted l held) (hr : ref ∈ l.map (·.ref)) {k : Nat}
    (hk : nd.iOpenCnts.toNat = k) (hne : k ≠ 0) :
    Counted (setInode ref nd l) (Function.update held ref k) where
  refs := by
    rw [setInode_refs]
    exact h.refs
  count o' ho' := by
    rcases mem_setInode ho' with ⟨ho, hother⟩ | ⟨o, ho, href, rfl⟩
    · rw [Function.update_of_ne hother]
      exact h.count o' ho
    · change nd.iOpenCnts.toNat = Function.update held ref k o.ref
      rw [href, Function.update_self, hk]
  used o' ho' := by
    by_cases href : o'.ref = ref
    · rw [href, Function.update_self]
      exact hne
    · rw [Function.update_of_ne href]
      rcases mem_setInode ho' with ⟨ho, -⟩ | ⟨o, -, hself, rfl⟩
      · exact h.used o' ho
      · exact absurd hself href
  listed r hne' := by
    rw [setInode_refs]
    by_cases href : r = ref
    · rw [href]
      exact hr
    · rw [Function.update_of_ne href] at hne'
      exact h.listed r hne'

/-- An inode on the list keeps its count. -/
theorem refill (h : Counted l held) {o : OpenInode} (ho : o ∈ l) (href : o.ref = ref)
    (hcnt : nd.iOpenCnts = o.inode.iOpenCnts) : Counted (ZhuOS.setInode ref nd l) held := by
  subst href
  have hk : nd.iOpenCnts.toNat = held o.ref := by
    rw [hcnt]
    exact h.count o ho
  have hset := h.setInode (List.mem_map_of_mem ho) hk (h.used o ho)
  rwa [Function.update_eq_self] at hset

/-- An inode that nobody uses is put on the list. -/
theorem cons (h : Counted l held) (hr : ref ∉ l.map (·.ref)) {k : Nat}
    (hk : nd.iOpenCnts.toNat = k) (hne : k ≠ 0) :
    Counted (⟨ref, nd⟩ :: l) (Function.update held ref k) where
  refs := List.nodup_cons.mpr ⟨hr, h.refs⟩
  count o ho := by
    rcases List.mem_cons.mp ho with rfl | ho
    · exact hk.trans (Function.update_self ref k held).symm
    · have hother : o.ref ≠ ref := fun href => hr (href ▸ List.mem_map_of_mem ho)
      rw [Function.update_of_ne hother]
      exact h.count o ho
  used o ho := by
    rcases List.mem_cons.mp ho with rfl | ho
    · rw [Function.update_self]
      exact hne
    · have hother : o.ref ≠ ref := fun href => hr (href ▸ List.mem_map_of_mem ho)
      rw [Function.update_of_ne hother]
      exact h.used o ho
  listed r hne' := by
    by_cases href : r = ref
    · rw [href]
      exact List.mem_cons_self
    · rw [Function.update_of_ne href] at hne'
      exact List.mem_cons_of_mem _ (h.listed r hne')

/-- An inode is taken off the list. -/
theorem remove (h : Counted l held) (ref : Nat) :
    Counted (l.filter (·.ref ≠ ref)) (Function.update held ref 0) where
  refs := (List.filter_sublist.map _).nodup h.refs
  count o ho := by
    obtain ⟨ho, hother⟩ := List.mem_filter.mp ho
    rw [Function.update_of_ne (of_decide_eq_true hother)]
    exact h.count o ho
  used o ho := by
    obtain ⟨ho, hother⟩ := List.mem_filter.mp ho
    rw [Function.update_of_ne (of_decide_eq_true hother)]
    exact h.used o ho
  listed r hne := by
    have href : r ≠ ref := by
      rintro rfl
      rw [Function.update_self] at hne
      exact hne rfl
    rw [Function.update_of_ne href] at hne
    obtain ⟨o, ho, rfl⟩ := List.mem_map.mp (h.listed r hne)
    exact List.mem_map_of_mem (List.mem_filter.mpr ⟨ho, decide_eq_true href⟩)

/-- One user more. -/
theorem opens (h : Counted fs.part.openInodes held) (ho : Opens fs n ref l)
    (hsmall : held ref + 1 < 2 ^ 32) : Counted l (Function.update held ref (held ref + 1)) := by
  cases ho with
  | @hit o ho hno =>
    apply h.setInode (List.mem_map_of_mem ho)
    · change (o.inode.iOpenCnts + 1).toNat = _
      rw [UInt32.toNat_add, h.count o ho]
      exact Nat.mod_eq_of_lt hsmall
    · exact Nat.succ_ne_zero _
  | miss hmiss hread =>
    apply h.cons (freshRef_unlisted _)
    · rw [h.unlisted (freshRef_unlisted _)]
      rfl
    · exact Nat.succ_ne_zero _

/-- One user less. -/
theorem close (h : Counted fs.part.openInodes held) (hc : inodeClose fs ref = .ok fs') :
    ∃ l, fs' = fs.setOpenInodes l ∧ FromList fs.part.openInodes l ∧ held ref ≠ 0 ∧
      Counted l (Function.update held ref (held ref - 1)) := by
  obtain ⟨nd, hat, hc⟩ := bind_ok.mp hc
  obtain ⟨o, ho, rfl, rfl⟩ := inodeAt_mem hat
  have hcount := h.count o ho
  have hused := h.used o ho
  have hpred : (o.inode.iOpenCnts - 1).toNat = held o.ref - 1 := by
    rw [UInt32.toNat_sub_of_le]
    · rw [hcount]
      rfl
    · rw [UInt32.le_iff_toNat_le, hcount]
      exact Nat.one_le_iff_ne_zero.mpr hused
  by_cases hlast : o.inode.iOpenCnts - 1 = 0
  · simp only [hlast, if_true] at hc
    cases hc
    rw [hlast] at hpred
    refine ⟨_, rfl, ?_, hused, ?_⟩
    · intro o' ho'
      exact ⟨o', (List.mem_filter.mp ho').1, rfl, rfl, rfl⟩
    · rw [← hpred]
      exact h.remove o.ref
  · simp only [hlast, if_false] at hc
    cases hc
    refine ⟨ZhuOS.setInode o.ref _ fs.part.openInodes, rfl, ?_, hused, ?_⟩
    · apply FromList.setInode
      intro a ha href
      rw [h.live.unique ho ha href]
      exact ⟨rfl, rfl⟩
    · apply h.setInode (List.mem_map_of_mem ho) hpred
      intro hz
      rw [hz] at hpred
      exact hlast (UInt32.toNat_inj.mp hpred)

end Counted

/-- An inode of the list was there before, or it has been read. -/
theorem Opens.from (h : Opens fs n ref l) (hl : Live fs.part.openInodes) {o' : OpenInode}
    (ho' : o' ∈ l) : (∃ o ∈ fs.part.openInodes, o.ref = o'.ref ∧ SameFlags o.inode o'.inode) ∨
      (∃ nd, readInode fs.disk fs.part n = .ok nd ∧ o'.ref = ref ∧
        ref ∉ fs.part.openInodes.map (·.ref) ∧ SameFlags nd o'.inode) := by
  cases h with
  | @hit o ho hno =>
    left
    apply FromList.setInode _ o' ho'
    intro a ha href
    rw [hl.unique ho ha href]
    exact ⟨rfl, rfl⟩
  | @miss nd hmiss hread =>
    rcases List.mem_cons.mp ho' with rfl | hold
    · right
      exact ⟨nd, hread, rfl, freshRef_unlisted _, rfl, rfl⟩
    · left
      exact ⟨o', hold, rfl, rfl, rfl⟩

theorem Holds.from {dir : Dir} (h : Holds fs dir l) (hl : Live fs.part.openInodes)
    {o' : OpenInode} (ho' : o' ∈ l) :
    (∃ o ∈ fs.part.openInodes, o.ref = o'.ref ∧ SameFlags o.inode o'.inode) ∨
      ∃ n nd, readInode fs.disk fs.part n = .ok nd ∧ SameFlags nd o'.inode := by
  cases h with
  | root => exact .inl ⟨o', ho', rfl, rfl, rfl⟩
  | @opened n _ _ h =>
    rcases h.from hl ho' with hold | ⟨nd, hread, -, -, hflags⟩
    · exact .inl hold
    · exact .inr ⟨n, nd, hread, hflags⟩

/-- Only an inode that has the number is opened. -/
theorem Opens.no (h : Opens fs n ref l) (hl : Live fs.part.openInodes) {o : OpenInode}
    (ho : o ∈ fs.part.openInodes) (href : o.ref = ref) : o.inode.iNo.toNat = n := by
  cases h with
  | hit ha hno =>
    rw [hl.unique ha ho href]
    exact hno
  | miss hmiss hread =>
    exact absurd (List.mem_map_of_mem ho) (href ▸ freshRef_unlisted _)

/-- Up to `k` users of an inode more can be counted. -/
def Room (k : Nat) (l : List OpenInode) : Prop :=
  ∀ o ∈ l, o.inode.iOpenCnts.toNat + k < 2 ^ 32

theorem Room.fits {k : Nat} (h : Room k l) (hk : k < 2 ^ 32) (hc : Counted l held) (ref : Nat) :
    held ref + k < 2 ^ 32 := by
  by_cases hr : ref ∈ l.map (·.ref)
  · obtain ⟨o, ho, rfl⟩ := List.mem_map.mp hr
    rw [← hc.count o ho]
    exact h o ho
  · rw [hc.unlisted hr]
    omega

theorem Room.opens {k : Nat} (h : Room (k + 1) fs.part.openInodes) (hk : k + 1 < 2 ^ 32)
    (ho : Opens fs n ref l) : Room k l := by
  intro o' ho'
  cases ho with
  | @hit o ho hno =>
    rcases mem_setInode ho' with ⟨hold, -⟩ | ⟨a, -, -, rfl⟩
    · have := h o' hold
      omega
    · have hlt := h o ho
      change (o.inode.iOpenCnts + 1).toNat + k < 2 ^ 32
      rw [UInt32.toNat_add, UInt32.toNat_one, Nat.mod_eq_of_lt (by omega)]
      omega
  | miss hmiss hread =>
    rcases List.mem_cons.mp ho' with rfl | hold
    · change 1 + k < 2 ^ 32
      omega
    · have := h o' hold
      omega

/-! ## The entries of the file table -/

/-- The entries of the file table an inode has. -/
def slotsOf (fileTable : Nat → File) (ref : Nat) : Finset Nat :=
  (Finset.range MAX_FILE_OPEN).filter fun i => (fileTable i).fdInode = some ref

/-- How many these are. -/
def slotCnt (fileTable : Nat → File) (ref : Nat) : Nat := (slotsOf fileTable ref).card

section
variable {fileTable : Nat → File} {i : Nat} {f : File}

theorem mem_slotsOf : i ∈ slotsOf fileTable ref ↔
    i < MAX_FILE_OPEN ∧ (fileTable i).fdInode = some ref := by
  rw [slotsOf, Finset.mem_filter, Finset.mem_range]

/-- A free entry is taken. -/
theorem slotCnt_take (hi : i < MAX_FILE_OPEN) (hfree : (fileTable i).fdInode = none)
    (hf : f.fdInode = some ref) : slotCnt (Function.update fileTable i f) =
      Function.update (slotCnt fileTable) ref (slotCnt fileTable ref + 1) := by
  have hnot : ∀ r, i ∉ slotsOf fileTable r := by
    intro r hmem
    rw [mem_slotsOf, hfree] at hmem
    cases hmem.2
  funext r
  by_cases hr : r = ref
  · subst hr
    rw [Function.update_self, slotCnt, slotCnt, ← Finset.card_insert_of_notMem (hnot r)]
    congr 1
    ext j
    rw [Finset.mem_insert, mem_slotsOf, mem_slotsOf]
    by_cases hj : j = i
    · subst hj
      simp [hi, hf]
    · simp [hj]
  · rw [Function.update_of_ne hr]
    unfold slotCnt
    congr 1
    ext j
    rw [mem_slotsOf, mem_slotsOf]
    by_cases hj : j = i
    · subst hj
      simp [hf, hfree, Ne.symm hr]
    · simp [hj]

/-- An entry is freed. -/
theorem slotCnt_free (hi : i < MAX_FILE_OPEN) (htaken : (fileTable i).fdInode = some ref)
    (hf : f.fdInode = none) : slotCnt (Function.update fileTable i f) =
      Function.update (slotCnt fileTable) ref (slotCnt fileTable ref - 1) := by
  funext r
  by_cases hr : r = ref
  · subst hr
    rw [Function.update_self, slotCnt, slotCnt,
      ← Finset.card_erase_of_mem (mem_slotsOf.mpr ⟨hi, htaken⟩)]
    congr 1
    ext j
    rw [Finset.mem_erase, mem_slotsOf, mem_slotsOf]
    by_cases hj : j = i
    · subst hj
      simp [hf]
    · simp [hj]
  · rw [Function.update_of_ne hr]
    unfold slotCnt
    congr 1
    ext j
    rw [mem_slotsOf, mem_slotsOf]
    by_cases hj : j = i
    · subst hj
      simp [hf, htaken, Ne.symm hr]
    · simp [hj]

end

/-! ## `file_create` -/

/-- What becomes of the directory whose entries change. -/
structure KeepsDir (s s' : NodeState) : Prop extends SameFlags s.inode s'.inode where
  blocks : BlocksOnly s.part s'.part
  iOpenCnts : s'.inode.iOpenCnts = s.inode.iOpenCnts

section
variable {s s' : NodeState} {de : DirEntry} {b : Bool} {blocks : Nat → UInt32} {k : Nat}

theorem writeFirstEntry_keeps {lba : UInt32} {ioBuf : ByteMem.Bytes}
    (h : writeFirstEntry s lba de ioBuf = .ok (b, s')) : KeepsDir s s' := by
  obtain ⟨disk, -, h⟩ := bind_ok.mp h
  cases h
  exact ⟨⟨rfl, rfl⟩, rfl, rfl⟩

theorem syncNewBlock_keeps {ioBuf : ByteMem.Bytes}
    (h : syncNewBlock s blocks k de ioBuf = .ok (b, s')) : KeepsDir s s' := by
  obtain ⟨⟨lba, disk, part⟩, hc, h⟩ := bind_ok.mp h
  have hone := claimBlock_only hc
  cases lba with
  | none =>
    cases h
    exact ⟨⟨rfl, rfl⟩, hone, rfl⟩
  | some lba =>
    dsimp only at h
    by_cases hlt : k < 12
    · rw [if_pos hlt] at h
      have hw := writeFirstEntry_keeps h
      exact ⟨⟨hw.iNo, hw.writeDeny⟩, hone.trans hw.blocks, hw.iOpenCnts⟩
    · rw [if_neg hlt] at h
      by_cases htable : k = 12
      · rw [if_pos htable] at h
        obtain ⟨⟨first, disk', part'⟩, hc', h⟩ := bind_ok.mp h
        have htwo := hone.trans (claimBlock_only hc')
        cases first with
        | none =>
          cases h
          exact ⟨⟨rfl, rfl⟩, htwo.trans rfl, rfl⟩
        | some first =>
          obtain ⟨disk'', -, h⟩ := bind_ok.mp h
          have hw := writeFirstEntry_keeps h
          exact ⟨⟨hw.iNo, hw.writeDeny⟩, htwo.trans hw.blocks, hw.iOpenCnts⟩
      · rw [if_neg htable] at h
        obtain ⟨disk', -, h⟩ := bind_ok.mp h
        have hw := writeFirstEntry_keeps h
        exact ⟨⟨hw.iNo, hw.writeDeny⟩, hone.trans hw.blocks, hw.iOpenCnts⟩

theorem syncBlocks_keeps (left : Nat) {perSec : Nat} {ioBuf : ByteMem.Bytes}
    (h : syncBlocks s blocks de perSec left k ioBuf = .ok (b, s')) : KeepsDir s s' := by
  induction left generalizing k ioBuf with
  | zero =>
    cases h
    exact ⟨⟨rfl, rfl⟩, rfl, rfl⟩
  | succ left ih =>
    unfold syncBlocks at h
    by_cases hz : blocks k = 0
    · rw [if_pos hz] at h
      exact syncNewBlock_keeps h
    · rw [if_neg hz] at h
      obtain ⟨buf, -, h⟩ := bind_ok.mp h
      cases hfree : scanFree buf perSec 0 with
      | none =>
        simp only [hfree] at h
        exact ih h
      | some j =>
        simp only [hfree] at h
        obtain ⟨disk, -, h⟩ := bind_ok.mp h
        cases h
        exact ⟨⟨rfl, rfl⟩, rfl, rfl⟩

theorem syncDirEntry_keeps {ioBuf : ByteMem.Bytes}
    (h : syncDirEntry s de ioBuf = .ok (b, s')) : KeepsDir s s' := by
  obtain ⟨perSec, -, h⟩ := bind_ok.mp h
  obtain ⟨-, -, h⟩ := bind_ok.mp h
  exact syncBlocks_keeps _ h

end

theorem createSync_true {parentDir : Dir} {filename : List UInt8} {c : Creating} {synced : Bool}
    (h : createSync fs parentDir filename c = .ok (synced, fs')) : synced = true := by
  obtain ⟨de, -, h⟩ := bind_ok.mp h
  obtain ⟨parent, -, h⟩ := bind_ok.mp h
  obtain ⟨⟨done, s⟩, hs, h⟩ := bind_ok.mp h
  cases done with
  | false => cases syncDirEntry_true hs
  | true =>
    obtain ⟨disk, -, h⟩ := bind_ok.mp h
    obtain ⟨disk', -, h⟩ := bind_ok.mp h
    obtain ⟨disk'', -, h⟩ := bind_ok.mp h
    cases h
    rfl

/-- The parent stays open as it was, and the new inode is open beside it. -/
theorem createSync_ok {parentDir : Dir} {filename : List UInt8} {c : Creating} {synced : Bool}
    (h : createSync fs parentDir filename c = .ok (synced, fs'))
    (hc : Counted fs.part.openInodes held) : ∃ l,
      FromList fs.part.openInodes l ∧ Counted l held ∧ fs'.part.openInodes =
        ⟨c.ref, { inodeInit (.ofNat c.inodeNo) with iOpenCnts := 1 }⟩ :: l := by
  obtain ⟨de, -, h⟩ := bind_ok.mp h
  obtain ⟨parent, hat, h⟩ := bind_ok.mp h
  obtain ⟨⟨done, s⟩, hs, h⟩ := bind_ok.mp h
  have hk := syncDirEntry_keeps hs
  obtain ⟨o, ho, href, rfl⟩ := inodeAt_mem hat
  have hlist : (fs.setNode parentDir.inode s).part.openInodes =
      setInode parentDir.inode s.inode fs.part.openInodes := by
    change setInode parentDir.inode s.inode s.part.openInodes = _
    rw [hk.blocks.openInodes]
  have hfrom : FromList fs.part.openInodes
      (setInode parentDir.inode s.inode fs.part.openInodes) := by
    apply FromList.setInode
    intro a ha hself
    rw [hc.live.unique ho ha (hself.trans href.symm)]
    exact hk.toSameFlags
  cases done with
  | false => cases syncDirEntry_true hs
  | true =>
    obtain ⟨disk, -, h⟩ := bind_ok.mp h
    obtain ⟨disk', -, h⟩ := bind_ok.mp h
    obtain ⟨disk'', -, h⟩ := bind_ok.mp h
    cases h
    refine ⟨_, hfrom, hc.refill ho href hk.iOpenCnts, ?_⟩
    change _ :: (fs.setNode parentDir.inode s).part.openInodes = _
    rw [hlist]

/-- What `file_create` does to the tables and to the list. -/
inductive Creates (fs : Fs) (flag : UInt8) (held : Nat → Nat) : Int → Fs → Prop
  | failed (heap : Nat → Bool) : Creates fs flag held (-1) { fs with heap }
  | made {fs' : Fs} {i n : Nat} {r : Int} {l : List OpenInode}
      (hslot : getFreeSlotInGlobal fs.fileTable = some i)
      (hfile : fs'.fileTable = Function.update fs.fileTable i
        ⟨0, flag.toUInt32, some (freshRef fs.part.openInodes)⟩)
      (hfd : Installs fs.fdTable i r fs'.fdTable) (hfrom : FromList fs.part.openInodes l)
      (hc : Counted l held) (hlist : fs'.part.openInodes =
        ⟨freshRef fs.part.openInodes, { inodeInit (.ofNat n) with iOpenCnts := 1 }⟩ :: l) :
      Creates fs flag held r fs'

theorem fileCreate_ok {parentDir : Dir} {filename : List UInt8} {flag : UInt8} {r : Int}
    (hc : Counted fs.part.openInodes held)
    (h : fileCreate fs parentDir filename flag = .ok (r, fs')) : Creates fs flag held r fs' := by
  obtain ⟨⟨begun, fs₁⟩, hb, h⟩ := bind_ok.mp h
  have hbegin := createBegin_ok hb
  cases hbegin with
  | failed heap =>
    cases h
    exact .failed heap
  | @marked n i heap hin hfree hslot =>
    obtain ⟨⟨synced, fs₂⟩, hs, h⟩ := bind_ok.mp h
    obtain ⟨hfile, hfd⟩ := createSync_tables hs
    obtain ⟨l, hfrom, hl, hlist⟩ := createSync_ok hs hc
    obtain rfl := createSync_true hs
    obtain ⟨hi, heq⟩ := pcbFdInstall_ok (Except.ok.inj h)
    rw [hfd] at hi
    refine .made hslot ?_ hi hfrom hl (n := n) ?_
    · rw [heq]
      exact hfile
    · rw [heq]
      exact hlist

end

end ZhuOS
