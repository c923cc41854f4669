import ZhuOS.SoundFs

/-!
# What lies beside a change

A call changes one directory, and a number comes or goes with it. The other directories and files
are as they were, and what is open is what was open, with the directory refreshed.
-/

namespace ZhuOS

open ByteMem Slots

set_option maxRecDepth 2000

variable {fs fs' : Fs} {dirs files kept : Nat → Prop} {disk disk' : Bytes}
  {part part' : Partition} {nd nd' : Inode} {n m k p : Nat} {a : UInt32}

/-! ## The same blocks on another disk -/

namespace Moved

variable (h : Moved disk nd disk' nd')
include h

theorem ownOf (hin : ∀ a, HasBlock disk nd a → InUse part' a) (hown : OwnBlocks disk part nd) :
    OwnBlocks disk' part' nd' where
  inUse k hk hne := by
    rw [h.blockAt] at hne ⊢
    exact hin _ ⟨hne, .inr ⟨k, hk, rfl⟩⟩
  table hne := by
    rw [h.sectors 12 (by decide)] at hne ⊢
    exact hin _ ⟨hne, .inl rfl⟩
  apart := by
    rw [h.blockAt]
    exact hown.apart
  tableApart := by
    rw [h.blockAt, h.sectors 12 (by decide)]
    exact hown.tableApart

theorem occupied : Slots.occupied dirGrid (ZhuOS.slot disk' nd') =
    Slots.occupied dirGrid (ZhuOS.slot disk nd) :=
  Finset.filter_congr fun q hq => by rw [h.slot hq]

theorem shape (hsize : nd'.iSize = nd.iSize) (hs : DirShape disk nd) : DirShape disk' nd' where
  unnamed := h.entries ▸ hs.unnamed
  once q hq r hr a b ha hb := by
    rw [h.slot hq] at ha
    rw [h.slot hr] at hb
    exact hs.once q hq r hr a b ha hb
  noTable := (h.sectors 12 (by decide)).trans hs.noTable
  named q hq e he := hs.named q hq e ((h.slot hq).symm.trans he)
  dots name hname := by
    obtain ⟨j, hj, e, he, hen⟩ := hs.dots name hname
    exact ⟨j, hj, e, (h.slot (pair_mem_dirGrid (by decide) hj)).trans he, hen⟩
  size := by
    rw [hsize, h.occupied]
    exact hs.size
  held k hk hk0 hne := by
    rw [h.sectors k (by omega)] at hne
    obtain ⟨j, hj, e, he, hproper⟩ := hs.held k hk hk0 hne
    exact ⟨j, hj, e, (h.slot (pair_mem_dirGrid (by omega) hj)).trans he, hproper⟩

/-- A file with blocks of its own, as many as `n`. -/
theorem fileOk (hsize : nd'.iSize = nd.iSize) (hl : DiskLayout part)
    (hin : ∀ a, HasBlock disk nd a → InUse part' a) (hf : FileOk disk part nd n) :
    FileOk disk' part' nd' n where
  inUse k hk := by
    rw [h.blockAt]
    exact hin _ (owns_iff.mp (hf.owns_block hl hk (by have := hf.le; omega)))
  apart := by
    rw [h.blockAt]
    exact hf.apart
  table hne := by
    rw [h.sectors 12 (by decide)] at hne ⊢
    exact hin _ ⟨hne, .inl rfl⟩
  tableApart := by
    rw [h.blockAt, h.sectors 12 (by decide)]
    exact hf.tableApart
  rest := by
    rw [h.blockAt]
    exact hf.rest
  indirect := by
    rw [h.sectors 12 (by decide)]
    exact hf.indirect
  size := hsize ▸ hf.size
  count := hsize ▸ hf.count

/-- The bytes of a file. -/
theorem fileView (hl : DiskLayout part) (hf : FileOk disk part nd n) {i : Nat}
    (hi : i < nd.iSize.toNat) : ZhuOS.fileView disk' nd' i = ZhuOS.fileView disk nd i := by
  have hcovers := hf.covers
  have hk : i / 512 < n := by omega
  have howned := owns_iff.mp (hf.owns_block hl hk (by have := hf.le; omega))
  unfold ZhuOS.fileView
  rw [h.blockAt]
  exact view_congr (by decide) rfl (h.same _ howned)

end Moved

/-- What is stored of an inode has its blocks. -/
theorem moved_stored (disk : Bytes) (h : Inode.SameStored nd' nd) : Moved disk nd disk nd' :=
  ⟨h.iSectors, fun _ _ _ _ _ => rfl⟩

/-! ## The other directories and files -/

/-- The directory `p` has become `nd`. The numbers in `kept` were in use and still are, with the
same records and blocks but for `p`. -/
structure Around (fs fs' : Fs) (p : Nat) (nd : Inode) (kept : Nat → Prop) : Prop where
  sb : fs'.part.sb = fs.part.sb
  layout : DiskLayout fs'.part
  heap : fs'.heap = fun _ => true
  blockMap : BlockMapSynced fs'.disk fs'.part
  inodeMap : InodeMapSynced fs'.disk fs'.part
  rootDir : fs'.rootDir = fs.rootDir
  opened : fs'.part.openInodes = refresh p nd fs.part.openInodes
  handles : ∀ k r, (fs'.fileTable k).fdInode = some r → (fs.fileTable k).fdInode = some r
  parentNo : nd.iNo.toNat = p
  parent : Inode.SameStored (diskInode fs'.disk fs'.part p) nd
  record : ∀ m, kept m → m ≠ p →
    diskInode fs'.disk fs'.part m = diskInode fs.disk fs.part m
  data : ∀ m, kept m → m ≠ p → ∀ a, HasBlock fs.disk (diskInode fs.disk fs.part m) a →
    InUse fs'.part a ∧ Same fs'.disk fs.disk (a.toNat * 512) 512

namespace Around

variable (h : Around fs fs' p nd kept)
include h

theorem moved (hm : kept m) (hne : m ≠ p) : Moved fs.disk (diskInode fs.disk fs.part m) fs'.disk
    (diskInode fs'.disk fs'.part m) := by
  rw [h.record m hm hne]
  exact ⟨fun _ _ => rfl, fun a ha => (h.data m hm hne a ha).2⟩

theorem size (hm : kept m) (hne : m ≠ p) :
    (diskInode fs'.disk fs'.part m).iSize = (diskInode fs.disk fs.part m).iSize := by
  rw [h.record m hm hne]

theorem inUse (hm : kept m) (hne : m ≠ p) :
    ∀ a, HasBlock fs.disk (diskInode fs.disk fs.part m) a → InUse fs'.part a :=
  fun a ha => (h.data m hm hne a ha).1

theorem liesIn (hm : kept m) (hne : m ≠ p) {q : Nat × Nat} {e : DirEntry} :
    LiesIn fs' m q e ↔ LiesIn fs m q e :=
  and_congr_right fun hq => by rw [(h.moved hm hne).slot hq]

/-! ### What is open -/

theorem mem {o : OpenInode} (ho : o ∈ fs'.part.openInodes) : ∃ o' ∈ fs.part.openInodes,
    o.ref = o'.ref ∧ o.inode.iNo = o'.inode.iNo ∧ o.inode.iOpenCnts = o'.inode.iOpenCnts ∧
      (o'.inode.iNo.toNat = p ∧ Inode.SameStored o.inode nd ∨
        o'.inode.iNo.toNat ≠ p ∧ o = o') := by
  rw [h.opened] at ho
  obtain ⟨o', ho', rfl⟩ := List.mem_map.mp ho
  refine ⟨o', ho', ?_⟩
  by_cases hp : o'.inode.iNo.toNat = p
  · rw [if_pos hp]
    have hsame : nd.iNo = o'.inode.iNo := UInt32.toNat_inj.mp (h.parentNo.trans hp.symm)
    exact ⟨rfl, hsame, rfl, .inl ⟨hp, rfl, rfl, fun _ _ => rfl⟩⟩
  · rw [if_neg hp]
    exact ⟨rfl, rfl, rfl, .inr ⟨hp, rfl⟩⟩

theorem rootOpen (hroot : ∃ o ∈ fs.part.openInodes, o.ref = fs.rootDir ∧ o.inode.iNo = 0) :
    ∃ o ∈ fs'.part.openInodes, o.ref = fs'.rootDir ∧ o.inode.iNo = 0 := by
  obtain ⟨o, ho, href, hno⟩ := hroot
  rw [h.opened, h.rootDir]
  refine ⟨_, List.mem_map_of_mem ho, ?_⟩
  by_cases hp : o.inode.iNo.toNat = p
  · rw [if_pos hp]
    exact ⟨href, (UInt32.toNat_inj.mp (h.parentNo.trans hp.symm)).trans hno⟩
  · rw [if_neg hp]
    exact ⟨href, hno⟩

theorem spare (hspare : Room 3 fs.part.openInodes) : Room 3 fs'.part.openInodes := by
  intro o ho
  obtain ⟨o', ho', -, -, hcnt, -⟩ := h.mem ho
  rw [hcnt]
  exact hspare o' ho'

theorem refs : fs'.part.openInodes.map (·.ref) = fs.part.openInodes.map (·.ref) := by
  rw [h.opened, refresh, List.map_map]
  apply List.map_congr_left
  intro o _
  by_cases hp : o.inode.iNo.toNat = p <;> simp [hp]

theorem stored (hopen : ∀ o ∈ fs.part.openInodes, dirs o.inode.iNo.toNat ∧
      Inode.SameStored o.inode (diskInode fs.disk fs.part o.inode.iNo.toNat))
    (hkept : ∀ m, dirs m → kept m) {o : OpenInode} (ho : o ∈ fs'.part.openInodes) :
    dirs o.inode.iNo.toNat ∧
      Inode.SameStored o.inode (diskInode fs'.disk fs'.part o.inode.iNo.toNat) := by
  obtain ⟨o', ho', -, hno, -, hnode⟩ := h.mem ho
  obtain ⟨hdir, hstored⟩ := hopen o' ho'
  rw [hno]
  refine ⟨hdir, ?_⟩
  obtain ⟨hp, hsame⟩ | ⟨hp, rfl⟩ := hnode
  · rw [hp]
    exact hsame.trans h.parent.symm
  · rw [h.record _ (hkept _ hdir) hp]
    exact hstored

end Around

end ZhuOS
