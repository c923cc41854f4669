import ZhuOS.Writers

/-!
# `sys_open` that returns -1

`file_open` and `file_create` take an entry of the file table before they know whether the
process has a descriptor left, and do not give it back when it has none.
-/

namespace ZhuOS

/-- What a call that fails should leave alone. The disk and the open inodes hold the tree;
how often an inode is open may differ. -/
structure Unchanged (fs fs' : Fs) : Prop where
  disk : fs'.disk = fs.disk
  inodes : ∀ o ∈ fs.part.openInodes, ∃ o' ∈ fs'.part.openInodes, o'.ref = o.ref ∧
    o'.inode = { o.inode with iOpenCnts := o'.inode.iOpenCnts }
  blockBitmap : fs'.part.blockBitmap = fs.part.blockBitmap
  inodeBitmap : fs'.part.inodeBitmap = fs.part.inodeBitmap
  slots : ∀ i, (fs'.fileTable i).fdInode = none ↔ (fs.fileTable i).fdInode = none
  fdTable : fs'.fdTable = fs.fdTable

/-- The call gets as far as an entry of the file table: the path leads to a file to open or to
create, an entry is free, and there is memory for what `file_create` allocates before. -/
inductive TakesEntry (fs : Fs) (path : List UInt8) (flags : UInt8) : Prop
  | opens {no : UInt32} {record : PathSearchRecord} {fs₁ : Fs} {i : Nat}
      (hp : Passes fs path flags no record fs₁) (hno : no ≠ -1)
      (hslot : getFreeSlotInGlobal fs.fileTable = some i)
  | creates {record : PathSearchRecord} {fs₁ : Fs} {i : Nat}
      (hp : Passes fs path flags (-1) record fs₁)
      (hslot : getFreeSlotInGlobal fs.fileTable = some i) (hbuf : fs₁.heap 0 = true)
      (hinode : fs₁.heap 1 = true)

section
variable {fs fs' : Fs} {path : List UInt8} {flags flag : UInt8} {r : Int} {l : List OpenInode}
  {heap : Nat → Bool} {dir : Dir}

/-- What is open stays open while a directory is held. -/
theorem Holds.kept (h : Holds fs dir l) (hl : Live fs.part.openInodes) {o : OpenInode}
    (ho : o ∈ fs.part.openInodes) : ∃ o' ∈ l, o'.ref = o.ref ∧
      o'.inode = { o.inode with iOpenCnts := o'.inode.iOpenCnts } := by
  cases h with
  | root => exact ⟨o, ho, rfl, rfl⟩
  | opened h =>
    cases h with
    | @hit a ha hno =>
      by_cases href : o.ref = a.ref
      · obtain rfl := hl.unique ha ho href
        have hset : (⟨o.ref, { o.inode with iOpenCnts := o.inode.iOpenCnts + 1 }⟩ : OpenInode) ∈
            setInode o.ref { o.inode with iOpenCnts := o.inode.iOpenCnts + 1 }
              fs.part.openInodes :=
          List.mem_map.mpr ⟨o, ho, if_pos rfl⟩
        exact ⟨_, hset, rfl, rfl⟩
      · exact ⟨o, List.mem_map.mpr ⟨o, ho, if_neg href⟩, rfl, rfl⟩
    | miss hmiss hread => exact ⟨o, List.mem_cons_of_mem _ ho, rfl, rfl⟩

theorem Holds.unchanged (h : Holds fs dir l) (hl : Live fs.part.openInodes) :
    Unchanged fs (fs.relist l heap) :=
  ⟨rfl, fun _ ho => h.kept hl ho, rfl, rfl, fun _ => Iff.rfl, rfl⟩

theorem createBegin_takes {begun : Option Creating} (h : createBegin fs flag = .ok (begun, fs')) :
    (∃ c, begun = some c) ↔ fs.heap 0 = true ∧ fs.heap 1 = true ∧
      ∃ i, getFreeSlotInGlobal fs.fileTable = some i := by
  unfold createBegin at h
  have hbuf : (fs.askMalloc 1024).1 = fs.heap 0 := Bool.and_true _
  dsimp only at h
  rw [hbuf] at h
  cases h0 : fs.heap 0 with
  | false =>
    rw [h0, if_pos Bool.false_ne_true] at h
    cases h
    constructor
    · rintro ⟨c, hc⟩
      cases hc
    · rintro ⟨hfalse, -⟩
      cases hfalse
  | true =>
    rw [h0, if_neg (not_not.mpr rfl)] at h
    obtain ⟨⟨inodeNo, part⟩, halloc, h⟩ := bind_ok.mp h
    obtain ⟨scanned, hscan, halloc⟩ := bind_ok.mp halloc
    obtain ⟨n, rfl, -, -⟩ := bitmapScan_one_free hscan
    cases halloc
    have hinode : ∀ part, ({ (fs.askMalloc 1024).2 with part }.askMalloc SIZEOF_INODE).1 =
        fs.heap 1 := fun _ => Bool.and_true _
    simp only [hinode] at h
    cases h1 : fs.heap 1 with
    | false =>
      rw [h1, if_pos Bool.false_ne_true] at h
      cases h
      constructor
      · rintro ⟨c, hc⟩
        cases hc
      · rintro ⟨-, hfalse, -⟩
        cases hfalse
    | true =>
      rw [h1, if_neg (not_not.mpr rfl)] at h
      cases hslot : getFreeSlotInGlobal fs.fileTable with
      | none =>
        simp only [Fs.askMalloc, hslot] at h
        cases h
        constructor
        · rintro ⟨c, hc⟩
          cases hc
        · rintro ⟨-, -, i, hi⟩
          cases hi
      | some i =>
        simp only [Fs.askMalloc, hslot] at h
        cases h
        exact ⟨fun _ => ⟨rfl, rfl, i, rfl⟩, fun _ => ⟨_, rfl⟩⟩

theorem dirClose_tables (h : dirClose fs dir = .ok fs') :
    fs'.fileTable = fs.fileTable ∧ fs'.fdTable = fs.fdTable := by
  unfold dirClose at h
  by_cases hroot : dir.isRoot = true
  · rw [if_pos hroot] at h
    cases h
    exact ⟨rfl, rfl⟩
  · rw [if_neg hroot] at h
    exact inodeClose_tables h

/-- What the path leads to is determined. -/
theorem Passes.unique {no no' : UInt32} {record record' : PathSearchRecord} {fs₁ fs₂ : Fs}
    (h : Passes fs path flags no record fs₁) (h' : Passes fs path flags no' record' fs₂) :
    no = no' ∧ record = record' ∧ fs₁ = fs₂ := by
  have heq := h.search.symm.trans h'.search
  cases heq
  exact ⟨rfl, rfl, rfl⟩

/-- The entry a call has taken stays taken, whatever it returns. -/
theorem TakesEntry.taken (h : TakesEntry fs path flags) (hl : Live fs.part.openInodes)
    (ho : sysOpen fs path flags = .ok (r, fs')) :
    ∃ i, (fs.fileTable i).fdInode = none ∧ (fs'.fileTable i).fdInode ≠ none := by
  cases h with
  | @opens no record fs₁ i hp hno hslot =>
    have hfree := (getFreeSlot_some hslot).2.2.1
    cases sysOpen_cases hl ho with
    | refuses heap hstop => exact absurd hp (hstop no record fs₁)
    | leaks hs hd hstop => exact absurd hp (hstop no record fs₁)
    | creates hp' hd hcreate hclose => exact absurd (hp.unique hp').1 hno
    | @opens no' record' l heap _ _ hp' hd hno' hopen =>
      refine ⟨i, hfree, ?_⟩
      unfold fileOpen at hopen
      have hslot' : getFreeSlotInGlobal (fs.relist l heap).fileTable = some i := hslot
      rw [hslot'] at hopen
      obtain ⟨⟨ref, fs₂⟩, hin, hopen⟩ := bind_ok.mp hopen
      obtain ⟨hfile, -⟩ := openEnd_tables hopen
      rw [hfile, Function.update_self]
      exact Option.some_ne_none ref
  | @creates record fs₁ i hp hslot hbuf hinode =>
    have hfree := (getFreeSlot_some hslot).2.2.1
    cases sysOpen_cases hl ho with
    | refuses heap hstop => exact absurd hp (hstop _ record fs₁)
    | leaks hs hd hstop => exact absurd hp (hstop _ record fs₁)
    | opens hp' hd hno' hopen => exact absurd (hp'.unique hp).1 hno'
    | @creates record' l heap _ fs₂ _ hp' hd hcreate hclose =>
      refine ⟨i, hfree, ?_⟩
      obtain ⟨-, -, rfl⟩ := hp.unique hp'
      obtain ⟨⟨begun, fs₃⟩, hb, hcreate⟩ := bind_ok.mp hcreate
      obtain ⟨c, rfl⟩ := (createBegin_takes hb).mpr ⟨hbuf, hinode, i, hslot⟩
      obtain ⟨⟨synced, fs₄⟩, hsync, hcreate⟩ := bind_ok.mp hcreate
      obtain rfl := createSync_true hsync
      obtain ⟨-, heq⟩ := pcbFdInstall_ok (Except.ok.inj hcreate)
      rw [(dirClose_tables hclose).1, heq]
      change (fs₄.fileTable i).fdInode ≠ none
      rw [(createSync_tables hsync).1]
      cases createBegin_ok hb with
      | @marked n j _ _ _ hslot' =>
        have hij : some i = some j := hslot.symm.trans hslot'
        cases hij
        change (Function.update fs.fileTable i _ i).fdInode ≠ none
        rw [Function.update_self]
        exact Option.some_ne_none _

/-- A call that fails leaves everything as it was exactly if it takes no entry. -/
theorem sysOpen_fails_iff (hl : Live fs.part.openInodes)
    (ho : sysOpen fs path flags = .ok (-1, fs')) :
    Unchanged fs fs' ↔ ¬ TakesEntry fs path flags := by
  constructor
  · intro hu ht
    obtain ⟨i, hfree, htaken⟩ := ht.taken hl ho
    exact htaken ((hu.slots i).mpr hfree)
  · intro hnot
    cases sysOpen_cases hl ho with
    | refuses heap hstop => exact Holds.root.unchanged hl
    | leaks hs hd hstop => exact hd.unchanged hl
    | @creates record l heap _ fs₁ _ hp hd hcreate hclose =>
      obtain ⟨⟨begun, fs₂⟩, hb, hcreate⟩ := bind_ok.mp hcreate
      cases begun with
      | some c =>
        obtain ⟨hbuf, hinode, i, hslot⟩ := (createBegin_takes hb).mp ⟨c, rfl⟩
        exact absurd (.creates hp hslot hbuf hinode) hnot
      | none =>
        cases hcreate
        cases createBegin_ok hb with
        | failed heap' =>
          have hback : dirClose (fs.relist l heap') record.parentDir = .ok fs' := hclose
          rw [hd.close hl] at hback
          cases hback
          exact Holds.root.unchanged hl
    | @opens no record l heap _ _ hp hd hno hopen =>
      unfold fileOpen at hopen
      cases hslot : getFreeSlotInGlobal (fs.relist l heap).fileTable with
      | some i => exact absurd (.opens hp hno hslot) hnot
      | none =>
        rw [hslot] at hopen
        cases hopen
        exact hd.unchanged hl

end

/-- `f` is open as the writer's descriptor 3, and by readers in the entries up to `last`. -/
def writtenFs (last : Nat) (iOpenCnts : UInt32) : Fs :=
  { writerStart.fs with
    part := { writerStart.fs.part with
      openInodes := [⟨2, { inodeInit 1 with iOpenCnts, writeDeny := true }⟩,
        ⟨1, { diskInode treeDisk tablePartition 0 with iOpenCnts := 1 }⟩] }
    fileTable := fun i => if i = 3 then ⟨0, 2, some 2⟩ else if i < last then ⟨0, 0, some 2⟩
      else ⟨0, 0, none⟩
    fdTable := Function.update (fun _ => none) 3 (some 3) }

theorem writtenFs_live (last : Nat) {iOpenCnts : UInt32} (h : iOpenCnts ≠ 0) :
    Live (writtenFs last iOpenCnts).part.openInodes where
  refs := (by decide : [2, 1].Nodup)
  counts o ho := by
    rcases List.mem_cons.mp ho with rfl | ho
    · exact h
    · rw [List.mem_singleton.mp ho]
      decide

/-- The file table is full. -/
theorem sysOpen_fails_full : ∃ fs', sysOpen (writtenFs 32 29) pathF O_RDWR = .ok (-1, fs') ∧
    Unchanged (writtenFs 32 29) fs' := by
  have hcheck : (sysOpen (writtenFs 32 29) pathF O_RDWR).toOption.any
      (fun result => decide (result.1 = -1)) = true := by
    decide +kernel
  obtain ⟨⟨r, fs'⟩, ho, hr⟩ := ok_of_check hcheck
  obtain rfl := of_decide_eq_true hr
  refine ⟨fs', ho, (sysOpen_fails_iff (writtenFs_live 32 (by decide)) ho).mpr ?_⟩
  have hfull : getFreeSlotInGlobal (writtenFs 32 29).fileTable = none := by decide
  intro ht
  cases ht with
  | opens hp hno hslot =>
    rw [hfull] at hslot
    cases hslot
  | creates hp hslot hbuf hinode =>
    rw [hfull] at hslot
    cases hslot

/-- `f` has a writer, and another descriptor is asked for. -/
theorem sysOpen_fails_denied : ∃ fs', sysOpen (writtenFs 4 1) pathF O_RDWR = .ok (-1, fs') ∧
    ¬ Unchanged (writtenFs 4 1) fs' := by
  have hcheck : (sysOpen (writtenFs 4 1) pathF O_RDWR).toOption.any
      (fun result => decide (result.1 = -1) &&
        decide ((result.2.fileTable 4).fdInode ≠ none)) = true := by
    decide +kernel
  obtain ⟨⟨r, fs'⟩, ho, hboth⟩ := ok_of_check hcheck
  obtain ⟨hr, htaken⟩ := Bool.and_eq_true_iff.mp hboth
  obtain rfl := of_decide_eq_true hr
  refine ⟨fs', ho, ?_⟩
  intro hu
  exact of_decide_eq_true htaken ((hu.slots 4).mpr rfl)

end ZhuOS
