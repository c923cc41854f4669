import ZhuOS.SoundMkdir

/-!
# A file more

A program saves a file when it opens a new one, writes to it and closes it. With room for it the
file comes to hold what was written, and the file system is left sound.
-/

namespace ZhuOS

open ByteMem Slots

set_option maxRecDepth 2000

variable {fs fs' : Fs} {dirs files : Nat → Prop} {nd : Inode} {name content : List UInt8}
  {n p i fd ref : Nat} {de : DirEntry} {s s₀ : NodeState} {path : List UInt8}

/-! ## Writes with room -/

/-- What the calls put into the file. -/
def saved (calls : List (Bytes × UInt32)) : List UInt8 :=
  calls.flatMap fun call => (List.range call.2.toNat).map call.1

theorem saved_cons (call : Bytes × UInt32) (calls : List (Bytes × UInt32)) (i : Nat) :
    saved (call :: calls) = (WriteCall.mk i call.1 call.2).bytes ++ saved calls := rfl

/-- By induction on the calls, as `FileHolds.writes`. -/
theorem FileHolds.saves (calls : List (Bytes × UInt32)) (h : FileHolds fs ref nd n content)
    (henv : WriteEnv fs) (hthrough : WritesThrough fs fd i ref)
    (hmax : (content ++ saved calls).length < 512 * 140)
    (hfree : blockCost ((content ++ saved calls).length / 512 + 1) ≤
      fs.part.blockBitmap.free.card + blockCost n) :
    ∃ fs' nd' n', ZhuOS.sysWrites fs fd calls =
        .ok (calls.map fun call => (call.2.toNat : Int), fs') ∧
      Written fs fs' ref nd n nd' n' ∧ FileHolds fs' ref nd' n' (content ++ saved calls) := by
  induction calls generalizing fs nd n content with
  | nil =>
    have hnil : content ++ saved [] = content := List.append_nil content
    rw [hnil]
    exact ⟨fs, nd, n, rfl, ⟨henv, ⟨content, h⟩, .refl _ ref nd, rfl⟩, h⟩
  | cons call calls ih =>
    have hsplit : content ++ saved (call :: calls) =
        content ++ (WriteCall.mk i call.1 call.2).bytes ++ saved calls := by
      rw [saved_cons call calls i, List.append_assoc]
    rw [hsplit] at hmax hfree ⊢
    have hshort : (content ++ (WriteCall.mk i call.1 call.2).bytes).length ≤
        (content ++ (WriteCall.mk i call.1 call.2).bytes ++ saved calls).length :=
      (List.sublist_append_left _ _).length_le
    have hcost :=
      blockCost_mono (Nat.add_le_add_right (Nat.div_le_div_right (c := 512) hshort) 1)
    obtain ⟨fs₁, nd₁, hrun, henv₁, h₁, hothers, hcard⟩ := h.write henv ⟨i, call.1, call.2⟩
      hthrough.inode (hshort.trans_lt hmax) (hcost.trans hfree)
    have hwrite : ZhuOS.sysWrite fs fd call.1 call.2 = .ok ((call.2.toNat : Int), fs₁) := by
      simp only [ZhuOS.sysWrite, hthrough.slot, ok_bind, if_pos hthrough.flag]
      exact hrun
    obtain ⟨fs', nd', n', hrest, hw, h'⟩ :=
      ih h₁ henv₁ (hthrough.kept hothers) hmax (by omega)
    refine ⟨fs', nd', n', ?_, ⟨hw.env, hw.holds, hothers.trans hw.others, hw.card.trans hcard⟩, h'⟩
    simp only [ZhuOS.sysWrites, hwrite, hrest, ok_bind]
    rfl

/-! ## The calls of a program -/

/-- A program opens a new file, writes and closes it: what `sys_close` returns, and the writes. -/
def save (fs : Fs) (path : List UInt8) (calls : List (Bytes × UInt32)) :
    Except Fault (Int × List Int × Fs) := do
  let (fd, fs) ← sysOpen fs path (O_CREAT ||| O_RDWR)
  if fd = -1 then return (-1, [], fs)
  else
    let (rs, fs) ← sysWrites fs fd.toNat calls
    let (ret, fs) ← sysClose fs fd.toNat
    return (ret, rs, fs)

/-- A file that is listed is not made again, and nothing changes. -/
theorem sysOpen_refuses (ht : TreeOk fs dirs) (hheap : fs.heap = fun _ => true)
    (hpath : PathName path) (hend : path.getLast? ≠ some slash) {front : List (List UInt8)}
    {p : UInt32} {e : DirEntry} (hsplit : components path = front ++ [name])
    (hwalk : walk fs.disk fs.part (0, FT_DIRECTORY) front = some (p, FT_DIRECTORY))
    (hfound : lookup fs.disk (diskInode fs.disk fs.part p.toNat) name = some e) :
    sysOpen fs path (O_CREAT ||| O_RDWR) = .ok (-1, fs) := by
  have hsome : components path ≠ [] := by
    rw [hsplit]
    simp
  have hflags : O_CREAT ||| O_RDWR ≤ 7 := by decide
  have hcreat : ¬ ((O_CREAT ||| O_RDWR) &&& O_CREAT = 0) := by decide
  obtain ⟨searched, wanted, hsearched, hwanted, hdepth⟩ := depths_missing hsplit
    (fun c hc => (hpath.short c hc).le) (fs.junk 0) (fs.junk 0)
  obtain rfl := hdepth.mpr rfl
  by_cases hknown : path = rootPath ∨ path = rootDotPath ∨ path = rootDotDotPath
  · have hroot : dirClose fs fs.root = .ok fs := rfl
    simp only [sysOpen, if_neg hend, ASSERT_true hflags, ok_bind, hwanted, searchFile,
      if_pos hknown, pure_bind, ↓reduceIte, hroot]
    rfl
  · obtain ⟨r, hr, hstop⟩ :=
      searchFile_stop ht hheap hpath.absolute hpath.fits hpath.short hknown
    cases hstop with
    | missing front' rest name' q dir l nd hsplit' hwalk' hat hmiss =>
      have hall := (MissingAt.mk hsplit' hwalk' hmiss).walk_none
      rw [hsplit, walk_snoc hwalk hfound] at hall
      cases hall
    | directory q parent dir l nd hwalk' hsmall hat =>
      simp only [sysOpen, if_neg hend, ASSERT_true hflags, ok_bind, hwanted, hr, ↓reduceIte,
        hat.close_same]
      rfl
    | file front' rest name' q e' dir l nd hsplit' hwalk' hat hfound' htype hsmall =>
      have hnil : rest = [] := by
        cases rest using List.reverseRecOn with
        | nil => rfl
        | append_singleton rest c =>
          have hlong : front = front' ++ name' :: rest := by
            have hsame : front ++ [name] = (front' ++ name' :: rest) ++ [c] := by
              rw [← hsplit, hsplit']
              simp
            exact (List.append_inj' hsame rfl).1
          exact absurd (hlong ▸ hwalk) (FileOn.not_past hwalk' hfound' htype)
      subst hnil
      obtain ⟨rfl, hlast⟩ := List.append_inj' (hsplit.symm.trans hsplit') rfl
      obtain rfl := (List.cons.inj hlast).1
      have hnot : ¬ FT_REGULAR = FT_DIRECTORY := by decide
      have hjunk : (fs.setOpenInodes l).junk = fs.junk := rfl
      have hpre : [] ++ joinPath (front ++ [name]) = joinPath (front ++ [name]) := rfl
      simp only [sysOpen, if_neg hend, ASSERT_true hflags, ok_bind, hwanted, hr, if_neg hnot,
        hjunk, hpre, hsearched, ne_eq, not_true, ↓reduceIte, ne_minusOne hsmall, hcreat,
        not_false_eq_true, and_self, and_false, hat.close_same]
      rfl

/-! ## The closed file -/

/-- The bytes of the file `n`. -/
def contentOf (fs : Fs) (n : Nat) : List UInt8 :=
  (List.range (diskInode fs.disk fs.part n).iSize.toNat).map
    (fileView fs.disk (diskInode fs.disk fs.part n))

namespace FileClosed

variable (h : FileClosed fs fs' dirs p n s₀ de s nd)
include h

theorem gains {n' : Nat} (hs : SoundFs fs dirs files) (hok : FileOk fs'.disk fs'.part nd n')
    (hde : createDirEntry name (.ofNat n) FT_REGULAR = .ok de) (hnew : NewName fs p name) :
    ∃ q, Gains fs fs' dirs p n q s₀ de s nd := by
  obtain ⟨q, hf⟩ := h.filled hde hnew
  obtain ⟨hname, hno, htype⟩ := createDirEntry_ok hnew.isName hde
  have hnone : s₀.inode.iSectors 12 = 0 :=
    (h.entered.stored.iSectors 12 (by decide)).trans (hs.shape p h.entered.isDir).noTable
  refine ⟨q, h.entered, h.settled, hf, hno, .inl htype, ?_, ?_, h.entering.free,
    h.entering.inMap, h.entering.low, h.inodeBitmap, h.heap, h.blockMap, h.inodeMap, h.slots,
    h.number, h.record, hok.toHasBlocks.own, fun a ha => (h.kept a ha).1, ?_, h.size, ?_⟩
  · rw [hname]
    exact ⟨hnew.isName.ne, hnew.isName.short⟩
  · rw [hname]
    exact hnew.unlisted
  · intro a ha
    have hown := owns_iff.mpr ha
    constructor
    · intro hused
      have hclear := h.not_marked hown
      rw [hused.marked] at hclear
      cases hclear
    · intro hparent
      exact (h.kept a (h.entered.parentOwn.holds hparent)).2 hown
  · intro j hj hset
    obtain hnode | ⟨a, ha, hidx⟩ := (h.marks j hj).mp hset
    · obtain hold | ⟨a, ha, hidx⟩ := hf.marks hnone h.entered.startLayout hnode
      · rw [h.startBlocks] at hold
        exact .inl hold
      · exact .inr (.inl ⟨a, ha, (blockIdx_sb h.entered.startSb a).symm.trans hidx⟩)
    · exact .inr (.inr ⟨a, owns_iff.mp ha, hidx⟩)

theorem newNode {n' : Nat} (hok : FileOk fs'.disk fs'.part nd n') :
    NewNode fs' p n FT_REGULAR where
  file _ := by
    have hmoved : Moved fs'.disk nd fs'.disk (diskInode fs'.disk fs'.part n) :=
      moved_stored fs'.disk h.record
    exact ⟨n', hmoved.fileOk h.record.iSize h.settled.layout
      (fun a ha => hok.toHasBlocks.own.holds ha) hok⟩
  shape htype := absurd htype (by decide)
  dots htype := absurd htype (by decide)

theorem holds {n' : Nat} (hok : FileOk fs'.disk fs'.part nd n')
    (hsize : nd.iSize.toNat = content.length)
    (hbytes : ∀ i (hi : i < content.length), fileView fs'.disk nd i = content[i]) :
    contentOf fs' n = content := by
  have hmoved : Moved fs'.disk nd fs'.disk (diskInode fs'.disk fs'.part n) :=
    moved_stored fs'.disk h.record
  have hlen : (diskInode fs'.disk fs'.part n).iSize.toNat = content.length := by
    rw [h.record.iSize]
    exact hsize
  apply List.ext_getElem
  · rw [contentOf, List.length_map, List.length_range, hlen]
  · intro i hi hi'
    simp only [contentOf, List.getElem_map, List.getElem_range]
    rw [hmoved.fileView h.settled.layout hok (hsize ▸ hi')]
    exact hbytes i hi'

end FileClosed

/-- An entry of the file table and a descriptor are free. -/
structure OpenRoom (fs : Fs) : Prop where
  slot : ∃ i, 3 ≤ i ∧ i < MAX_FILE_OPEN ∧ (fs.fileTable i).fdInode = none
  descriptor : ∃ fd, 3 ≤ fd ∧ fd < MAX_FILES_OPEN_PER_PROC ∧ fs.fdTable fd = none

/-- What was free in the tables of the files is free. -/
structure TablesFree (fs fs' : Fs) : Prop where
  slots : ∀ i, (fs.fileTable i).fdInode = none → (fs'.fileTable i).fdInode = none
  fdTable : fs'.fdTable = fs.fdTable

theorem Quiet.tables {k : Nat} (h : Quiet k fs fs') : TablesFree fs fs' := by
  refine ⟨fun i hfree => ?_, h.fdTable⟩
  rw [h.fileTable]
  exact hfree

theorem OpenRoom.kept (h : OpenRoom fs) (hk : TablesFree fs fs') : OpenRoom fs' where
  slot := by
    obtain ⟨i, hlo, hhi, hfree⟩ := h.slot
    exact ⟨i, hlo, hhi, hk.slots i hfree⟩
  descriptor := by
    rw [hk.fdTable]
    exact h.descriptor

/-- What saving a file in the directory `p` takes: a number, a slot in a direct block of the
directory, and blocks for the content and the entry. -/
structure SaveRoom (fs : Fs) (p : Nat) (content : List UInt8) : Prop where
  number : ∃ i < 256, i < fs.part.inodeBitmap.size ∧ fs.part.inodeBitmap.bit i = false
  direct : ¬ DirectFull fs.disk (diskInode fs.disk fs.part p) 12
  short : content.length < 512 * 140
  blocks : blockCost (content.length / 512 + 1) < fs.part.blockBitmap.free.card

theorem SaveRoom.create (h : SaveRoom fs p content) (hopen : OpenRoom fs) : CreateRoom fs :=
  ⟨h.number, hopen.slot, hopen.descriptor, Nat.zero_lt_of_lt h.blocks⟩

/-- The entry takes one block at most. -/
theorem SlotFilled.free_card {q : Nat × Nat} (h : SlotFilled s₀ s q de) :
    s₀.part.blockBitmap.free.card ≤ s.part.blockBitmap.free.card + 1 := by
  obtain ⟨-, hpart⟩ | ⟨lba, disk, -, hclaim, -⟩ := h.blocks
  · rw [hpart]
    omega
  · have := hclaim.free_card
    omega

theorem SoundFs.save_makes (h : SoundFs fs dirs files) (hpath : PathName path)
    (hend : path.getLast? ≠ some slash) {front : List (List UInt8)} {p : UInt32}
    (hmiss : MissingAt fs (components path) front name [] p) {calls : List (Bytes × UInt32)}
    (hroom : SaveRoom fs p.toNat (saved calls)) (hfiles : OpenRoom fs) :
    ∃ fs' n q s₀ de s nd,
      save fs path calls = .ok (0, calls.map fun call => (call.2.toNat : Int), fs') ∧
        Gains fs fs' dirs p.toNat n q s₀ de s nd ∧ NewNode fs' p.toNat n FT_REGULAR ∧
          de.stored.name = name ∧ de.stored.fType = FT_REGULAR ∧ contentOf fs' n = saved calls ∧
            TablesFree fs fs' := by
  have hc := h.consistent
  have hcreate := hroom.create hfiles
  obtain ⟨l, parent, n, i, fd, de, s, hp, hstored, hmade, href, hopen⟩ :=
    sysOpen_creates hc.toFileTree h.heap hcreate hpath hend hmiss hroom.direct
  have he := hmade.entering hc.toDiskTree hp hstored
  have hname : FileName name := hpath.names name (by rw [hmiss.split]; simp)
  have hnew : NewName fs p.toNat name := ⟨hname, hmiss.unlisted, hroom.direct⟩
  obtain ⟨hsame, -, htype⟩ := createDirEntry_ok hname hmade.entry
  generalize hcreated : createdFs fs (O_CREAT ||| O_RDWR)
    (refresh p.toNat s.inode fs.part.openInodes) s n i fd (freshRef l) = fs₁ at hopen
  have henv : WriteEnv fs₁ := hcreated ▸ he.writeEnv hc.toFileTree h.heap i fd (freshRef l)
  have hfile : NewFile fs₁ (freshRef l) { inodeInit (.ofNat n) with iOpenCnts := 1 } :=
    hcreated ▸ he.newFile i fd (freshRef l)
  have hthrough : WritesThrough fs₁ fd i (freshRef l) := hcreated ▸ hmade.writesThrough _ _ _
  have hfree : blockCost ((saved calls).length / 512 + 1) ≤ fs₁.part.blockBitmap.free.card := by
    obtain ⟨q, hf⟩ := he.inserted.filled he.startLayout he.startOwn
      (fun hfull => hroom.direct ((he.entered.parentMoved.directFull (Nat.le_refl 12)).mp hfull))
      (by rw [htype]; decide)
    have hcard : fs.part.blockBitmap.free.card ≤ s.part.blockBitmap.free.card + 1 := hf.free_card
    have hblocks := hroom.blocks
    have hmap : fs₁.part.blockBitmap = s.part.blockBitmap := hcreated ▸ rfl
    rw [hmap]
    omega
  obtain ⟨fs₂, nd, n', hwrites, hw, hholds⟩ := hfile.holds.saves calls henv hthrough hroom.short
    (hfree.trans (Nat.le_add_right _ _))
  have hone : nd.iOpenCnts = 1 := by rw [hw.others.node]
  have hclosed : FileClosed fs _ dirs p.toNat n _ de s nd :=
    he.fileClosed hc h.heap rfl hc.blockMap href (hcreated ▸ hw)
  have hok : FileOk (afterClose fs₂ fd i (freshRef l)).disk
      (afterClose fs₂ fd i (freshRef l)).part nd n' := by
    have hsame : Moved fs₂.disk nd fs₂.disk nd := moved_stored fs₂.disk ⟨rfl, rfl, fun _ _ => rfl⟩
    exact hsame.fileOk rfl hw.env.layout
      (fun a ha => (hholds.file.of_owns (owns_iff.mpr ha)).relist _) hholds.file
  obtain ⟨q, hgains⟩ := hclosed.gains h hok hmade.entry hnew
  have hfd := hmade.fdLow
  have hclose := sysClose_last (hthrough.kept hw.others) (by omega) hholds.inode hone
  have htables : TablesFree fs (afterClose fs₂ fd i (freshRef l)) := by
    refine ⟨fun k hfree => Option.eq_none_iff_forall_ne_some.mpr fun r hr => ?_, ?_⟩
    · rw [hclosed.slots k r hr] at hfree
      cases hfree
    · have htable : fs₂.fdTable = Function.update fs.fdTable fd (some i) :=
        hw.others.fdTable.trans (hcreated ▸ rfl)
      change Function.update fs₂.fdTable fd none = fs.fdTable
      rw [htable, Function.update_idem, Function.update_eq_self_iff]
      exact hmade.fdFree.symm
  refine ⟨_, n, q, _, de, s, nd, ?_, hgains, hclosed.newNode hok, hsame, htype,
    hclosed.holds hok hholds.size hholds.bytes, htables⟩
  have hnot : ¬ (fd : Int) = -1 := by omega
  simp only [save, hopen, ok_bind, if_neg hnot, Int.toNat_natCast, hwrites, hclose]
  rfl

end ZhuOS
