import ZhuOS.FileReads
import ZhuOS.Mkdir
import ZhuOS.OpenCounts

/-!
# A new file is written and read back

Calls of `file_write` append to the file, whatever the sizes of their pieces, and a call of
`file_read` takes from any position what they have put there. No other file changes.
-/

namespace ZhuOS

open ByteMem

set_option maxRecDepth 2000

variable {fs fs' fs'' : Fs} {nd nd' nd'' : Inode} {ref n : Nat} {content : List UInt8}

/-! ## The calls -/

structure WriteCall where
  fd : Nat
  buf : Bytes
  count : UInt32

namespace WriteCall

/-- The bytes that the call puts into the file. -/
def bytes (w : WriteCall) : List UInt8 := (List.range w.count.toNat).map w.buf

@[simp] theorem length_bytes (w : WriteCall) : w.bytes.length = w.count.toNat := by
  simp [bytes]

theorem getElem_bytes (w : WriteCall) {i : Nat} (hi : i < w.bytes.length) :
    w.bytes[i] = w.buf i := by
  simp [bytes]

end WriteCall

/-- The calls one after the other, with what they return. -/
def fileWrites (fs : Fs) : List WriteCall → Except Fault (List Int × Fs)
  | [] => return ([], fs)
  | w :: ws => do
    let (r, fs) ← fileWrite fs w.fd w.buf w.count
    let (rs, fs) ← fileWrites fs ws
    return (r :: rs, fs)

/-- What the calls put into the file. -/
def written (ws : List WriteCall) : List UInt8 := ws.flatMap WriteCall.bytes

/-! ## Files -/

/-- The bitmap marks the blocks of a file. -/
def Marked (fs : Fs) (nd : Inode) : Prop := ∀ a, Owns fs.disk nd a → InUse fs.part a

/-- The file has the same blocks with the same bytes. -/
structure SameFile (fs fs' : Fs) (nd : Inode) : Prop where
  blocks : blockAt fs'.disk nd = blockAt fs.disk nd
  data : ∀ a, Owns fs.disk nd a → Same fs'.disk fs.disk (a.toNat * 512) 512
  content : ∀ i < nd.iSize.toNat, blockAt fs.disk nd (i / 512) ≠ 0 →
    fileView fs'.disk nd i = fileView fs.disk nd i

/-- The file that is open at `ref` consists of these bytes. -/
structure FileHolds (fs : Fs) (ref : Nat) (nd : Inode) (n : Nat) (content : List UInt8) :
    Prop where
  inode : fs.inodeAt ref = .ok nd
  file : FileOk fs.disk fs.part nd n
  size : nd.iSize.toNat = content.length
  bytes : ∀ i (hi : i < content.length), fileView fs.disk nd i = content[i]
  record : Inode.SameStored (diskInode fs.disk fs.part (nd.iNo.toNat % 2 ^ 8)) nd

/-- What a file leaves alone that grows from `nd` to `nd'`. -/
structure LeavesOthers (fs fs' : Fs) (ref : Nat) (nd nd' : Inode) : Prop where
  data : ∀ a, InUse fs.part a → ¬ Owns fs.disk nd a → InUse fs'.part a ∧
    ¬ Owns fs'.disk nd' a ∧ Same fs'.disk fs.disk (a.toNat * 512) 512
  node : nd' = { nd with iSize := nd'.iSize, iSectors := nd'.iSectors }
  part : fs'.part = { fs.part with
    blockBitmap := fs'.part.blockBitmap, openInodes := fs'.part.openInodes }
  opened : fs'.part.openInodes.filter (·.ref ≠ ref) = fs.part.openInodes.filter (·.ref ≠ ref)
  stored : ∀ m < 4096, m ≠ nd.iNo.toNat % 2 ^ 8 →
    diskInode fs'.disk fs'.part m = diskInode fs.disk fs.part m
  blockMap : BlockMapSynced fs.disk fs.part → BlockMapSynced fs'.disk fs'.part
  inodeMap : InodeMapSynced fs.disk fs.part → InodeMapSynced fs'.disk fs'.part
  slots : ∀ fd, (fs'.fileTable fd).fdInode = (fs.fileTable fd).fdInode ∧
    (fs'.fileTable fd).fdFlag = (fs.fileTable fd).fdFlag
  fdTable : fs'.fdTable = fs.fdTable
  rootDir : fs'.rootDir = fs.rootDir

/-- What the next write finds. -/
structure WriteEnv (fs : Fs) : Prop where
  layout : DiskLayout fs.part
  root : InUse fs.part fs.part.sb.dataStartLba
  heap : fs.heap = fun _ => true

theorem WriteEnv.bit (h : WriteEnv fs) : fs.part.blockBitmap.bit 0 = true := by
  have hbit := h.root.marked
  rwa [blockIdx, Nat.sub_self] at hbit

theorem LeavesOthers.refl (fs : Fs) (ref : Nat) (nd : Inode) :
    LeavesOthers fs fs ref nd nd where
  data _ ha hown := ⟨ha, hown, fun _ _ _ => rfl⟩
  node := rfl
  part := rfl
  opened := rfl
  stored _ _ _ := rfl
  blockMap hs := hs
  inodeMap hs := hs
  slots _ := ⟨rfl, rfl⟩
  fdTable := rfl
  rootDir := rfl

theorem LeavesOthers.trans (h : LeavesOthers fs fs' ref nd nd')
    (h' : LeavesOthers fs' fs'' ref nd' nd'') : LeavesOthers fs fs'' ref nd nd'' where
  data a ha hown := by
    obtain ⟨ha', hown', hsame⟩ := h.data a ha hown
    obtain ⟨ha'', hown'', hsame'⟩ := h'.data a ha' hown'
    exact ⟨ha'', hown'', hsame'.trans hsame⟩
  node := by rw [h'.node, h.node]
  part := by rw [h'.part, h.part]
  opened := h'.opened.trans h.opened
  stored m hm hne := by
    have hne' : m ≠ nd'.iNo.toNat % 2 ^ 8 := by rwa [h.node]
    exact (h'.stored m hm hne').trans (h.stored m hm hne)
  blockMap hs := h'.blockMap (h.blockMap hs)
  inodeMap hs := h'.inodeMap (h.inodeMap hs)
  slots fd := ⟨(h'.slots fd).1.trans (h.slots fd).1, (h'.slots fd).2.trans (h.slots fd).2⟩
  fdTable := h'.fdTable.trans h.fdTable
  rootDir := h'.rootDir.trans h.rootDir

/-- What stays when an inode is taken off the list does not depend on the inode. -/
theorem filter_setInode (ref : Nat) (nd : Inode) (l : List OpenInode) :
    (setInode ref nd l).filter (·.ref ≠ ref) = l.filter (·.ref ≠ ref) := by
  induction l with
  | nil => rfl
  | cons o l ih =>
    rw [setInode] at ih ⊢
    rw [List.map_cons]
    by_cases ho : o.ref = ref
    · rw [if_pos ho, List.filter_cons_of_neg (by simpa using ho),
        List.filter_cons_of_neg (by simpa using ho), ih]
    · rw [if_neg ho, List.filter_cons_of_pos (by simpa using ho),
        List.filter_cons_of_pos (by simpa using ho), ih]

/-- An inode at another address is found where the others are. -/
theorem LeavesOthers.inodeAt (h : LeavesOthers fs fs' ref nd nd') {r : Nat} (hr : r ≠ ref) :
    fs'.inodeAt r = fs.inodeAt r := by
  have hfind : ∀ l : List OpenInode,
      l.find? (·.ref = r) = (l.filter (·.ref ≠ ref)).find? (·.ref = r) := by
    intro l
    rw [List.find?_filter]
    congr 1
    funext o
    by_cases ho : o.ref = r
    · simp [ho, hr]
    · simp [ho]
  rw [Fs.inodeAt, Fs.inodeAt, hfind, h.opened, ← hfind]

/-- The records of the other inodes stay. -/
theorem StoresNode.others {s s' : NodeState} (h : StoresNode s s') (hl : DiskLayout s.part)
    {m : Nat} (hm : m < 4096) (hne : m ≠ s.inode.iNo.toNat % 2 ^ 8) :
    diskInode s'.disk s.part m = diskInode s.disk s.part m := by
  have hapart := records_apart s.part hne
  have hmap := hl.inodeMap
  have htable := hl.table
  apply diskInode_congr
  intro x hlo hhi
  have hfirst : s.part.sb.inodeTableLba.toNat * 512 ≤ inodeAddr s.part m :=
    Nat.le_add_right _ _
  have hlast : inodeAddr s.part m + SIZEOF_INODE ≤
      (s.part.sb.inodeTableLba.toNat + 608) * 512 := by
    unfold inodeAddr SIZEOF_INODE
    omega
  exact h.tables x (by omega) (.inr (by omega)) (by omega)

theorem StoresNode.inodeMap {s s' : NodeState} (h : StoresNode s s') (hl : DiskLayout s.part)
    (hs : InodeMapSynced s.disk s.part) : InodeMapSynced s'.disk s.part := by
  have hlen := hl.inodeMapLen
  have hmap := hl.inodeMap
  have htable := hl.table
  apply MapSynced.congr hs
  intro x hlo hhi
  apply h.tables x (by omega) (.inr hlo)
  unfold inodeAddr
  omega

/-! ## The writes -/

theorem FileOk.keeps {disk : Bytes} {part part' : Partition} (h : FileOk disk part nd n)
    (hkeeps : ∀ a, InUse part a → InUse part' a) : FileOk disk part' nd n where
  inUse k hk := hkeeps _ (h.inUse k hk)
  apart := h.apart
  table ht := hkeeps _ (h.table ht)
  tableApart := h.tableApart
  rest := h.rest
  indirect := h.indirect
  size := h.size
  count := h.count

/-- One write more. -/
theorem FileHolds.write (h : FileHolds fs ref nd n content) (henv : WriteEnv fs) (w : WriteCall)
    (hfd : (fs.fileTable w.fd).fdInode = some ref)
    (hmax : (content ++ w.bytes).length < 512 * 140)
    (hfree : blockCost ((content ++ w.bytes).length / 512 + 1) ≤
      fs.part.blockBitmap.free.card + blockCost n) :
    ∃ fs' nd', fileWrite fs w.fd w.buf w.count = .ok (w.count.toNat, fs') ∧ WriteEnv fs' ∧
      FileHolds fs' ref nd' ((content ++ w.bytes).length / 512 + 1) (content ++ w.bytes) ∧
      LeavesOthers fs fs' ref nd nd' ∧
      fs'.part.blockBitmap.free.card + blockCost ((content ++ w.bytes).length / 512 + 1) =
        fs.part.blockBitmap.free.card + blockCost n := by
  have hlen : (content ++ w.bytes).length = nd.iSize.toNat + w.count.toNat := by
    rw [List.length_append, w.length_bytes, h.size]
  rw [hlen] at hmax hfree ⊢
  obtain ⟨pos, s', hrun, hat, hw, hstored⟩ :=
    fileWrite_ok w.buf w.count hfd h.inode henv.layout henv.bit h.file
      ⟨by rw [henv.heap], by rw [henv.heap]⟩ hmax hfree
  have hpart : s'.part = { fs.part with blockBitmap := s'.part.blockBitmap } := hw.part_eq
  have hsb : s'.part.sb = fs.part.sb := by rw [hpart]
  -- what the state is made of
  have hdisk : (((fs.bufferless 2).setNode ref s').setPos w.fd (.ofNat pos)).disk = s'.disk := rfl
  have hpart' : (((fs.bufferless 2).setNode ref s').setPos w.fd (.ofNat pos)).part =
      { s'.part with openInodes := setInode ref s'.inode s'.part.openInodes } := rfl
  have hheap : (((fs.bufferless 2).setNode ref s').setPos w.fd (.ofNat pos)).heap =
      fun _ => true := by
    change (fs.bufferless 2).heap = _
    unfold Fs.bufferless
    rw [henv.heap]
  have hslots : ∀ fd, ((((fs.bufferless 2).setNode ref s').setPos w.fd (.ofNat pos)).fileTable
        fd).fdInode = (fs.fileTable fd).fdInode ∧
      ((((fs.bufferless 2).setNode ref s').setPos w.fd (.ofNat pos)).fileTable fd).fdFlag =
        (fs.fileTable fd).fdFlag := by
    intro fd
    by_cases he : fd = w.fd
    · subst he
      simp [Fs.setPos, Fs.setNode, Fs.bufferless]
    · simp [Fs.setPos, Fs.setNode, Fs.bufferless, he]
  have hfds : (((fs.bufferless 2).setNode ref s').setPos w.fd (.ofNat pos)).fdTable =
      fs.fdTable := rfl
  have hroot : (((fs.bufferless 2).setNode ref s').setPos w.fd (.ofNat pos)).rootDir =
      fs.rootDir := rfl
  generalize ((fs.bufferless 2).setNode ref s').setPos w.fd (.ofNat pos) = fs' at *
  have hkeeps : ∀ a, InUse s'.part a → InUse fs'.part a := by
    intro a ha
    rw [hpart']
    exact ha.relist _
  have hrecord : ∀ m, diskInode fs'.disk fs'.part m = diskInode s'.disk fs.part m := by
    intro m
    rw [diskInode, diskInode, inodeAddr, inodeAddr, hdisk, hpart']
    dsimp only
    rw [hsb]
  refine ⟨fs', s'.inode, hrun, ⟨?_, ?_, hheap⟩,
    ⟨hat, ?_, by rw [hw.size, hlen], ?_, ?_⟩,
    ⟨?_, hw.inode_eq, ?_, ?_, ?_, ?_, ?_, hslots, hfds, hroot⟩, ?_⟩
  · rw [hpart']
    exact hw.layout.relist _
  · have hused := hkeeps _ (hw.keeps _ henv.root)
    have hsb' : fs'.part.sb = fs.part.sb := by
      rw [hpart']
      exact hsb
    rwa [hsb']
  · rw [hdisk]
    exact hw.file.keeps hkeeps
  · intro i hi
    rw [hlen] at hi
    rw [hdisk]
    refine (hw.content i hi).trans ?_
    by_cases hold : nd.iSize.toNat ≤ i
    · have hge : content.length ≤ i := by rwa [← h.size]
      rw [if_pos hold, List.getElem_append_right hge, w.getElem_bytes, h.size]
    · have hlt : i < content.length := by rw [← h.size]; omega
      rw [if_neg hold, List.getElem_append_left hlt]
      exact h.bytes i hlt
  · have hno : s'.inode.iNo = nd.iNo := by rw [hw.inode_eq]
    rw [hrecord, hno]
    exact hstored.record
  · intro a ha hown
    have hnot : ¬ Owns s'.disk s'.inode a := by
      intro hown'
      obtain hold | hfree := hw.fresh a hown'
      · exact hown hold
      · exact hfree ha
    rw [hdisk]
    exact ⟨hkeeps a (hw.keeps a ha), hnot, hw.others a ha.toDataBlock hnot⟩
  · rw [hpart', hpart]
  · rw [hpart', hpart]
    exact filter_setInode ref s'.inode fs.part.openInodes
  · intro m hm hne
    exact (hrecord m).trans (hstored.others henv.layout hm hne)
  · intro hs
    have hmap := hw.synced hs
    unfold BlockMapSynced at hmap ⊢
    rw [hdisk, hpart']
    exact hmap
  · intro hs
    have hmap := hstored.inodeMap henv.layout hs
    unfold InodeMapSynced at hmap ⊢
    rw [hdisk, hpart', hpart]
    exact hmap
  · rw [hpart']
    exact hw.free

/-- All writes; by induction on the calls, each of which finds what the one before has left. -/
theorem FileHolds.writes (ws : List WriteCall) (h : FileHolds fs ref nd n content)
    (henv : WriteEnv fs) (hfd : ∀ w ∈ ws, (fs.fileTable w.fd).fdInode = some ref)
    (hmax : (content ++ written ws).length < 512 * 140)
    (hfree : blockCost ((content ++ written ws).length / 512 + 1) ≤
      fs.part.blockBitmap.free.card + blockCost n) :
    ∃ fs' nd' n', fileWrites fs ws = .ok (ws.map fun w => (w.count.toNat : Int), fs') ∧
      WriteEnv fs' ∧ FileHolds fs' ref nd' n' (content ++ written ws) ∧
      LeavesOthers fs fs' ref nd nd' ∧
      fs'.part.blockBitmap.free.card + blockCost n' =
        fs.part.blockBitmap.free.card + blockCost n := by
  induction ws generalizing fs nd n content with
  | nil =>
    have hnil : content ++ written [] = content := List.append_nil content
    rw [hnil]
    exact ⟨fs, nd, n, rfl, henv, h, .refl fs ref nd, rfl⟩
  | cons w ws ih =>
    have hsplit : content ++ written (w :: ws) = content ++ w.bytes ++ written ws := by
      rw [written, List.flatMap_cons, List.append_assoc]
      rfl
    rw [hsplit] at hmax hfree ⊢
    have hshort : (content ++ w.bytes).length ≤ (content ++ w.bytes ++ written ws).length :=
      (List.sublist_append_left _ _).length_le
    have hcost := blockCost_mono (Nat.add_le_add_right (Nat.div_le_div_right (c := 512) hshort) 1)
    obtain ⟨fs₁, nd₁, hrun, henv₁, h₁, hothers, hcard⟩ :=
      h.write henv w (hfd w (List.mem_cons_self ..)) (by omega) (by omega)
    have hfd₁ : ∀ v ∈ ws, (fs₁.fileTable v.fd).fdInode = some ref := fun v hv =>
      (hothers.slots v.fd).1.trans (hfd v (List.mem_cons_of_mem _ hv))
    obtain ⟨fs', nd', n', hruns, henv', h', hothers', hcard'⟩ :=
      ih h₁ henv₁ hfd₁ hmax (by omega)
    refine ⟨fs', nd', n', ?_, henv', h', hothers.trans hothers', hcard'.trans hcard⟩
    simp only [fileWrites, hrun, ok_bind, hruns]
    rfl

/-! ## The reads -/

/-- A read from any position takes what is there, up to the end of the file. -/
def ReadsBack (fs : Fs) (ref : Nat) (content : List UInt8) : Prop :=
  ∀ fd, (fs.fileTable fd).fdInode = some ref → ∀ pos count : UInt32,
    pos.toNat < content.length → 1 ≤ count.toNat → pos.toNat + count.toNat < 2 ^ 32 → ∀ buf,
    ∃ buf' fs', fileRead (fs.setPos fd pos) fd buf count =
        .ok ((min count.toNat (content.length - pos.toNat) : Nat), buf', fs') ∧
      (∀ i < min count.toNat (content.length - pos.toNat),
        content[pos.toNat + i]? = some (buf' i)) ∧
      (fs'.fileTable fd).fdPos.toNat =
        pos.toNat + min count.toNat (content.length - pos.toNat)

theorem FileOk.covers {disk : Bytes} {part : Partition} (h : FileOk disk part nd n) :
    nd.iSize.toNat ≤ 512 * n := by
  have hsize := h.size
  obtain ⟨-, hz⟩ | hn := h.count
  · rw [hz]
    exact Nat.zero_le _
  · omega

theorem FileHolds.reads (h : FileHolds fs ref nd n content) (hheap : fs.heap = fun _ => true)
    (hmax : content.length < 139 * 512) : ReadsBack fs ref content := by
  intro fd hfd pos count hpos hcount hlt buf
  have hfile : ((fs.setPos fd pos).fileTable fd).fdPos = pos := by simp [Fs.setPos]
  have hinode : ((fs.setPos fd pos).fileTable fd).fdInode = some ref := by
    simp [Fs.setPos, hfd]
  have hread : toRead nd pos count = min count.toNat (content.length - pos.toNat) := by
    rw [toRead, h.size]
  have hnot : ¬ (0 < count.toNat ∧ pos = nd.iSize) := by
    rintro ⟨-, rfl⟩
    exact absurd h.size (Nat.ne_of_lt hpos)
  have hsize := h.size
  have hc : CanRead nd pos.toNat (toRead nd pos count) := by
    rw [hread]
    refine ⟨by omega, by omega, ?_⟩
    intro _ hfar
    -- a file that reaches so far has the block behind the direct ones
    apply h.file.indirect.mpr
    obtain ⟨-, hz⟩ | hn := h.file.count
    · rw [hz] at hsize
      have hzero : (0 : UInt32).toNat = 0 := rfl
      omega
    · omega
  have hle : pos.toNat ≤ nd.iSize.toNat := by omega
  have hmem : Buffers (fs.setPos fd pos) := ⟨congrFun hheap 0, congrFun hheap 1⟩
  rw [← hfile] at hle hlt hnot hc
  obtain ⟨buf', hrun, hbytes⟩ := fileRead_ok buf count hinode h.inode h.file.toHasBlocks
    h.file.covers hle hmem hlt hnot hc
  rw [hfile] at hle hlt
  rw [hfile] at hrun hbytes
  rw [hread] at hrun hbytes
  refine ⟨buf', _, hrun, ?_, ?_⟩
  · intro i hi
    have hin : pos.toNat + i < content.length := by omega
    rw [hbytes i hi, List.getElem?_eq_getElem hin]
    exact congrArg some (h.bytes _ hin).symm
  · have hend := readSize_end hle hlt
    rw [hread] at hend
    rw [← hend]
    simp [Fs.setPos]

/-! ## New files -/

/-- An empty file that is open at `ref`, with the record that `inode_sync` gives it. -/
structure NewFile (fs : Fs) (ref : Nat) (nd : Inode) : Prop where
  inode : fs.inodeAt ref = .ok nd
  iSize : nd.iSize = 0
  iSectors : ∀ k < 13, nd.iSectors k = 0
  record : Inode.SameStored (diskInode fs.disk fs.part (nd.iNo.toNat % 2 ^ 8)) nd

theorem NewFile.blocks (h : NewFile fs ref nd) (k : Nat) : blockAt fs.disk nd k = 0 := by
  by_cases hk : k < 12
  · rw [blockAt_direct hk]
    exact h.iSectors k (by omega)
  · exact blockAt_noTable (h.iSectors 12 (by decide)) (by omega)

theorem NewFile.owns_nothing (h : NewFile fs ref nd) (a : UInt32) : ¬ Owns fs.disk nd a := by
  rintro ⟨hne, ⟨k, -, rfl⟩ | rfl⟩
  · exact hne (h.blocks k)
  · exact hne (h.iSectors 12 (by decide))

theorem NewFile.holds (h : NewFile fs ref nd) : FileHolds fs ref nd 0 [] where
  inode := h.inode
  file :=
    { inUse := fun k hk => absurd hk (Nat.not_lt_zero k)
      apart := fun i hi => absurd hi (Nat.not_lt_zero i)
      table := fun hne => absurd (h.iSectors 12 (by decide)) hne
      tableApart := fun k hk => absurd hk (Nat.not_lt_zero k)
      rest := fun k _ => h.blocks k
      indirect := ⟨fun hne => absurd (h.iSectors 12 (by decide)) hne,
        fun hlt => absurd hlt (by decide)⟩
      size := by rw [h.iSize]; exact Nat.zero_le _
      count := .inl ⟨rfl, h.iSize⟩ }
  size := by rw [h.iSize]; rfl
  bytes i hi := absurd hi (Nat.not_lt_zero i)
  record := h.record

/-- The new inode is open and stored, whatever the entry has done to the directory. -/
theorem createSync_new {dir : Dir} {name : List UInt8} {c : Creating} (hl : DiskLayout fs.part)
    (hin : c.inodeNo < fs.part.inodeBitmap.size)
    (h : createSync fs dir name c = .ok (true, fs')) :
    NewFile fs' c.ref { inodeInit (.ofNat c.inodeNo) with iOpenCnts := 1 } := by
  obtain ⟨de, -, h⟩ := bind_ok.mp h
  obtain ⟨parent, -, h⟩ := bind_ok.mp h
  obtain ⟨⟨done, s⟩, hs, h⟩ := bind_ok.mp h
  cases done with
  | false => cases h
  | true =>
    have honly : BlocksOnly fs.part s.part := (syncDirEntry_keeps hs).blocks
    obtain ⟨l, hlist⟩ : ∃ l, (fs.setNode dir.inode s).part =
        { fs.part with blockBitmap := s.part.blockBitmap, openInodes := l } := by
      refine ⟨setInode dir.inode s.inode s.part.openInodes, ?_⟩
      unfold Fs.setNode
      rw [show s.part = _ from honly]
    -- the block bitmap may be another, but the sectors of the inode bitmap are where they were
    have hbase : DiskLayout { fs.part with openInodes := l } := hl.relist l
    have hfits : TableFits (fs.setNode dir.inode s).part := by
      rw [hlist]
      exact ⟨hbase.fits.disk, hbase.fits.part⟩
    have hsync : ∀ disk, bitmapSync disk (fs.setNode dir.inode s).part c.inodeNo .INODE_BITMAP =
        .ok (syncInodeMap disk { fs.part with openInodes := l } c.inodeNo) := by
      intro disk
      rw [hlist]
      exact bitmapSync_inode hbase hin
    simp only [inodeSync_eq hfits, ok_bind, hsync, not_true, ↓reduceIte] at h
    cases h
    refine ⟨inodeAt_head .., rfl, fun _ _ => rfl, ?_⟩
    generalize (Fs.setNode fs dir.inode s).part = part at hlist ⊢
    subst hlist
    have hmap := fun disk m => diskInode_congr
      (@syncInodeMap_same _ _ hbase hin disk (inodeAddr _ m) SIZEOF_INODE (Nat.le_add_right _ _))
    refine Eq.substr (p := fun nd => Inode.SameStored nd _) (hmap _ _) ?_
    exact (diskInode_stored _).trans ⟨rfl, rfl, fun _ _ => rfl⟩

theorem setSlot_self (fs : Fs) (fdIdx : Nat) (file : File) :
    (fs.setSlot fdIdx file).fileTable fdIdx = file := Function.update_self ..

/-- `file_create` makes a new file. -/
theorem fileCreate_new {dir : Dir} {name : List UInt8} {flag : UInt8} {r : Int}
    (hl : DiskLayout fs.part) (h : fileCreate fs dir name flag = .ok (r, fs')) (hr : r ≠ -1) :
    ∃ fd i ref nd, r = Int.ofNat fd ∧ fs'.fdTable fd = some i ∧
      (fs'.fileTable i).fdInode = some ref ∧ NewFile fs' ref nd := by
  obtain ⟨⟨begun, fs₁⟩, hb, h⟩ := bind_ok.mp h
  have hbegin := createBegin_ok hb
  cases hbegin with
  | failed heap =>
    cases h
    exact absurd rfl hr
  | @marked no i heap hin hfree hslot =>
    obtain ⟨⟨synced, fs₂⟩, hs, h⟩ := bind_ok.mp h
    obtain ⟨hfile, hfd⟩ := createSync_tables hs
    obtain rfl := createSync_true hs
    have hnew := createSync_new (hl.setNumber no) hin hs
    obtain ⟨hi, heq⟩ := pcbFdInstall_ok (Except.ok.inj h)
    generalize fs'.fdTable = fds at hi heq ⊢
    cases hi with
    | full hfull => exact absurd rfl hr
    | @put fd hlo hhi hnone =>
      refine ⟨fd, i, freshRef fs.part.openInodes,
        { inodeInit (.ofNat no) with iOpenCnts := 1 }, rfl, ?_, ?_, ?_⟩
      · exact Function.update_self ..
      · have hslots : fs'.fileTable = fs₂.fileTable := by rw [heq]
        rw [hslots, hfile, setSlot_self]
      · rw [heq]
        exact ⟨hnew.inode, hnew.iSize, hnew.iSectors, hnew.record⟩

/-- Every other file whose blocks the bitmap marks, open or stored under its number, is as it
was. -/
structure OtherFilesKept (fs fs' : Fs) (ref : Nat) (no : UInt32) : Prop where
  opened : ∀ r ≠ ref, ∀ nd, fs.inodeAt r = .ok nd → Marked fs nd →
    fs'.inodeAt r = .ok nd ∧ SameFile fs fs' nd
  stored : ∀ m < 4096, m ≠ no.toNat → (diskInode fs.disk fs.part m).iNo.toNat = m →
    Marked fs (diskInode fs.disk fs.part m) →
    diskInode fs'.disk fs'.part m = diskInode fs.disk fs.part m ∧
      SameFile fs fs' (diskInode fs.disk fs.part m)

/-- Blocks that are as they were make the same file. -/
theorem SameFile.of_data
    (h : ∀ a, Owns fs.disk nd a → Same fs'.disk fs.disk (a.toNat * 512) 512) :
    SameFile fs fs' nd := by
  have hblocks : blockAt fs'.disk nd = blockAt fs.disk nd :=
    blockAt_congr (fun _ _ => rfl) fun ht => h _ ⟨ht, .inr rfl⟩
  refine ⟨hblocks, h, ?_⟩
  intro i _ hne
  have hk : i / 512 < 140 := by
    by_contra hfar
    exact hne (blockAt_far (Nat.not_lt.mp hfar))
  unfold fileView
  rw [hblocks]
  exact view_congr (by decide) rfl (h _ ⟨hne, .inl ⟨i / 512, hk, rfl⟩⟩)

/-- A file that owned nothing takes no block of another. -/
theorem LeavesOthers.kept (h : LeavesOthers fs fs' ref nd nd') (hnew : NewFile fs ref nd) :
    OtherFilesKept fs fs' ref nd.iNo where
  opened r hr other hother hmarked := by
    refine ⟨(h.inodeAt hr).trans hother, .of_data fun a ha => ?_⟩
    exact (h.data a (hmarked a ha) (hnew.owns_nothing a)).2.2
  stored m hm hne hno hmarked := by
    have hrec : m ≠ nd.iNo.toNat % 2 ^ 8 := by
      rintro rfl
      rw [hnew.record.iNo] at hno
      exact hne hno.symm
    refine ⟨h.stored m hm hrec, .of_data fun a ha => ?_⟩
    exact (h.data a (hmarked a ha) (hnew.owns_nothing a)).2.2

end ZhuOS
