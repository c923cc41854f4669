import ZhuOS.WriteLimits

/-!
# When `file_read` does what it should

The last block is found from the end of the read, not from its last byte, so that a read up
to the end of a sector looks for the block behind it.
-/

namespace ZhuOS

open ByteMem

set_option maxRecDepth 2000

variable {fs fs' : Fs} {disk disk' : Bytes} {part : Partition} {nd : Inode} {ref fd n : Nat}
  {buf buf' : Bytes} {count : UInt32}

/-! ## The addresses -/

theorem copySectors_eq (nd : Inode) (left : Nat) {idx : Nat} (blocks : Nat → UInt32) (k : Nat) :
    copySectors nd left idx blocks k =
      if idx ≤ k ∧ k < idx + left then nd.iSectors k else blocks k := by
  induction left generalizing idx blocks with
  | zero =>
    rw [copySectors, if_neg (by omega)]
  | succ left ih =>
    rw [copySectors, ih]
    by_cases hk : k = idx
    · subst hk
      rw [if_neg (by omega), if_pos (by omega), Function.update_self]
    · by_cases hin : idx + 1 ≤ k ∧ k < idx + 1 + left
      · rw [if_pos hin, if_pos (by omega)]
      · rw [if_neg hin, if_neg (by omega), Function.update_of_ne hk]

theorem HasBlocks.tableOnDisk (h : HasBlocks disk part nd n) :
    (nd.iSectors 12).toNat ≤ max_lba := by
  by_cases hz : nd.iSectors 12 = 0
  · rw [hz]
    exact Nat.zero_le _
  · exact (h.table hz).onDisk

theorem HasBlocks.le_far (h : HasBlocks disk part nd n) (hl : DiskLayout part) : n ≤ 140 := by
  by_contra hn
  have hu := h.inUse 140 (by omega)
  rw [blockAt_far (Nat.le_refl _)] at hu
  exact hu.ne_zero hl rfl

/-- The addresses of a read are those of the file, as far as it has blocks. -/
theorem readBlocks_ok (h : HasBlocks disk part nd n) {start last : Nat} (hle : start ≤ last)
    (hmax : last < 140) (htable : start < last → 12 ≤ last → nd.iSectors 12 ≠ 0) :
    ∃ all, readBlocks disk nd start last = .ok all ∧
      ∀ k, start ≤ k → k ≤ last → k < n → all k = blockAt disk nd k := by
  have hread : ∀ blocks, ∃ all, readTable disk (nd.iSectors 12) blocks = .ok all ∧
      (∀ k, 12 ≤ k → k < 140 → nd.iSectors 12 ≠ 0 → all k = blockAt disk nd k) ∧
      ∀ k < 12, all k = blocks k := readTable_ok disk h.tableOnDisk
  by_cases hone : start = last
  · subst hone
    by_cases hdirect : start < 12
    · refine ⟨oneBlock nd start, by rw [readBlocks, if_pos rfl, if_pos hdirect]; rfl, ?_⟩
      intro k hk hk' _
      have he : k = start := by omega
      rw [he, oneBlock_self, blockAt_direct hdirect]
    · obtain ⟨all, hall, hfar, -⟩ := hread fun _ => 0
      refine ⟨all, by rw [readBlocks, if_pos rfl, if_neg hdirect, hall], ?_⟩
      intro k hk hk' hn
      exact hfar k (by omega) (by omega) (h.indirect.mpr (by omega))
  · by_cases hdirect : last < 12
    · refine ⟨_, by rw [readBlocks, if_neg hone, if_pos hdirect]; rfl, ?_⟩
      intro k hk hk' _
      rw [copySectors_eq, if_pos (by omega), blockAt_direct (by omega)]
    · have hne := htable (by omega) (by omega)
      by_cases hlow : start < 12
      · obtain ⟨all, hall, hfar, hnear⟩ := hread (copySectors nd (12 - start) start fun _ => 0)
        refine ⟨all, ?_, ?_⟩
        · rw [readBlocks, if_neg hone, if_neg hdirect, if_pos hlow, ASSERT_true hne, ok_bind, hall]
        · intro k hk hk' _
          by_cases hk12 : k < 12
          · rw [hnear k hk12, copySectors_eq, if_pos (by omega), blockAt_direct hk12]
          · exact hfar k (by omega) (by omega) hne
      · obtain ⟨all, hall, hfar, -⟩ := hread fun _ => 0
        refine ⟨all, ?_, ?_⟩
        · rw [readBlocks, if_neg hone, if_neg hdirect, if_neg hlow, ASSERT_true hne, ok_bind, hall]
        · intro k hk hk' _
          exact hfar k (by omega) (by omega) hne

/-! ## The call -/

/-- The number of bytes `file_read` takes. -/
def readSize (nd : Inode) (pos count : UInt32) : UInt32 :=
  if nd.iSize < pos + count then nd.iSize - pos else count

/-- `file_read` from its buffers on. -/
def readNode (fs : Fs) (fd : Nat) (nd : Inode) (buf : Bytes) (size : UInt32) :
    Except Fault (Int × Bytes × Fs) := do
  let file := fs.fileTable fd
  let blockReadStartIdx := file.fdPos.toNat / 512
  let blockReadEndIdx := (file.fdPos + size).toNat / 512
  ASSERT (blockReadStartIdx < 139 ∧ blockReadEndIdx < 139)
  let allBlocks ← readBlocks fs.disk nd blockReadStartIdx blockReadEndIdx
  let l ← readLoop fs.disk allBlocks size.toNat (size.toNat + 1)
    ⟨buf, file.fdPos.toNat, 0, size.toNat⟩
  return (l.bytesRead, l.buf, fs.setPos fd (.ofNat l.fdPos))

/-- `file_read` up to the blocks. -/
theorem fileRead_eq (hfd : (fs.fileTable fd).fdInode = some ref)
    (hnode : fs.inodeAt ref = .ok nd) (buf : Bytes) (count : UInt32) :
    fileRead fs fd buf count =
      if nd.iSize < (fs.fileTable fd).fdPos + count ∧
          readSize nd (fs.fileTable fd).fdPos count = 0 then .ok (-1, buf, fs)
      else if fs.heap 0 = false then .ok (-1, buf, fs.bufferless 1)
      else if fs.heap 1 = false then .ok (-1, buf, fs.bufferless 2)
      else readNode (fs.bufferless 2) fd nd buf (readSize nd (fs.fileTable fd).fdPos count) := by
  simp only [fileRead, hfd, hnode, ok_bind]
  unfold readSize
  generalize (if nd.iSize < (fs.fileTable fd).fdPos + count
    then nd.iSize - (fs.fileTable fd).fdPos else count) = size
  by_cases hend : nd.iSize < (fs.fileTable fd).fdPos + count ∧ size = 0
  · rw [if_pos hend, if_pos hend]
    rfl
  · rw [if_neg hend, if_neg hend]
    simp only [Fs.askMalloc, ZhuOS.askMalloc, decide_true, Bool.and_true, Nat.reduceLT,
      Nat.reduceAdd, Bool.not_eq_true, Fs.bufferless]
    by_cases h0 : fs.heap 0 = false
    · rw [if_pos h0, if_pos h0]
      rfl
    · rw [if_neg h0, if_neg h0]
      by_cases h1 : fs.heap 1 = false
      · rw [if_pos h1, if_pos h1]
        rfl
      · rw [if_neg h1]
        exact (if_neg h1).symm

/-- A read that returns transfers `size` bytes. -/
theorem readLoop_done (fuel : Nat) {blocks : Nat → UInt32} {size : Nat} {l l' : ReadLoop}
    (h : readLoop disk blocks size fuel l = .ok l') : size ≤ l'.bytesRead := by
  induction fuel generalizing l with
  | zero => cases h
  | succ fuel ih =>
    rw [readLoop] at h
    by_cases hmore : l.bytesRead < size
    · rw [if_pos hmore] at h
      by_cases hfar : 140 ≤ l.fdPos / 512
      · rw [if_pos hfar] at h
        cases h
      · rw [if_neg hfar] at h
        obtain ⟨io, -, h⟩ := bind_ok.mp h
        exact ih h
    · rw [if_neg hmore] at h
      cases h
      exact Nat.not_lt.mp hmore

/-- What a read that is within the file needs. -/
structure CanRead (nd : Inode) (pos size : Nat) : Prop where
  inFile : pos + size ≤ nd.iSize.toNat
  max : pos + size < 139 * 512
  table : pos < 12 * 512 → 12 * 512 ≤ pos + size → nd.iSectors 12 ≠ 0

theorem readNode_ok {pos size : UInt32} (hfile : (fs.fileTable fd).fdPos = pos)
    (hb : HasBlocks fs.disk part nd n) (hsize : nd.iSize.toNat ≤ 512 * n)
    (hc : CanRead nd pos.toNat size.toNat) (buf : Bytes) :
    ∃ buf', readNode fs fd nd buf size = .ok (size.toNat, buf', fs.setPos fd (pos + size)) ∧
      ∀ i < size.toNat, buf' i = fileView fs.disk nd (pos.toNat + i) := by
  obtain ⟨hin, hmax, htable⟩ := hc
  have hsum : (pos + size).toNat = pos.toNat + size.toNat := by
    rw [UInt32.toNat_add, Nat.mod_eq_of_lt (by omega)]
  have hassert : pos.toNat / 512 < 139 ∧ (pos.toNat + size.toNat) / 512 < 139 := by omega
  have htable' : pos.toNat / 512 < (pos.toNat + size.toNat) / 512 →
      12 ≤ (pos.toNat + size.toNat) / 512 → nd.iSectors 12 ≠ 0 := by
    intro hlt hfar
    by_cases hlow : pos.toNat < 12 * 512
    · exact htable hlow (by omega)
    · exact hb.indirect.mpr (by omega)
  obtain ⟨all, hall, hblocks⟩ := readBlocks_ok hb
    (Nat.div_le_div_right (Nat.le_add_right _ _)) (by omega) htable'
  have hdisk : ∀ k, pos.toNat / 512 ≤ k → k * 512 < pos.toNat + size.toNat →
      all k = blockAt fs.disk nd k ∧ (all k).toNat ≤ max_lba := by
    intro k hk hk'
    have heq := hblocks k hk (by omega) (by omega)
    rw [heq]
    exact ⟨rfl, (hb.inUse k (by omega)).onDisk⟩
  let l₀ : ReadLoop := ⟨buf, pos.toNat, 0, size.toNat⟩
  obtain ⟨l, hloop, hread, hpos, hbuf⟩ : ∃ l, readLoop fs.disk all size.toNat (size.toNat + 1) l₀ =
      .ok l ∧ l.bytesRead = size.toNat ∧ l.fdPos = pos.toNat + size.toNat ∧
      ∀ i < size.toNat, l.buf i =
        if 0 ≤ i then view 512 fs.disk (secAddr all) (pos.toNat + (i - 0)) else buf i :=
    readLoop_ok _ (Nat.zero_add _) (Nat.lt_succ_self _) (by dsimp only [l₀]; omega)
      fun k hk hk' => (hdisk k hk hk').2
  refine ⟨l.buf, ?_, ?_⟩
  · have hend : UInt32.ofNat l.fdPos = pos + size := by
      rw [hpos, ← hsum]
      exact UInt32.ofNat_toNat
    simp only [readNode, hfile, hsum, ASSERT_true hassert, ok_bind, hall]
    simp only [hloop, ok_bind, hread, hend, l₀]
    rfl
  · intro i hi
    rw [hbuf i hi, if_pos (Nat.zero_le i), Nat.sub_zero]
    apply view_congr (by decide)
    · unfold secAddr
      rw [(hdisk _ (by omega) (by omega)).1]
    · exact fun _ _ _ => rfl

/-! ## What is promised -/

/-- How many bytes a read of `count` should transfer. -/
def toRead (nd : Inode) (pos count : UInt32) : Nat := min count.toNat (nd.iSize.toNat - pos.toNat)

/-- A read that has something to transfer transfers it from the blocks of the file, one at the
end of the file returns -1, and the other sectors do not matter. -/
structure ReadsRight (fs : Fs) (fd : Nat) (nd : Inode) (buf : Bytes) (count : UInt32)
    (result : Int) (buf' : Bytes) (fs' : Fs) : Prop where
  atEnd : 0 < count.toNat → (fs.fileTable fd).fdPos = nd.iSize → result = -1 ∧ buf' = buf
  inside : ¬ (0 < count.toNat ∧ (fs.fileTable fd).fdPos = nd.iSize) →
    result = toRead nd (fs.fileTable fd).fdPos count ∧
    (∀ i < toRead nd (fs.fileTable fd).fdPos count,
      buf' i = fileView fs.disk nd ((fs.fileTable fd).fdPos.toNat + i)) ∧
    (fs'.fileTable fd).fdPos.toNat =
      (fs.fileTable fd).fdPos.toNat + toRead nd (fs.fileTable fd).fdPos count
  disk : fs'.disk = fs.disk
  own : ∀ disk', (∀ a, Owns fs.disk nd a → Same disk' fs.disk (a.toNat * 512) 512) →
    ∃ buf'', fileRead { fs with disk := disk' } fd buf count =
        .ok (result, buf'', { fs' with disk := disk' }) ∧
      ∀ i : Nat, (i : Int) < result → buf'' i = buf' i

/-- The reads that do so. -/
def ReadsSafely (fs : Fs) (fd : Nat) (nd : Inode) (count : UInt32) : Prop :=
  if 0 < count.toNat ∧ (fs.fileTable fd).fdPos = nd.iSize then
    (fs.fileTable fd).fdPos.toNat + count.toNat < 2 ^ 32 ∨ ¬ Buffers fs
  else
    Buffers fs ∧ (fs.fileTable fd).fdPos.toNat + count.toNat < 2 ^ 32 ∧
      CanRead nd (fs.fileTable fd).fdPos.toNat (toRead nd (fs.fileTable fd).fdPos count)

/-! ## Which reads -/

theorem readSize_eq {pos : UInt32} (hpos : pos.toNat ≤ nd.iSize.toNat)
    (hlt : pos.toNat + count.toNat < 2 ^ 32) :
    (readSize nd pos count).toNat = toRead nd pos count := by
  have hsum : (pos + count).toNat = pos.toNat + count.toNat := by
    rw [UInt32.toNat_add, Nat.mod_eq_of_lt hlt]
  unfold readSize toRead
  by_cases hpast : nd.iSize < pos + count
  · rw [if_pos hpast, UInt32.toNat_sub_of_le _ _ (UInt32.le_iff_toNat_le.mpr hpos)]
    rw [UInt32.lt_iff_toNat_lt, hsum] at hpast
    omega
  · rw [if_neg hpast]
    rw [UInt32.lt_iff_toNat_lt, hsum] at hpast
    omega

/-- Without a wrap the first test finds the end of the file. -/
theorem atEnd_iff {pos : UInt32} (hpos : pos.toNat ≤ nd.iSize.toNat)
    (hlt : pos.toNat + count.toNat < 2 ^ 32) :
    (nd.iSize < pos + count ∧ readSize nd pos count = 0) ↔ 0 < count.toNat ∧ pos = nd.iSize := by
  have hsum : (pos + count).toNat = pos.toNat + count.toNat := by
    rw [UInt32.toNat_add, Nat.mod_eq_of_lt hlt]
  have hsize := readSize_eq hpos hlt
  rw [← UInt32.toNat_inj, hsize, UInt32.lt_iff_toNat_lt, hsum, ← UInt32.toNat_inj (a := pos)]
  unfold toRead
  rw [UInt32.toNat_zero]
  omega

/-- A sum that wraps is not past the end of any file. -/
theorem wraps {pos : UInt32} (hpos : pos.toNat ≤ nd.iSize.toNat)
    (hge : 2 ^ 32 ≤ pos.toNat + count.toNat) :
    ¬ nd.iSize < pos + count ∧ readSize nd pos count = count := by
  have hlt := UInt32.toNat_lt count
  have hlt' := UInt32.toNat_lt pos
  have hpast : ¬ nd.iSize < pos + count := by
    rw [UInt32.lt_iff_toNat_lt, UInt32.toNat_add]
    omega
  exact ⟨hpast, if_neg hpast⟩

/-- A read that returns has come to the end of the file, has found no memory, or has all the
bytes it asked the blocks for. -/
theorem fileRead_cases {result : Int} (hfd : (fs.fileTable fd).fdInode = some ref)
    (hnode : fs.inodeAt ref = .ok nd) (h : fileRead fs fd buf count = .ok (result, buf', fs')) :
    (result = -1 ∧ (nd.iSize < (fs.fileTable fd).fdPos + count ∧
        readSize nd (fs.fileTable fd).fdPos count = 0 ∨ ¬ Buffers fs)) ∨
      Buffers fs ∧ (readSize nd (fs.fileTable fd).fdPos count).toNat ≤ result ∧
        ((fs.fileTable fd).fdPos + readSize nd (fs.fileTable fd).fdPos count).toNat < 139 * 512 ∧
        ((fs.fileTable fd).fdPos.toNat < 12 * 512 → 12 * 512 ≤
          ((fs.fileTable fd).fdPos + readSize nd (fs.fileTable fd).fdPos count).toNat →
            nd.iSectors 12 ≠ 0) := by
  rw [fileRead_eq hfd hnode] at h
  by_cases hend : nd.iSize < (fs.fileTable fd).fdPos + count ∧
      readSize nd (fs.fileTable fd).fdPos count = 0
  · rw [if_pos hend] at h
    cases h
    exact .inl ⟨rfl, .inl hend⟩
  · rw [if_neg hend] at h
    by_cases h0 : fs.heap 0 = false
    · rw [if_pos h0] at h
      cases h
      exact .inl ⟨rfl, .inr fun hmem => by simp [hmem.1] at h0⟩
    · rw [if_neg h0] at h
      by_cases h1 : fs.heap 1 = false
      · rw [if_pos h1] at h
        cases h
        exact .inl ⟨rfl, .inr fun hmem => by simp [hmem.2] at h1⟩
      · rw [if_neg h1] at h
        obtain ⟨_, hassert, h⟩ := bind_ok.mp h
        obtain ⟨all, hall, h⟩ := bind_ok.mp h
        obtain ⟨l, hloop, h⟩ := bind_ok.mp h
        cases h
        have hdone := readLoop_done _ hloop
        obtain ⟨-, hmax⟩ := ASSERT_ok hassert
        refine .inr ⟨⟨by simpa using h0, by simpa using h1⟩, Int.ofNat_le.mpr hdone, ?_, ?_⟩
        · have hpos : (fs.bufferless 2).fileTable = fs.fileTable := rfl
          rw [hpos] at hmax
          omega
        · intro hlow hfar
          change readBlocks _ nd ((fs.fileTable fd).fdPos.toNat / 512)
            (((fs.fileTable fd).fdPos + readSize nd (fs.fileTable fd).fdPos count).toNat / 512) = _
            at hall
          rw [readBlocks, if_neg (by omega), if_neg (by omega), if_pos (by omega)] at hall
          obtain ⟨_, htable, -⟩ := bind_ok.mp hall
          exact ASSERT_ok htable

/-! ## The sectors that matter -/

/-- Another disk with the same blocks of the file. -/
def SameOwn (fs : Fs) (nd : Inode) (disk' : Bytes) : Prop :=
  ∀ a, Owns fs.disk nd a → Same disk' fs.disk (a.toNat * 512) 512

theorem SameOwn.blocks (h : SameOwn fs nd disk') : blockAt disk' nd = blockAt fs.disk nd :=
  blockAt_congr (fun _ _ => rfl) fun ht => h _ ⟨ht, .inr rfl⟩

theorem SameOwn.has (h : SameOwn fs nd disk') (hb : HasBlocks fs.disk part nd n) :
    HasBlocks disk' part nd n := by
  refine ⟨?_, hb.indirect⟩
  rw [h.blocks]
  exact hb.toExtent

theorem SameOwn.view (h : SameOwn fs nd disk') (hl : DiskLayout part)
    (hb : HasBlocks fs.disk part nd n) {i : Nat} (hi : i < 512 * n) :
    fileView disk' nd i = fileView fs.disk nd i := by
  have hfar := hb.le_far hl
  unfold fileView
  rw [h.blocks]
  exact view_congr (by decide) rfl (h _ (hb.owns_block hl (by omega) (by omega)))

/-- A read that may and finds its memory transfers its bytes. -/
theorem fileRead_ok (buf : Bytes) (count : UInt32) (hfd : (fs.fileTable fd).fdInode = some ref)
    (hnode : fs.inodeAt ref = .ok nd) (hb : HasBlocks fs.disk part nd n)
    (hsize : nd.iSize.toNat ≤ 512 * n) (hpos : (fs.fileTable fd).fdPos.toNat ≤ nd.iSize.toNat)
    (hmem : Buffers fs) (hlt : (fs.fileTable fd).fdPos.toNat + count.toNat < 2 ^ 32)
    (hnot : ¬ (0 < count.toNat ∧ (fs.fileTable fd).fdPos = nd.iSize))
    (hc : CanRead nd (fs.fileTable fd).fdPos.toNat (toRead nd (fs.fileTable fd).fdPos count)) :
    ∃ buf', fileRead fs fd buf count = .ok (toRead nd (fs.fileTable fd).fdPos count, buf',
        (fs.bufferless 2).setPos fd
          ((fs.fileTable fd).fdPos + readSize nd (fs.fileTable fd).fdPos count)) ∧
      ∀ i < toRead nd (fs.fileTable fd).fdPos count,
        buf' i = fileView fs.disk nd ((fs.fileTable fd).fdPos.toNat + i) := by
  have heq := readSize_eq hpos hlt
  rw [← heq] at hc ⊢
  have hfile : ((fs.bufferless 2).fileTable fd).fdPos = (fs.fileTable fd).fdPos := rfl
  obtain ⟨buf', hrun, hbytes⟩ := readNode_ok hfile hb hsize hc buf
  refine ⟨buf', ?_, hbytes⟩
  have hend := mt (atEnd_iff hpos hlt).mp hnot
  rw [fileRead_eq hfd hnode, if_neg hend, if_neg (by simp [hmem.1]), if_neg (by simp [hmem.2])]
  exact hrun

/-- A read at the end of the file looks at no sector. -/
theorem fileRead_end (buf : Bytes) (hfd : (fs.fileTable fd).fdInode = some ref)
    (hnode : fs.inodeAt ref = .ok nd) (hpos : (fs.fileTable fd).fdPos = nd.iSize)
    (hcount : 0 < count.toNat)
    (hwhy : (fs.fileTable fd).fdPos.toNat + count.toNat < 2 ^ 32 ∨ ¬ Buffers fs) :
    ∃ asked, ∀ disk', fileRead { fs with disk := disk' } fd buf count =
      .ok (-1, buf, { fs.bufferless asked with disk := disk' }) := by
  by_cases hend : nd.iSize < (fs.fileTable fd).fdPos + count ∧
      readSize nd (fs.fileTable fd).fdPos count = 0
  · refine ⟨0, fun disk' => ?_⟩
    let fs₂ : Fs := { fs with disk := disk' }
    have hfd₂ : (fs₂.fileTable fd).fdInode = some ref := hfd
    exact (fileRead_eq hfd₂ hnode buf count).trans (if_pos hend)
  · have hmem : ¬ Buffers fs := by
      refine hwhy.resolve_left fun hlt => hend ?_
      exact (atEnd_iff (by rw [hpos]) hlt).mpr ⟨hcount, hpos⟩
    by_cases h0 : fs.heap 0 = false
    · refine ⟨1, fun disk' => ?_⟩
      let fs₂ : Fs := { fs with disk := disk' }
      have hfd₂ : (fs₂.fileTable fd).fdInode = some ref := hfd
      exact (fileRead_eq hfd₂ hnode buf count).trans ((if_neg hend).trans (if_pos h0))
    · have h1 : fs.heap 1 = false := by
        by_contra h1
        exact hmem ⟨by simpa using h0, by simpa using h1⟩
      refine ⟨2, fun disk' => ?_⟩
      let fs₂ : Fs := { fs with disk := disk' }
      have hfd₂ : (fs₂.fileTable fd).fdInode = some ref := hfd
      exact (fileRead_eq hfd₂ hnode buf count).trans
        ((if_neg hend).trans ((if_neg h0).trans (if_pos h1)))

/-- Where a read ends. -/
theorem readSize_end {pos : UInt32} (hpos : pos.toNat ≤ nd.iSize.toNat)
    (hlt : pos.toNat + count.toNat < 2 ^ 32) :
    (pos + readSize nd pos count).toNat = pos.toNat + toRead nd pos count := by
  have hmax := UInt32.toNat_lt nd.iSize
  rw [UInt32.toNat_add, readSize_eq hpos hlt, Nat.mod_eq_of_lt]
  unfold toRead
  omega

/-- `file_read` keeps its promise in exactly these calls. -/
theorem fileRead_right_iff (hl : DiskLayout fs.part) (hfd : (fs.fileTable fd).fdInode = some ref)
    (hnode : fs.inodeAt ref = .ok nd) (hb : HasBlocks fs.disk fs.part nd n)
    (hsize : nd.iSize.toNat ≤ 512 * n) (hmax : nd.iSize.toNat ≤ 71680)
    (hpos : (fs.fileTable fd).fdPos.toNat ≤ nd.iSize.toNat) (buf : Bytes) (count : UInt32) :
    (∃ result buf' fs', fileRead fs fd buf count = .ok (result, buf', fs') ∧
      ReadsRight fs fd nd buf count result buf' fs') ↔ ReadsSafely fs fd nd count := by
  have hcount := UInt32.toNat_lt count
  constructor
  · rintro ⟨result, buf', fs', hrun, hright⟩
    have hcases := fileRead_cases hfd hnode hrun
    unfold ReadsSafely
    by_cases hend : 0 < count.toNat ∧ (fs.fileTable fd).fdPos = nd.iSize
    · rw [if_pos hend]
      obtain ⟨hminus, -⟩ := hright.atEnd hend.1 hend.2
      by_contra hnot
      obtain ⟨hge, hmem⟩ := not_or.mp hnot
      obtain ⟨hpast, hall⟩ := wraps hpos (Nat.not_lt.mp hge)
      obtain ⟨-, hwhy⟩ | ⟨-, hle, -⟩ := hcases
      · obtain ⟨hwhy, -⟩ | hwhy := hwhy
        · exact hpast hwhy
        · exact hmem hwhy
      · omega
    · rw [if_neg hend]
      obtain ⟨hresult, -, -⟩ := hright.inside hend
      obtain ⟨hminus, -⟩ | ⟨hmem, hle, hassert, htable⟩ := hcases
      · omega
      · have hread : toRead nd (fs.fileTable fd).fdPos count ≤ 71680 := by
          unfold toRead
          omega
        have hlt : (fs.fileTable fd).fdPos.toNat + count.toNat < 2 ^ 32 := by
          by_contra hge
          obtain ⟨-, hall⟩ := wraps hpos (Nat.not_lt.mp hge)
          rw [hall] at hle
          omega
        rw [readSize_end hpos hlt] at hassert htable
        refine ⟨hmem, hlt, ?_, hassert, htable⟩
        unfold toRead
        omega
  · intro hsafe
    unfold ReadsSafely at hsafe
    by_cases hend : 0 < count.toNat ∧ (fs.fileTable fd).fdPos = nd.iSize
    · rw [if_pos hend] at hsafe
      obtain ⟨asked, hrun⟩ := fileRead_end buf hfd hnode hend.2 hend.1 hsafe
      exact ⟨-1, buf, _, hrun fs.disk, fun _ _ => ⟨rfl, rfl⟩, fun hnot => absurd hend hnot, rfl,
        fun disk' _ => ⟨buf, hrun disk', fun _ _ => rfl⟩⟩
    · rw [if_neg hend] at hsafe
      obtain ⟨hmem, hlt, hc⟩ := hsafe
      obtain ⟨buf', hrun, hbytes⟩ :=
        fileRead_ok buf count hfd hnode hb hsize hpos hmem hlt hend hc
      refine ⟨_, buf', _, hrun, fun h h' => absurd ⟨h, h'⟩ hend, fun _ => ⟨rfl, hbytes, ?_⟩, rfl,
        ?_⟩
      · rw [← readSize_end hpos hlt]
        simp [Fs.setPos]
      · intro disk' hown
        have hown : SameOwn fs nd disk' := hown
        let fs₂ : Fs := { fs with disk := disk' }
        obtain ⟨buf'', hrun', hbytes'⟩ : ∃ buf'', fileRead fs₂ fd buf count = .ok (_, buf'', _) ∧
            ∀ i < toRead nd (fs.fileTable fd).fdPos count,
              buf'' i = fileView disk' nd ((fs.fileTable fd).fdPos.toNat + i) :=
          fileRead_ok buf count hfd hnode (hown.has hb) hsize hpos hmem hlt hend hc
        refine ⟨buf'', hrun', ?_⟩
        intro i hi
        have hin := hc.inFile
        rw [hbytes' i (by omega), hbytes i (by omega)]
        exact hown.view hl hb (by omega)

theorem fileRead_right_iff_empty : (∃ result buf' fs',
    fileRead emptyFileFs 3 (fun _ => 0) 1 = .ok (result, buf', fs') ∧
      ReadsRight emptyFileFs 3 (inodeInit 5) (fun _ => 0) 1 result buf' fs') ↔
    ReadsSafely emptyFileFs 3 (inodeInit 5) 1 :=
  fileRead_right_iff emptyFileFs_layout rfl rfl emptyFileFs_ok.toHasBlocks (Nat.zero_le _)
    (Nat.zero_le _) (Nat.zero_le _) _ _

/-- A file of two bytes in block 613. -/
def twoBytes : Inode :=
  { inodeInit 5 with iSize := 2, iSectors := fun k => if k = 0 then 613 else 0 }

/-- It is open, and its first byte has been read. -/
def twoBytesFs : Fs :=
  { emptyFileFs with
    part := { emptyFileFs.part with
      blockBitmap := ⟨512, fun i => if i = 0 then 3 else 0⟩
      openInodes := [⟨1, twoBytes⟩] }
    fileTable := fun _ => ⟨1, 0, some 1⟩ }

theorem twoBytes_blocks (k : Nat) :
    blockAt twoBytesFs.disk twoBytes k = if k = 0 then 613 else 0 := by
  by_cases hk : k < 12
  · exact blockAt_direct hk
  · rw [blockAt_noTable rfl (by omega), if_neg (by omega)]

theorem twoBytes_has : HasBlocks twoBytesFs.disk twoBytesFs.part twoBytes 1 where
  inUse k hk := by
    rw [twoBytes_blocks, if_pos (by omega)]
    exact ⟨⟨by decide, by decide, by decide⟩, by decide⟩
  apart i hi k hk _ := by omega
  table h := absurd rfl h
  tableApart k hk := by
    rw [twoBytes_blocks, if_pos (by omega)]
    decide
  rest k hk := by rw [twoBytes_blocks, if_neg (by omega)]
  indirect := ⟨fun h => absurd rfl h, fun h => absurd h (by decide)⟩

/-- A read of as many bytes as 32 bits hold, from the second of two bytes, takes the sum for 0
and goes on behind the file. -/
theorem fileRead_wraps : HasBlocks twoBytesFs.disk twoBytesFs.part twoBytes 1 ∧
    ¬ ∃ result buf' fs', fileRead twoBytesFs 3 (fun _ => 0) 4294967295 = .ok (result, buf', fs') ∧
      ReadsRight twoBytesFs 3 twoBytes (fun _ => 0) 4294967295 result buf' fs' := by
  refine ⟨twoBytes_has, ?_⟩
  rintro ⟨result, buf', fs', hrun, hright⟩
  obtain ⟨hpast, hall⟩ : ¬ twoBytes.iSize < 1 + 4294967295 ∧
      readSize twoBytes 1 4294967295 = 4294967295 := by decide
  obtain ⟨hresult, -, -⟩ := hright.inside (by decide)
  obtain ⟨-, ⟨hend, -⟩ | hmem⟩ | ⟨-, hle, -⟩ := fileRead_cases rfl rfl hrun
  · exact hpast hend
  · exact hmem ⟨rfl, rfl⟩
  · have hone : toRead twoBytes 1 4294967295 = 1 := by decide
    change ((readSize twoBytes 1 4294967295).toNat : Int) ≤ result at hle
    change result = toRead twoBytes 1 4294967295 at hresult
    rw [hall] at hle
    rw [hresult, hone] at hle
    revert hle
    decide

end ZhuOS
