import ZhuOS.FileBlocks
import ZhuOS.Lib.BlockView

/-!
# The bytes of a file

The loops of `file_write` and `file_read` go from sector to sector. The first round of a
write reads its sector, since it may begin in the middle; the later ones begin at the start.
-/

namespace ZhuOS

open ByteMem

set_option maxRecDepth 2000

/-- Where a block lies on the disk. -/
def secAddr (blocks : Nat → UInt32) (k : Nat) : Nat := (blocks k).toNat * 512

/-- The addresses from block `lo` to block `top` are on the disk, and no two the same. -/
structure Reaches (blocks : Nat → UInt32) (lo top : Nat) : Prop where
  onDisk : ∀ k, lo ≤ k → k ≤ top → (blocks k).toNat ≤ max_lba
  apart : ∀ i, lo ≤ i → i ≤ top → ∀ k, lo ≤ k → k ≤ top → blocks i = blocks k → i = k

theorem Reaches.mono {blocks : Nat → UInt32} {lo lo' top : Nat} (h : Reaches blocks lo top)
    (hle : lo ≤ lo') : Reaches blocks lo' top := by
  constructor
  · intro k hk
    exact h.onDisk k (by omega)
  · intro i hi hi' k hk
    exact h.apart i (by omega) hi' k (by omega)

/-- Different blocks of a file lie apart. -/
theorem Reaches.sectors {blocks : Nat → UInt32} {lo top i k : Nat} (h : Reaches blocks lo top)
    (hi : lo ≤ i ∧ i ≤ top) (hk : lo ≤ k ∧ k ≤ top) (hne : i ≠ k) :
    secAddr blocks i + 512 ≤ secAddr blocks k ∨ secAddr blocks k + 512 ≤ secAddr blocks i :=
  sectors_apart fun he => hne (h.apart i hi.1 hi.2 k hk.1 hk.2 he)

/-! ## The loop of `file_write` -/

theorem chunkSize_spec (left off : Nat) (hleft : 0 < left) (hoff : off < 512) :
    0 < chunkSize left off ∧ chunkSize left off ≤ left ∧ off + chunkSize left off ≤ 512 ∧
      (chunkSize left off = left ∨ off + chunkSize left off = 512) := by
  unfold chunkSize
  dsimp only
  split <;> omega

/-- What the rounds that are left do. -/
structure WroteData (blocks : Nat → UInt32) (src : Bytes) (l l' : WriteLoop) : Prop where
  size : l'.iSize = l.iSize + l.sizeLeft
  written : l'.bytesWritten = l.bytesWritten + l.sizeLeft
  content : ∀ i, l.iSize / 512 * 512 ≤ i → i < l.iSize + l.sizeLeft →
    view 512 l'.disk (secAddr blocks) i =
      if l.iSize ≤ i then src (l.bytesWritten + (i - l.iSize))
      else view 512 l.disk (secAddr blocks) i
  others : ∀ a, (∀ k, l.iSize / 512 ≤ k → k ≤ (l.iSize + l.sizeLeft) / 512 →
    a < secAddr blocks k ∨ secAddr blocks k + 512 ≤ a) → l'.disk a = l.disk a

/-- One round, and what is left after it. -/
theorem WroteData.cons {blocks : Nat → UInt32} {src : Bytes} {l l₁ l' : WriteLoop} {chunk : Nat}
    {io : Bytes} (hr : Reaches blocks (l.iSize / 512) ((l.iSize + l.sizeLeft) / 512))
    (hfit : l.iSize % 512 + chunk ≤ 512) (hchunk : chunk ≤ l.sizeLeft)
    (hold : ∀ r < l.iSize % 512, io r = l.disk (secAddr blocks (l.iSize / 512) + r))
    (hdisk : l₁.disk = blit l.disk (secAddr blocks (l.iSize / 512))
      (blit io (l.iSize % 512) src l.bytesWritten chunk) 0 512)
    (hsize : l₁.iSize = l.iSize + chunk) (hwritten : l₁.bytesWritten = l.bytesWritten + chunk)
    (hleft : l₁.sizeLeft = l.sizeLeft - chunk) (h : WroteData blocks src l₁ l') :
    WroteData blocks src l l' := by
  have hsum : l₁.iSize + l₁.sizeLeft = l.iSize + l.sizeLeft := by omega
  have hround : ∀ i, l.iSize / 512 * 512 ≤ i → i < l.iSize + chunk →
      view 512 l₁.disk (secAddr blocks) i =
        if l.iSize ≤ i then src (l.bytesWritten + (i - l.iSize))
        else view 512 l.disk (secAddr blocks) i := by
    intro i hlo hi
    rw [hdisk]
    apply view_write (by decide) hfit hold hi
    intro hne
    omega
  constructor
  · rw [h.size, hsum]
  · rw [h.written]
    omega
  · intro i hlo hi
    by_cases hin : l₁.iSize / 512 * 512 ≤ i
    · rw [h.content i hin (by omega)]
      by_cases hnew : l₁.iSize ≤ i
      · have hidx : l₁.bytesWritten + (i - l₁.iSize) = l.bytesWritten + (i - l.iSize) := by omega
        rw [if_pos hnew, if_pos (by omega), hidx]
      · rw [if_neg hnew]
        exact hround i hlo (by omega)
    · -- a block that is done with
      rw [← hround i hlo (by omega)]
      apply view_congr (by decide) rfl
      intro a hlo' hhi'
      apply h.others
      intro k hk hk'
      rw [hsum] at hk'
      have hsec := hr.sectors (i := i / 512) (k := k) ⟨by omega, by omega⟩ ⟨by omega, by omega⟩
        (by omega)
      omega
  · intro a ha
    rw [h.others a, hdisk]
    · apply blit_out
      exact ha _ (Nat.le_refl _) (by omega)
    · intro k hk hk'
      exact ha k (by omega) (by omega)

/-- The loop writes all there is. -/
theorem writeLoop_ok {blocks : Nat → UInt32} {src : Bytes} {count : Nat} (fuel : Nat)
    {l : WriteLoop} (hsum : l.bytesWritten + l.sizeLeft = count) (hfuel : l.sizeLeft < fuel)
    (hend : l.iSize + l.sizeLeft < 140 * 512)
    (hr : Reaches blocks (l.iSize / 512) ((l.iSize + l.sizeLeft) / 512))
    (hfirst : l.firstWriteBlock = true ∨ l.sizeLeft = 0 ∨ l.iSize % 512 = 0) :
    ∃ l', writeLoop blocks src count fuel l = .ok l' ∧ WroteData blocks src l l' := by
  induction fuel generalizing l with
  | zero => omega
  | succ fuel ih =>
    by_cases hz : l.sizeLeft = 0
    · refine ⟨l, ?_, ?_, ?_, ?_, fun _ _ => rfl⟩
      · rw [writeLoop, if_neg (by omega)]
        rfl
      · omega
      · omega
      · intro i _ hi
        rw [if_neg (by omega)]
    · obtain ⟨hpos, hle, hfit, hlast⟩ :=
        chunkSize_spec l.sizeLeft (l.iSize % 512) (by omega)
          (Nat.mod_lt _ (by decide))
      have hlba := hr.onDisk (l.iSize / 512) (Nat.le_refl _) (by omega)
      generalize hchunk : chunkSize l.sizeLeft (l.iSize % 512) = chunk at hpos hle hfit hlast
      have hu : u32 (l.iSize + chunk) = l.iSize + chunk := u32_eq (by omega)
      -- the sector as it is before the new bytes go in
      obtain ⟨io, hold, hround⟩ : ∃ io : Bytes,
          (∀ r < l.iSize % 512, io r = l.disk (secAddr blocks (l.iSize / 512) + r)) ∧
          writeLoop blocks src count (fuel + 1) l = writeLoop blocks src count fuel {
            disk := blit l.disk (secAddr blocks (l.iSize / 512))
              (blit io (l.iSize % 512) src l.bytesWritten chunk) 0 512
            iSize := l.iSize + chunk
            fdPos := u32 (l.fdPos + chunk)
            bytesWritten := l.bytesWritten + chunk
            sizeLeft := l.sizeLeft - chunk
            firstWriteBlock := false
            ioBuf := blit io (l.iSize % 512) src l.bytesWritten chunk } := by
        rw [writeLoop, if_pos (by omega), if_neg (by omega)]
        cases hf : l.firstWriteBlock with
        | true =>
          refine ⟨blit (fill l.ioBuf 0 512 0) 0 l.disk (secAddr blocks (l.iSize / 512)) 512, ?_, ?_⟩
          · intro r hr
            rw [blit_in (by omega) (by omega), Nat.sub_zero]
          · simp only [↓reduceIte, ideRead_one hlba, ok_bind, hchunk, hu, ideWrite_one hlba]
            rfl
        | false =>
          have hstart : l.iSize % 512 = 0 := by
            rcases hfirst with h | h | h
            · exact absurd (hf.symm.trans h) Bool.false_ne_true
            · omega
            · exact h
          refine ⟨fill l.ioBuf 0 512 0, ?_, ?_⟩
          · intro r hr
            omega
          · simp only [Bool.false_eq_true, ↓reduceIte, hchunk, hu, ideWrite_one hlba, ok_bind]
            rfl
      have hleft : l.iSize + chunk + (l.sizeLeft - chunk) = l.iSize + l.sizeLeft := by omega
      rw [hround]
      generalize hl₁ : WriteLoop.mk .. = l₁
      have hnext : l₁.iSize = l.iSize + chunk ∧ l₁.bytesWritten = l.bytesWritten + chunk ∧
          l₁.sizeLeft = l.sizeLeft - chunk := by
        rw [← hl₁]
        exact ⟨rfl, rfl, rfl⟩
      obtain ⟨hsize, hwritten, hsizeLeft⟩ := hnext
      obtain ⟨l', hrun, h⟩ := ih (l := l₁) (by omega) (by omega) (by omega)
        (by
          rw [hsize, hsizeLeft, hleft]
          exact hr.mono (Nat.div_le_div_right (by omega)))
        (by omega)
      refine ⟨l', hrun, h.cons hr hfit hle hold ?_ hsize hwritten hsizeLeft⟩
      rw [← hl₁]

/-! ## The loop of `file_read` -/

/-- The loop reads all there is. -/
theorem readLoop_ok {disk : Bytes} {blocks : Nat → UInt32} {size : Nat} (fuel : Nat) {l : ReadLoop}
    (hsum : l.bytesRead + l.sizeLeft = size) (hfuel : l.sizeLeft < fuel)
    (hend : l.fdPos + l.sizeLeft < 140 * 512)
    (hdisk : ∀ k, l.fdPos / 512 ≤ k → k * 512 < l.fdPos + l.sizeLeft →
      (blocks k).toNat ≤ max_lba) :
    ∃ l', readLoop disk blocks size fuel l = .ok l' ∧ l'.bytesRead = size ∧
      l'.fdPos = l.fdPos + l.sizeLeft ∧ ∀ i < size, l'.buf i =
        if l.bytesRead ≤ i then view 512 disk (secAddr blocks) (l.fdPos + (i - l.bytesRead))
        else l.buf i := by
  induction fuel generalizing l with
  | zero => omega
  | succ fuel ih =>
    by_cases hz : l.sizeLeft = 0
    · refine ⟨l, ?_, by omega, by omega, ?_⟩
      · rw [readLoop, if_neg (by omega)]
        rfl
      · intro i hi
        rw [if_neg (by omega)]
    · obtain ⟨hpos, hle, hfit, hlast⟩ :=
        chunkSize_spec l.sizeLeft (l.fdPos % 512) (by omega)
          (Nat.mod_lt _ (by decide))
      have hlba := hdisk (l.fdPos / 512) (Nat.le_refl _) (by omega)
      generalize hchunk : chunkSize l.sizeLeft (l.fdPos % 512) = chunk at hpos hle hfit hlast
      have hu : u32 (l.fdPos + chunk) = l.fdPos + chunk := u32_eq (by omega)
      let sector := blit (fun _ => 0) 0 disk ((blocks (l.fdPos / 512)).toNat * 512) 512
      let l₁ : ReadLoop :=
        { buf := blit l.buf l.bytesRead sector (l.fdPos % 512) chunk
          fdPos := l.fdPos + chunk
          bytesRead := l.bytesRead + chunk
          sizeLeft := l.sizeLeft - chunk }
      obtain ⟨l', hrun, hread, hposn, hbuf⟩ := ih (l := l₁) (by dsimp only [l₁]; omega)
        (by dsimp only [l₁]; omega) (by dsimp only [l₁]; omega)
        (by
          dsimp only [l₁]
          intro k hk hk'
          exact hdisk k (Nat.le_trans (Nat.div_le_div_right (by omega)) hk) (by omega))
      refine ⟨l', ?_, hread, by rw [hposn]; dsimp only [l₁]; omega, ?_⟩
      · rw [readLoop, if_pos (by omega), if_neg (by omega)]
        simp only [hchunk, ideRead_one hlba, ok_bind, hu]
        exact hrun
      · intro i hi
        rw [hbuf i hi]
        dsimp only [l₁]
        by_cases hold : l.bytesRead ≤ i
        · rw [if_pos hold]
          by_cases hnew : l.bytesRead + chunk ≤ i
          · have hidx : l.fdPos + chunk + (i - (l.bytesRead + chunk)) =
                l.fdPos + (i - l.bytesRead) := by omega
            rw [if_pos hnew, hidx]
          · rw [if_neg hnew, blit_in hold (by omega), ← view_read hfit (by omega)]
            dsimp only [sector]
            rw [blit_in (by omega) (by omega), Nat.sub_zero]
            rfl
        · rw [if_neg hold, if_neg (by omega), blit_out (by omega)]

end ZhuOS
