import ZhuOS.OutOfPages
import ZhuOS.BlockMap

/-!
# What `bitmap_scan` finds, and what its callers do when it finds nothing

A map that has room gets its first run. A map that has none is reported as such
only when it holds a free bit and no free stretch at its very end is one bit
short: a full map fails the `ASSERT`, and the last loop tests one bit too many.
-/

namespace ZhuOS

open PackedBits

/-- With fewer than 2^31 bits the index is no negative `int`. -/
theorem bitmapScan_first {b : Bitmap} {cnt : Nat} (hsize : b.size < 2 ^ 31) (hcnt : 1 ≤ cnt)
    (hrun : ∃ s, ClearRun b.bits b.size s cnt) :
    ∃ s < 2 ^ 31, bitmapScan b cnt = .ok (some s) ∧ LeastRun b.bits b.size s cnt := by
  obtain ⟨t, ht⟩ := hrun
  obtain ⟨s, hs⟩ := exists_leastRun ht
  have hin := hs.run.inside
  exact ⟨s, by omega, bitmapScan_least hcnt hs, hs⟩

/-- A run of four that spans two bytes, behind a run of two in the first. -/
theorem bitmapScan_first_spanning :
    let b : Bitmap := ⟨2, fun k => if k = 0 then 0x33 else 0xfc⟩
    ∃ s < 2 ^ 31, bitmapScan b 4 = .ok (some s) ∧ LeastRun b.bits b.size s 4 :=
  bitmapScan_first (by decide) (by decide) ⟨6, by decide, by
    intro j hj hlt
    interval_cases j <;> decide⟩

namespace Bitmap

/-- The same map, whatever follows it in memory. -/
structure SameMap (b b' : Bitmap) : Prop where
  len : b'.btmpBytesLen = b.btmpBytesLen
  bytes : ∀ k < b.btmpBytesLen, b'.bits k = b.bits k

theorem SameMap.refl (b : Bitmap) : b.SameMap b := ⟨rfl, fun _ _ => rfl⟩

theorem SameMap.size {b b' : Bitmap} (h : b.SameMap b') : b'.size = b.size := by
  rw [Bitmap.size, h.len, Bitmap.size]

theorem SameMap.bit {b b' : Bitmap} (h : b.SameMap b') {i : Nat} (hi : i < b.size) :
    b'.bit i = b.bit i := by
  unfold Bitmap.size at hi
  exact bit_congr (h.bytes (i / 8) (by omega))

/-- A run inside the map is a run of both. -/
theorem SameMap.clearRun {b b' : Bitmap} (h : b.SameMap b') {limit s n : Nat}
    (hrun : ClearRun b'.bits limit s n) (hin : s + n ≤ b.size) : ClearRun b.bits b.size s n :=
  ⟨hin, fun j hj hlt => (h.bit (by omega)).symm.trans (hrun.clear j hj hlt)⟩

/-- `b` before memory whose bytes are all zero. -/
def beforeZeros (b : Bitmap) : Bitmap :=
  { b with bits := fun k => if k < b.btmpBytesLen then b.bits k else 0 }

theorem sameMap_beforeZeros (b : Bitmap) : b.SameMap b.beforeZeros :=
  ⟨rfl, fun _ hk => if_pos hk⟩

theorem beforeZeros_after (b : Bitmap) : b.beforeZeros.bit b.size = false := by
  have hout : ¬ b.size / 8 < b.btmpBytesLen := by unfold Bitmap.size; omega
  simp [Bitmap.bit, PackedBits.bit, beforeZeros, hout]

end Bitmap

/-- A map without `cnt` free bits in a row is reported as `-1`, by the scan and by
the callers that ask it for as many. -/
structure ReportsExhausted (b : Bitmap) (cnt : Nat) : Prop where
  scan : ∀ b', b.SameMap b' → bitmapScan b' cnt = .ok none
  vaddrGet : ∀ (m : Memory) (pf : PoolFlags), b.SameMap (m.vaddrPool pf).vaddrBitmap →
    vaddrGet m pf cnt = .ok (none, m)
  palloc : cnt = 1 → ∀ p : Pool, b.SameMap p.poolBitmap → palloc p = .ok (none, p)
  inodeBitmapAlloc : cnt = 1 → ∀ part : Partition, b.SameMap part.inodeBitmap →
    inodeBitmapAlloc part = .ok (none, part)
  blockBitmapAlloc : cnt = 1 → ∀ part : Partition, b.SameMap part.blockBitmap →
    blockBitmapAlloc part = .ok (none, part)

/-- The callers return `-1` once the scan does. -/
theorem reportsExhausted_of_scan {b : Bitmap} {cnt : Nat}
    (h : ∀ b', b.SameMap b' → bitmapScan b' cnt = .ok none) : ReportsExhausted b cnt where
  scan := h
  vaddrGet m pf hb := by simp only [vaddrGet, h _ hb, ok_bind]; rfl
  palloc h1 p hb := by subst h1; simp only [palloc, h _ hb, ok_bind]; rfl
  inodeBitmapAlloc h1 part hb := by
    subst h1
    simp only [inodeBitmapAlloc, h _ hb, ok_bind]
    rfl
  blockBitmapAlloc h1 part hb := by
    subst h1
    simp only [blockBitmapAlloc, h _ hb, ok_bind]
    rfl

/-- A full map fails the `ASSERT` of every scan. -/
theorem bitmapScan_full {b : Bitmap} (cnt : Nat) (h : ¬ ∃ i < b.size, b.bit i = false) :
    bitmapScan b cnt = .error .panic := by
  rw [← bitmapScanIf_debug, bitmapScanIf_full true cnt h]
  rfl

/-- A free stretch one bit short at the end of the map counts the bit after it. -/
theorem scan_past_end {b : Bitmap} {cnt : Nat} (hcnt : 2 ≤ cnt)
    (hend : ClearRun b.bits b.size (b.size - (cnt - 1)) (cnt - 1)) :
    bitmapScan b.beforeZeros cnt ≠ .ok none := by
  have hin := hend.inside
  have hsame := b.sameMap_beforeZeros
  have hfree : ∃ i < b.beforeZeros.size, b.beforeZeros.bit i = false := by
    refine ⟨b.size - (cnt - 1), by rw [hsame.size]; omega, ?_⟩
    rw [hsame.bit (by omega)]
    exact hend.clear _ (Nat.le_refl _) (by omega)
  obtain ⟨r, hr, hfound⟩ := bitmapScanIf_free true (by omega : 1 ≤ cnt) hfree
  rw [← bitmapScanIf_debug, hr]
  rintro ⟨rfl⟩
  -- the scan looks at one bit more than the map has, and that bit is zero
  refine hfound (b.size - (cnt - 1)) ⟨?_, fun j hj hlt => ?_⟩
  · rw [scanLimit, if_neg (by omega), hsame.size]
    omega
  · by_cases hj' : j < b.size
    · exact (hsame.bit hj').trans (hend.clear j hj (by omega))
    · exact (show j = b.size by omega) ▸ b.beforeZeros_after

/-- What a scan of an exhausted map needs to say so. -/
theorem reportsExhausted_iff {b : Bitmap} {cnt : Nat} (hcnt : 1 ≤ cnt)
    (hnone : ∀ s, ¬ ClearRun b.bits b.size s cnt) :
    ReportsExhausted b cnt ↔ (∃ i < b.size, b.bit i = false) ∧
      ¬ ClearRun b.bits b.size (b.size - (cnt - 1)) (cnt - 1) := by
  constructor
  · intro h
    have hfree : ∃ i < b.size, b.bit i = false := by
      by_contra hfull
      have hscan := h.scan b (.refl b)
      rw [bitmapScan_full cnt hfull] at hscan
      cases hscan
    refine ⟨hfree, fun hend => ?_⟩
    rcases Nat.lt_or_ge 1 cnt with h2 | h1
    · exact scan_past_end h2 hend (h.scan _ b.sameMap_beforeZeros)
    · obtain ⟨i, hi, hbit⟩ := hfree
      exact hnone i ⟨by omega, fun j hj hlt => (show j = i by omega) ▸ hbit⟩
  · rintro ⟨⟨i, hi, hbit⟩, hend⟩
    have hne : cnt ≠ 1 := fun h1 =>
      hnone i ⟨by omega, fun j hj hlt => (show j = i by omega) ▸ hbit⟩
    refine reportsExhausted_of_scan fun b' hb => ?_
    have hfree : ∃ i < b'.size, b'.bit i = false :=
      ⟨i, by rwa [hb.size], (hb.bit hi).trans hbit⟩
    obtain ⟨r, hr, hfound⟩ := bitmapScanIf_free true hcnt hfree
    rw [← bitmapScanIf_debug, hr]
    cases r with
    | none => rfl
    | some s =>
      simp only [scanLimit, if_neg hne, hb.size] at hfound
      have hin := hfound.inside
      by_cases hinside : s + cnt ≤ b.size
      · exact absurd (hb.clearRun hfound hinside) (hnone s)
      · -- the run takes in the bit after the map
        have hs : b.size - (cnt - 1) = s := by omega
        refine absurd ⟨by omega, fun j hj hlt => ?_⟩ hend
        exact (hb.bit (by omega)).symm.trans (hfound.clear j (by omega) (by omega))

/-- Two bytes with single free bits, for a run of two. -/
theorem reportsExhausted_scattered :
    let b : Bitmap := ⟨2, fun k => if k = 0 then 0xdf else 0xfb⟩
    ReportsExhausted b 2 ↔ (∃ i < b.size, b.bit i = false) ∧
      ¬ ClearRun b.bits b.size (b.size - (2 - 1)) (2 - 1) := by
  refine reportsExhausted_iff (by decide) fun s hs => ?_
  have hin := hs.inside
  have hlt : s < 15 := by simp only [Bitmap.size] at hin; omega
  have h0 := hs.clear s (Nat.le_refl _) (by omega)
  have h1 := hs.clear (s + 1) (by omega) (by omega)
  revert h0 h1
  clear hin hs
  revert s
  decide

/-- A full map, and one whose last bit alone is free: with a zero byte after it a
scan for two bits finds them. -/
theorem exhausted_scan_fails :
    let full : Bitmap := ⟨1, fun _ => 0xff⟩
    let tail (after : UInt8) : Bitmap := ⟨1, fun k => if k = 0 then 0x7f else after⟩
    (∀ s, ¬ ClearRun full.bits full.size s 1) ∧ ¬ ReportsExhausted full 1 ∧
      palloc ⟨full, USED_MEM, 0x8000, 0⟩ = .error .panic ∧
      (∀ s, ¬ ClearRun (tail 0).bits (tail 0).size s 2) ∧ ¬ ReportsExhausted (tail 0) 2 ∧
      bitmapScan (tail 0) 2 = .ok (some 7) ∧ bitmapScan (tail 0xff) 2 = .ok none := by
  intro full tail
  have hfull : ∀ s < 8, full.bit s = true := by decide
  have htaken : ∀ s < 7, (tail 0).bit s = true := by decide
  have hscan : bitmapScan full 1 ≠ .ok none := by decide
  have htail : bitmapScan (tail 0) 2 ≠ .ok none := by decide
  refine ⟨fun s hs => ?_, fun h => hscan (h.scan _ (.refl _)), rfl, fun s hs => ?_,
    fun h => htail (h.scan _ (.refl _)), by decide, by decide⟩
  · have hin : s + 1 ≤ 8 := hs.inside
    have := hs.clear s (Nat.le_refl _) (by omega)
    rw [Bool.eq_false_iff] at this
    exact this (hfull s (by omega))
  · have hin : s + 2 ≤ 8 := hs.inside
    have := hs.clear s (Nat.le_refl _) (by omega)
    rw [Bool.eq_false_iff] at this
    exact this (htaken s (by omega))

end ZhuOS
