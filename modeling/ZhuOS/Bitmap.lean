import Mathlib.Data.Finset.Card
import Mathlib.Data.Finset.Range
import ZhuOS.Lib.PackedBits
import ZhuOS.Machine

/-!
# `lib/kernel/bitmap.c`

A bitmap is a length in bytes and the memory its pointer leads to. `bits` is
total: the bytes from `btmpBytesLen` on are whatever follows the map, and
`bitmapScan` with a count above one does look at the first bit of them.
-/

namespace ZhuOS

open PackedBits

structure Bitmap where
  btmpBytesLen : Nat
  bits : Nat → UInt8

namespace Bitmap

/-- The number of bits the map holds. -/
def size (b : Bitmap) : Nat := b.btmpBytesLen * 8

def bit (b : Bitmap) (i : Nat) : Bool := PackedBits.bit b.bits i

/-- The free bits of the map. -/
def free (b : Bitmap) : Finset Nat := {i ∈ Finset.range b.size | b.bit i = false}

theorem mem_free {b : Bitmap} {i : Nat} : i ∈ b.free ↔ i < b.size ∧ b.bit i = false := by
  simp [free]

theorem free_pos {b : Bitmap} : 0 < b.free.card ↔ ∃ i < b.size, b.bit i = false := by
  simp [Finset.card_pos, Finset.Nonempty, mem_free]

end Bitmap

def bitmapInit (btmp : Bitmap) : Bitmap :=
  { btmp with bits := fun i => if i < btmp.btmpBytesLen then 0 else btmp.bits i }

def bitmapScanTest (btmp : Bitmap) (bitIdx : Nat) : Bool :=
  btmp.bits (bitIdx / 8) &&& mask (bitIdx % 8) != 0

/-- The first loop of `bitmap_scan`: `left` bytes remain before the length. -/
def scanByte (bits : Nat → UInt8) : (left idxByte : Nat) → Nat
  | 0, idxByte => idxByte
  | left + 1, idxByte =>
    if bits idxByte = 0xff then scanByte bits left (idxByte + 1) else idxByte

/-- The second loop. `(uint8_t)(1 << 8)` is 0, so it stops at bit 8 at the latest. -/
def scanBit (byte : UInt8) : (left idxBit : Nat) → Nat
  | 0, idxBit => idxBit
  | left + 1, idxBit =>
    if mask idxBit &&& byte != 0 then scanBit byte left (idxBit + 1) else idxBit

/-- The last loop: `while (bit_left-- > 0)`. -/
def scanRun (btmp : Bitmap) (cnt : Nat) : (bitLeft nextBit count : Nat) → Option Nat
  | 0, _, _ => none
  | bitLeft + 1, nextBit, count =>
    let count := if bitmapScanTest btmp nextBit then 0 else count + 1
    if count = cnt then some (nextBit + 1 - cnt)
    else scanRun btmp cnt bitLeft (nextBit + 1) count

/-- The index of `cnt` free bits in a row; `none` is the source's `-1`. -/
def bitmapScan (btmp : Bitmap) (cnt : Nat) : Except Fault (Option Nat) := do
  let idxByte := scanByte btmp.bits btmp.btmpBytesLen 0
  ASSERT (idxByte < btmp.btmpBytesLen)
  if idxByte = btmp.btmpBytesLen then
    return none
  let idxBit := scanBit (btmp.bits idxByte) 8 0
  let bitIdxStart := idxByte * 8 + idxBit
  if cnt = 1 then
    return some bitIdxStart
  return scanRun btmp cnt (btmp.btmpBytesLen * 8 - bitIdxStart) (bitIdxStart + 1) 1

/-- `value` is 0 or 1 at every call, which the `ASSERT` of the source checks. -/
def bitmapSet (btmp : Bitmap) (bitIdx : Nat) (value : Bool) : Bitmap :=
  { btmp with bits := if value then turnOn btmp.bits bitIdx else turnOff btmp.bits bitIdx }

@[simp] theorem bitmapSet_len (b : Bitmap) (i : Nat) (v : Bool) :
    (bitmapSet b i v).btmpBytesLen = b.btmpBytesLen := rfl

@[simp] theorem bitmapSet_size (b : Bitmap) (i : Nat) (v : Bool) :
    (bitmapSet b i v).size = b.size := rfl

@[simp] theorem bitmapInit_size (b : Bitmap) : (bitmapInit b).size = b.size := rfl

/-- `bitmap_set` changes the bit it names and no other. -/
theorem bitmapSet_bit (b : Bitmap) (i j : Nat) (v : Bool) :
    (bitmapSet b i v).bit j = if j = i then v else b.bit j := by
  cases v
  · simp only [Bitmap.bit, bitmapSet, Bool.false_eq_true, ↓reduceIte, bit_turnOff]
    split <;> simp_all
  · simp only [Bitmap.bit, bitmapSet, ↓reduceIte, bit_turnOn]
    split <;> simp_all

theorem free_bitmapSet_true (b : Bitmap) (i : Nat) :
    (bitmapSet b i true).free = b.free.erase i := by
  ext j
  simp only [Bitmap.mem_free, bitmapSet_size, bitmapSet_bit, Finset.mem_erase]
  by_cases hj : j = i <;> simp [hj]

theorem card_free_bitmapSet_true {b : Bitmap} {i : Nat} (h : i < b.size) (hf : b.bit i = false) :
    (bitmapSet b i true).free.card + 1 = b.free.card := by
  rw [free_bitmapSet_true]
  exact Finset.card_erase_add_one (Bitmap.mem_free.mpr ⟨h, hf⟩)

theorem bitmapInit_bit (b : Bitmap) {i : Nat} (h : i < b.size) : (bitmapInit b).bit i = false := by
  have hb : i / 8 < b.btmpBytesLen := by unfold Bitmap.size at h; omega
  simp [Bitmap.bit, PackedBits.bit, bitmapInit, hb]

theorem bitmapScanTest_bit (b : Bitmap) (i : Nat) : bitmapScanTest b i = b.bit i :=
  and_mask_ne_zero _ (Nat.mod_lt _ (by decide))

/-- Every byte the first loop passes over is full. -/
theorem scanByte_spec (bits : Nat → UInt8) (left idx : Nat) :
    let r := scanByte bits left idx
    idx ≤ r ∧ r ≤ idx + left ∧ (∀ k, idx ≤ k → k < r → bits k = 0xff) ∧
      (r = idx + left ∨ bits r ≠ 0xff) := by
  induction left generalizing idx with
  | zero =>
    exact ⟨Nat.le_refl _, Nat.le_refl _, fun k _ _ => by simp [scanByte] at *; omega, .inl rfl⟩
  | succ left ih =>
    simp only [scanByte]
    split
    · rename_i hfull
      obtain ⟨hlo, hhi, hall, hend⟩ := ih (idx + 1)
      refine ⟨by omega, by omega, ?_,
        by rcases hend with h | h <;> [left; right] <;> [omega; exact h]⟩
      intro k hk hr
      by_cases he : k = idx
      · exact he ▸ hfull
      · exact hall k (by omega) hr
    · rename_i hfree
      exact ⟨Nat.le_refl _, by omega, fun k _ _ => by omega, .inr hfree⟩

/-- The second loop stops at the first zero bit of the byte. -/
theorem scanBit_spec (bits : Nat → UInt8) (k left idx : Nat) (hsum : idx + left = 8) :
    let r := scanBit (bits k) left idx
    idx ≤ r ∧ r ≤ 8 ∧ (∀ j, idx ≤ j → j < r → PackedBits.bit bits (k * 8 + j) = true) ∧
      (r = 8 ∨ PackedBits.bit bits (k * 8 + r) = false) := by
  induction left generalizing idx with
  | zero =>
    exact ⟨Nat.le_refl _, by simp [scanBit]; omega, fun j _ _ => by simp [scanBit] at *; omega,
      .inl (by simp [scanBit]; omega)⟩
  | succ left ih =>
    have hbit : (mask idx &&& bits k != 0) = PackedBits.bit bits (k * 8 + idx) := by
      rw [UInt8.and_comm, and_mask_ne_zero _ (by omega), PackedBits.bit,
        show (k * 8 + idx) / 8 = k by omega, show (k * 8 + idx) % 8 = idx by omega]
    simp only [scanBit, hbit]
    split
    · rename_i hset
      obtain ⟨hlo, hhi, hall, hend⟩ := ih (idx + 1) (by omega)
      refine ⟨by omega, hhi, ?_, hend⟩
      intro j hj hr
      by_cases he : j = idx
      · exact he ▸ hset
      · exact hall j (by omega) hr
    · rename_i hclear
      exact ⟨Nat.le_refl _, by omega, fun j _ _ => by omega, .inr (by simpa using hclear)⟩

/-- The first two loops together reach the first free bit of a map that has one. -/
theorem scan_first {b : Bitmap} {i : Nat} (hi : i < b.size) (hfree : b.bit i = false)
    (hfirst : ∀ j < i, b.bit j = true) :
    let r := scanByte b.bits b.btmpBytesLen 0
    r < b.btmpBytesLen ∧ r * 8 + scanBit (b.bits r) 8 0 = i := by
  intro r
  obtain ⟨-, hhi, hall, hend⟩ := scanByte_spec b.bits b.btmpBytesLen 0
  have hnotfull : b.bits (i / 8) ≠ 0xff := by
    intro hf
    have := (byte_full_iff b.bits (i / 8)).mp hf (i % 8) (Nat.mod_lt _ (by decide))
    rw [show i / 8 * 8 + i % 8 = i by omega] at this
    simp [Bitmap.bit, this] at hfree
  have hle : r ≤ i / 8 := by
    by_contra hlt
    exact hnotfull (hall _ (Nat.zero_le _) (by omega))
  have hsize : i / 8 < b.btmpBytesLen := by unfold Bitmap.size at hi; omega
  have hstop : b.bits r ≠ 0xff := by
    rcases hend with h | h
    · omega
    · exact h
  obtain ⟨-, hb8, hset, hclear⟩ := scanBit_spec b.bits r 8 0 rfl
  generalize scanBit (b.bits r) 8 0 = k at hb8 hset hclear ⊢
  have hclear : PackedBits.bit b.bits (r * 8 + k) = false ∧ k < 8 := by
    rcases hclear with h | h
    · exact absurd ((byte_full_iff b.bits r).mpr fun j hj => hset j (Nat.zero_le _) (by omega))
        hstop
    · refine ⟨h, ?_⟩
      by_contra hk
      exact hstop ((byte_full_iff b.bits r).mpr fun j hj => hset j (Nat.zero_le _) (by omega))
  refine ⟨by omega, ?_⟩
  have hge : i ≤ r * 8 + k := by
    by_contra hlt
    have := hfirst (r * 8 + k) (by omega)
    simp [Bitmap.bit, hclear.1] at this
  have hle' : r * 8 + k ≤ i := by
    by_contra hlt
    have : r = i / 8 := by omega
    have := hset (i % 8) (Nat.zero_le _) (by omega)
    rw [show r * 8 + i % 8 = i by omega] at this
    simp [Bitmap.bit, this] at hfree
  omega

/-- The last loop, `count` free bits into a stretch that ends before `nextBit`,
returns the first run when none starts before that stretch. -/
theorem scanRun_least {b : Bitmap} {cnt s limit : Nat} (hs : LeastRun b.bits limit s cnt)
    (left nextBit count : Nat) (hcount : count < cnt) (hle : count ≤ nextBit)
    (hclear : ∀ j, nextBit - count ≤ j → j < nextBit → b.bit j = false)
    (hstart : nextBit - count ≤ s) (hroom : s + cnt ≤ nextBit + left) :
    scanRun b cnt left nextBit count = some s := by
  induction left generalizing nextBit count with
  | zero => omega
  | succ left ih =>
    simp only [scanRun, bitmapScanTest_bit]
    cases hb : b.bit nextBit with
    | true =>
      have hpast : nextBit < s := by
        by_contra hn
        have := hs.run.clear nextBit (by omega) (by omega)
        simp [Bitmap.bit, this] at hb
      simp only [↓reduceIte, show ¬ 0 = cnt by omega]
      exact ih (nextBit + 1) 0 (by omega) (by omega) (fun j hj hlt => by omega) (by omega)
        (by omega)
    | false =>
      have hclear' : ∀ j, nextBit - count ≤ j → j < nextBit + 1 → b.bit j = false := by
        intro j hj hlt
        by_cases he : j = nextBit
        · exact he ▸ hb
        · exact hclear j hj (by omega)
      simp only [Bool.false_eq_true, ↓reduceIte]
      split
      · rename_i hcnt
        have hrun : ClearRun b.bits limit (nextBit - count) cnt := by
          have := hs.run.inside
          exact ⟨by omega, fun j hj hlt => hclear' j hj (by omega)⟩
        have := hs.least _ hrun
        exact congrArg some (by omega)
      · exact ih (nextBit + 1) (count + 1) (by omega) (by omega)
          (fun j hj hlt => hclear' j (by omega) hlt) (by omega) (by omega)

/-- `bitmap_scan` finds the first run of `cnt` free bits when there is one. -/
theorem bitmapScan_least {b : Bitmap} {cnt s : Nat} (hcnt : 1 ≤ cnt)
    (hs : LeastRun b.bits b.size s cnt) : bitmapScan b cnt = .ok (some s) := by
  classical
  have hin := hs.run.inside
  have hex : ∃ i, i < b.size ∧ b.bit i = false :=
    ⟨s, by omega, hs.run.clear s (Nat.le_refl _) (by omega)⟩
  obtain ⟨hi, hfree⟩ := Nat.find_spec hex
  have hfirst : ∀ j < Nat.find hex, b.bit j = true := by
    intro j hj
    have := Nat.find_min hex hj
    simpa [show j < b.size by omega] using this
  have hle : Nat.find hex ≤ s :=
    Nat.find_min' hex ⟨by omega, hs.run.clear s (Nat.le_refl _) (by omega)⟩
  generalize Nat.find hex = i at hi hfree hfirst hle
  obtain ⟨hbyte, hpos⟩ := scan_first hi hfree hfirst
  have hne : scanByte b.bits b.btmpBytesLen 0 ≠ b.btmpBytesLen := by omega
  simp only [bitmapScan, ASSERT_true hbyte, ok_bind, hne, ↓reduceIte, hpos]
  by_cases h1 : cnt = 1
  · subst h1
    have hrun : ClearRun b.bits b.size i 1 :=
      ⟨by omega, fun j hj hlt => (show j = i by omega) ▸ hfree⟩
    have := hs.least i hrun
    simp only [↓reduceIte]
    exact congrArg (fun n => Except.ok (some n)) (show i = s by omega)
  · simp only [h1, ↓reduceIte]
    have hr : scanRun b cnt (b.btmpBytesLen * 8 - i) (i + 1) 1 = some s := by
      refine scanRun_least hs _ _ _ (by omega) (by omega) (fun j hj hlt => ?_) (by omega) ?_
      · exact (show j = i by omega) ▸ hfree
      · unfold Bitmap.size at hin hi
        omega
    rw [hr]
    rfl

/-- With one free bit, a scan for one bit finds the first. -/
theorem bitmapScan_one {b : Bitmap} (h : ∃ i < b.size, b.bit i = false) :
    ∃ i, bitmapScan b 1 = .ok (some i) ∧ i < b.size ∧ b.bit i = false := by
  obtain ⟨i, hi, hfree⟩ := h
  have hrun : ClearRun b.bits b.size i 1 :=
    ⟨by omega, fun j hj hlt => (show j = i by omega) ▸ hfree⟩
  obtain ⟨s, hs⟩ := exists_leastRun hrun
  have hin := hs.run.inside
  exact ⟨s, bitmapScan_least (Nat.le_refl _) hs, by omega,
    hs.run.clear s (Nat.le_refl _) (by omega)⟩

/-- Whatever a scan for one bit returns is a free bit of the map. -/
theorem bitmapScan_one_free {b : Bitmap} {r : Option Nat} (h : bitmapScan b 1 = .ok r) :
    ∃ i, r = some i ∧ i < b.size ∧ b.bit i = false := by
  by_cases hex : ∃ i < b.size, b.bit i = false
  · obtain ⟨i, hi, hlt, hfree⟩ := bitmapScan_one hex
    rw [hi] at h
    cases h
    exact ⟨i, rfl, hlt, hfree⟩
  · -- every byte is full, so the `ASSERT` after the first loop fails
    obtain ⟨-, hhi, -, hend⟩ := scanByte_spec b.bits b.btmpBytesLen 0
    have hassert : scanByte b.bits b.btmpBytesLen 0 < b.btmpBytesLen := by
      simp only [bitmapScan, bind_ok] at h
      obtain ⟨_, ha, _⟩ := h
      exact ASSERT_ok ha
    rcases hend with he | hne
    · omega
    · refine absurd ((byte_full_iff b.bits _).mpr fun j hj => ?_) hne
      by_contra hb
      exact hex ⟨scanByte b.bits b.btmpBytesLen 0 * 8 + j, by unfold Bitmap.size; omega,
        by simpa [Bitmap.bit] using hb⟩

end ZhuOS
