import Mathlib.Data.UInt
import Mathlib.Tactic.IntervalCases

/-!
# Byte memories

A memory, a buffer and a disk are functions from addresses to bytes. Copying a
range is `blit`; records of 32-bit words are read with `getWord` and written as
the bytes of `packWords`.
-/

namespace ByteMem

abbrev Bytes : Type := Nat → UInt8

/-- `len` bytes of `src` from `from_` on, copied over `dst` at `at_`. -/
def blit (dst : Bytes) (at_ : Nat) (src : Bytes) (from_ len : Nat) : Bytes :=
  fun a => if at_ ≤ a ∧ a < at_ + len then src (from_ + (a - at_)) else dst a

/-- `memset`. -/
def fill (dst : Bytes) (at_ len : Nat) (v : UInt8) : Bytes := blit dst at_ (fun _ => v) 0 len

/-- The memory seen from the address `off`. -/
def shift (b : Bytes) (off : Nat) : Bytes := fun i => b (off + i)

/-- The two memories hold the same `len` bytes from `off` on. -/
def Same (a b : Bytes) (off len : Nat) : Prop := ∀ i, off ≤ i → i < off + len → a i = b i

variable {dst src a b : Bytes} {at_ from_ len off x i : Nat} {v : UInt8}

theorem blit_in (h : at_ ≤ x) (h' : x < at_ + len) :
    blit dst at_ src from_ len x = src (from_ + (x - at_)) := if_pos ⟨h, h'⟩

theorem blit_at (h : i < len) : blit dst at_ src from_ len (at_ + i) = src (from_ + i) := by
  rw [blit_in (by omega) (by omega), show at_ + i - at_ = i by omega]

theorem blit_out (h : x < at_ ∨ at_ + len ≤ x) : blit dst at_ src from_ len x = dst x :=
  if_neg (by omega)

/-- Two copies of adjoining ranges are one. -/
theorem blit_blit (dst src : Bytes) (at_ from_ m n : Nat) :
    blit (blit dst at_ src from_ m) (at_ + m) src (from_ + m) n =
      blit dst at_ src from_ (m + n) := by
  funext a
  by_cases hlow : a < at_ + m
  · rw [blit_out (by omega)]
    by_cases hin : at_ ≤ a
    · rw [blit_in hin hlow, blit_in hin (by omega)]
    · rw [blit_out (by omega), blit_out (by omega)]
  · by_cases hin : a < at_ + m + n
    · rw [blit_in (by omega) hin, blit_in (by omega) (by omega)]
      congr 1
      omega
    · rw [blit_out (by omega), blit_out (by omega), blit_out (by omega)]

theorem blit_none (dst src : Bytes) (at_ from_ : Nat) : blit dst at_ src from_ 0 = dst := by
  funext a
  exact blit_out (by omega)

/-- Reading `n` bytes, changing some of them and writing all back changes those. -/
theorem blit_through (disk buf src : Bytes) (start n : Nat) {off len : Nat} (h : off + len ≤ n) :
    blit disk start (blit (blit buf 0 disk start n) off src from_ len) 0 n =
      blit disk (start + off) src from_ len := by
  funext a
  by_cases hin : start ≤ a ∧ a < start + n
  · rw [blit_in hin.1 hin.2]
    by_cases hrec : start + off ≤ a ∧ a < start + off + len
    · rw [blit_in (by omega) (by omega), blit_in hrec.1 hrec.2]
      congr 1
      omega
    · rw [blit_out (by omega), blit_in (by omega) (by omega), blit_out (by omega)]
      congr 1
      omega
  · rw [blit_out (by omega), blit_out (by omega)]

/-- A copy depends on the bytes copied. -/
theorem blit_congr {src' : Bytes} {from' : Nat}
    (h : ∀ i < len, src (from_ + i) = src' (from' + i)) :
    blit dst at_ src from_ len = blit dst at_ src' from' len := by
  funext a
  by_cases hin : at_ ≤ a ∧ a < at_ + len
  · rw [blit_in hin.1 hin.2, blit_in hin.1 hin.2, h _ (by omega)]
  · rw [blit_out (by omega), blit_out (by omega)]

theorem fill_in (h : at_ ≤ x) (h' : x < at_ + len) : fill dst at_ len v x = v := if_pos ⟨h, h'⟩

theorem fill_out (h : x < at_ ∨ at_ + len ≤ x) : fill dst at_ len v x = dst x :=
  if_neg (by omega)

@[simp] theorem shift_apply (b : Bytes) (off i : Nat) : shift b off i = b (off + i) := rfl

theorem blit_shift (dst src : Bytes) (at_ off len : Nat) :
    blit dst at_ (shift src off) 0 len = blit dst at_ src off len := by
  funext a
  by_cases hin : at_ ≤ a ∧ a < at_ + len
  · rw [blit_in hin.1 hin.2, blit_in hin.1 hin.2, shift_apply, Nat.zero_add]
  · rw [blit_out (by omega), blit_out (by omega)]

theorem Same.symm (h : Same a b off len) : Same b a off len := fun i hi hlt => (h i hi hlt).symm

theorem Same.trans {c : Bytes} (h : Same a b off len) (h' : Same b c off len) :
    Same a c off len := fun i hi hlt => (h i hi hlt).trans (h' i hi hlt)

theorem Same.mono {off' len' : Nat} (h : Same a b off len) (ho : off ≤ off')
    (hl : off' + len' ≤ off + len) : Same a b off' len' :=
  fun i hi hlt => h i (by omega) (by omega)

/-- A copy leaves a range apart from its target alone. -/
theorem blit_same (h : off + len ≤ at_ ∨ at_ + i ≤ off) :
    Same (blit dst at_ src from_ i) dst off len :=
  fun _ _ _ => blit_out (by omega)

/-! ## Words -/

/-- Byte `i` of a little-endian word. -/
def wordByte (w : UInt32) (i : Nat) : UInt8 := UInt8.ofNat (w.toNat / 256 ^ i)

/-- The word stored at `off`. -/
def getWord (b : Bytes) (off : Nat) : UInt32 :=
  UInt32.ofNat ((b off).toNat + 256 * (b (off + 1)).toNat + 256 ^ 2 * (b (off + 2)).toNat +
    256 ^ 3 * (b (off + 3)).toNat)

/-- The memory that holds these words one after the other. -/
def packWords (ws : Nat → UInt32) : Bytes := fun i => wordByte (ws (i / 4)) (i % 4)

theorem getWord_congr {off' : Nat} (h : ∀ i < 4, a (off + i) = b (off' + i)) :
    getWord a off = getWord b off' := by
  have h0 := h 0 (by decide)
  simp only [Nat.add_zero] at h0
  simp only [getWord, h0, h 1 (by decide), h 2 (by decide), h 3 (by decide)]

/-- The lowest byte of a word comes first. -/
theorem getWord_low (b : Bytes) (off : Nat) : (getWord b off).toNat % 256 = (b off).toNat := by
  have h0 := (b off).toNat_lt
  have h1 := (b (off + 1)).toNat_lt
  have h2 := (b (off + 2)).toNat_lt
  have h3 := (b (off + 3)).toNat_lt
  rw [getWord, UInt32.toNat_ofNat']
  omega

theorem Same.getWord (h : Same a b off len) (hi : off ≤ i) (hl : i + 4 ≤ off + len) :
    getWord a i = ByteMem.getWord b i :=
  getWord_congr fun j hj => h (i + j) (by omega) (by omega)

theorem getWord_shift (b : Bytes) (off i : Nat) : getWord (shift b off) i = getWord b (off + i) :=
  getWord_congr fun j _ => by simp [Nat.add_assoc]

theorem getWord_wordByte {w : UInt32} (h : ∀ i < 4, b (off + i) = wordByte w i) :
    getWord b off = w := by
  have h0 := h 0 (by decide)
  have h1 := h 1 (by decide)
  have h2 := h 2 (by decide)
  have h3 := h 3 (by decide)
  rw [Nat.add_zero] at h0
  have hlt := w.toNat_lt
  apply UInt32.toNat_inj.mp
  simp only [getWord, h0, h1, h2, h3, wordByte, UInt8.toNat_ofNat', UInt32.toNat_ofNat']
  omega

theorem getWord_packWords (ws : Nat → UInt32) (k : Nat) :
    getWord (packWords ws) (4 * k) = ws k := by
  apply getWord_wordByte
  intro i hi
  unfold packWords
  rw [show (4 * k + i) / 4 = k by omega, show (4 * k + i) % 4 = i by omega]

/-- Words stored at `at_` are read back one by one. -/
theorem getWord_blit_packWords (ws : Nat → UInt32) {k : Nat} (h : 4 * k + 4 ≤ len) :
    getWord (blit dst at_ (packWords ws) 0 len) (at_ + 4 * k) = ws k := by
  rw [← getWord_packWords ws k]
  apply getWord_congr
  intro i hi
  rw [Nat.add_assoc, blit_at (by omega), Nat.zero_add]

end ByteMem
