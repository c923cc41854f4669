import Mathlib.Logic.Function.Basic
import Mathlib.Tactic.IntervalCases

/-!
# Bit vectors packed in bytes

Bit `i` is bit `i % 8` of byte `i / 8`. The two updates a program makes are an
OR with a one-bit mask and an AND with its complement; `bit_turnOn` and
`bit_turnOff` say what every bit reads afterwards. `ClearRun` is a stretch of
zero bits, `clearCount` the number of zero bits below a bound.
-/

namespace PackedBits

/-- Bit `i` of the bytes. -/
def bit (bytes : Nat → UInt8) (i : Nat) : Bool := (bytes (i / 8)).toBitVec.getLsbD (i % 8)

def mask (k : Nat) : UInt8 := 1 <<< UInt8.ofNat k

def turnOn (bytes : Nat → UInt8) (i : Nat) : Nat → UInt8 :=
  Function.update bytes (i / 8) (bytes (i / 8) ||| mask (i % 8))

def turnOff (bytes : Nat → UInt8) (i : Nat) : Nat → UInt8 :=
  Function.update bytes (i / 8) (bytes (i / 8) &&& ~~~mask (i % 8))

theorem mask_getLsbD {k j : Nat} (hk : k < 8) (hj : j < 8) :
    (mask k).toBitVec.getLsbD j = decide (j = k) := by
  interval_cases k <;> interval_cases j <;> rfl

/-- Testing with a mask reads the bit. -/
theorem and_mask_ne_zero {k : Nat} (b : UInt8) (hk : k < 8) :
    (b &&& mask k != 0) = b.toBitVec.getLsbD k := by
  have hbit : ∀ j < 8, (b &&& mask k).toBitVec.getLsbD j =
      (b.toBitVec.getLsbD j && decide (j = k)) := by
    intro j hj
    rw [UInt8.toBitVec_and, BitVec.getLsbD_and, mask_getLsbD hk hj]
  cases hb : b.toBitVec.getLsbD k
  · have hz : b &&& mask k = 0 := by
      apply UInt8.toBitVec_inj.mp
      apply BitVec.eq_of_getLsbD_eq
      intro j hj
      rw [hbit j hj]
      by_cases h : j = k <;> simp [h, hb]
    simp [hz]
  · have hn : b &&& mask k ≠ 0 := by
      intro hz
      have := hbit k hk
      simp [hz, hb] at this
    simpa using hn

theorem index_eq {i j : Nat} (hd : j / 8 = i / 8) : j % 8 = i % 8 ↔ j = i := by omega

theorem bit_turnOn (bytes : Nat → UInt8) (i j : Nat) :
    bit (turnOn bytes i) j = (bit bytes j || decide (j = i)) := by
  unfold bit turnOn
  by_cases hd : j / 8 = i / 8
  · rw [hd, Function.update_self, UInt8.toBitVec_or, BitVec.getLsbD_or,
      mask_getLsbD (Nat.mod_lt _ (by decide)) (Nat.mod_lt _ (by decide))]
    simp only [index_eq hd]
  · have hne : j ≠ i := by rintro rfl; exact hd rfl
    simp [Function.update_of_ne hd, hne]

theorem bit_turnOff (bytes : Nat → UInt8) (i j : Nat) :
    bit (turnOff bytes i) j = (bit bytes j && decide (j ≠ i)) := by
  unfold bit turnOff
  by_cases hd : j / 8 = i / 8
  · rw [hd, Function.update_self, UInt8.toBitVec_and, UInt8.toBitVec_not, BitVec.getLsbD_and,
      BitVec.getLsbD_not, mask_getLsbD (Nat.mod_lt _ (by decide)) (Nat.mod_lt _ (by decide))]
    have := index_eq hd
    by_cases h : j = i <;> simp [this, h, Nat.mod_lt]
  · have hne : j ≠ i := by rintro rfl; exact hd rfl
    simp [Function.update_of_ne hd, hne]

/-- A byte is full exactly when its eight bits are set. -/
theorem byte_full_iff (bytes : Nat → UInt8) (k : Nat) :
    bytes k = 0xff ↔ ∀ j < 8, bit bytes (k * 8 + j) = true := by
  have hidx : ∀ j < 8, bit bytes (k * 8 + j) = (bytes k).toBitVec.getLsbD j := by
    intro j hj
    unfold bit
    rw [show (k * 8 + j) / 8 = k by omega, show (k * 8 + j) % 8 = j by omega]
  constructor
  · intro h j hj
    rw [hidx j hj, h]
    interval_cases j <;> rfl
  · intro h
    apply UInt8.toBitVec_inj.mp
    apply BitVec.eq_of_getLsbD_eq
    intro j hj
    rw [← hidx j hj, h j hj]
    interval_cases j <;> rfl

/-- Bytes with the same bits are the same bytes. -/
theorem byte_ext {a b : Nat → UInt8} {k : Nat}
    (h : ∀ j < 8, bit a (k * 8 + j) = bit b (k * 8 + j)) : a k = b k := by
  apply UInt8.toBitVec_inj.mp
  apply BitVec.eq_of_getLsbD_eq
  intro j hj
  have := h j hj
  unfold bit at this
  rwa [show (k * 8 + j) / 8 = k by omega, show (k * 8 + j) % 8 = j by omega] at this

theorem bit_congr {a b : Nat → UInt8} {i : Nat} (h : a (i / 8) = b (i / 8)) :
    bit a i = bit b i := by
  unfold bit; rw [h]

/-- `n` zero bits from `s` on, all below `limit`. -/
structure ClearRun (bytes : Nat → UInt8) (limit s n : Nat) : Prop where
  inside : s + n ≤ limit
  clear : ∀ j, s ≤ j → j < s + n → bit bytes j = false

/-- The first run of `n` zero bits. -/
structure LeastRun (bytes : Nat → UInt8) (limit s n : Nat) : Prop where
  run : ClearRun bytes limit s n
  least : ∀ t, ClearRun bytes limit t n → s ≤ t

theorem exists_leastRun {bytes : Nat → UInt8} {limit s n : Nat}
    (h : ClearRun bytes limit s n) : ∃ t, LeastRun bytes limit t n := by
  classical
  have hex : ∃ t, ClearRun bytes limit t n := ⟨s, h⟩
  exact ⟨Nat.find hex, Nat.find_spec hex, fun t ht => Nat.find_min' hex ht⟩

end PackedBits
