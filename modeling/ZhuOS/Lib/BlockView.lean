import ZhuOS.Lib.Bytes

/-!
# Bytes kept in blocks

A sequence of bytes in blocks of `n` bytes, block `k` at the address `base k`. A block is
written whole, so that a change in it needs what was there before.
-/

namespace ByteMem

/-- Byte `i` of the sequence. -/
def view (n : Nat) (mem : Bytes) (base : Nat → Nat) (i : Nat) : UInt8 :=
  mem (base (i / n) + i % n)

variable {n i p len from_ : Nat} {mem mem' buf src : Bytes} {base base' : Nat → Nat}

theorem view_congr (hn : 0 < n) (hbase : base' (i / n) = base (i / n))
    (h : Same mem' mem (base (i / n)) n) : view n mem' base' i = view n mem base i := by
  have hlt := Nat.mod_lt i hn
  rw [view, view, hbase]
  exact h _ (by omega) (by omega)

/-- Positions in the same block are as far apart as they are in it. -/
theorem mod_of_div_eq (h : i / n = p / n) : i + p % n = p + i % n := by
  have hi := Nat.div_add_mod i n
  have hp := Nat.div_add_mod p n
  rw [h] at hi
  omega

/-- A change of a part of a block, written back with the whole block. -/
theorem view_write (hn : 0 < n) (hfit : p % n + len ≤ n)
    (hold : ∀ r < p % n, buf r = mem (base (p / n) + r)) (hi : i < p + len)
    (happart : i / n ≠ p / n →
      base (i / n) + n ≤ base (p / n) ∨ base (p / n) + n ≤ base (i / n)) :
    view n (blit mem (base (p / n)) (blit buf (p % n) src from_ len) 0 n) base i =
      if p ≤ i then src (from_ + (i - p)) else view n mem base i := by
  have hmod := Nat.mod_lt i hn
  by_cases hblock : i / n = p / n
  · have hdist := mod_of_div_eq hblock
    rw [view, view, hblock, blit_at hmod, Nat.zero_add]
    by_cases hp : p ≤ i
    · have hoff : i % n - p % n = i - p := by omega
      rw [if_pos hp, blit_in (by omega) (by omega), hoff]
    · rw [if_neg hp, blit_out (by omega)]
      exact hold _ (by omega)
  · have hlt : ¬ p ≤ i := by
      intro hp
      apply hblock
      apply Nat.le_antisymm _ (Nat.div_le_div_right hp)
      apply Nat.le_of_lt_succ
      apply (Nat.div_lt_iff_lt_mul hn).mpr
      have hdiv := Nat.div_add_mod p n
      have hmul : (p / n + 1) * n = n * (p / n) + n := by
        rw [Nat.add_mul, Nat.one_mul, Nat.mul_comm]
      show i < (p / n + 1) * n
      omega
    rw [if_neg hlt]
    apply view_congr hn rfl
    exact blit_same (happart hblock)

/-- A part of a block, copied to a buffer that holds what comes before. -/
theorem view_read (hfit : p % n + len ≤ n) {k : Nat} (hk : k < len) :
    mem (base (p / n) + (p % n + k)) = view n mem base (p + k) := by
  have hp := Nat.div_add_mod p n
  by_cases hn : n = 0
  · omega
  have hsum : p + k = p % n + k + n * (p / n) := by omega
  have hdiv : (p + k) / n = p / n := by
    rw [hsum, Nat.add_mul_div_left _ _ (by omega), Nat.div_eq_of_lt (by omega), Nat.zero_add]
  have hmod : (p + k) % n = p % n + k := by
    rw [hsum, Nat.add_mul_mod_self_left, Nat.mod_eq_of_lt (by omega)]
  rw [view, hdiv, hmod]

end ByteMem
