import Mathlib.Data.List.GetD
import ZhuOS.Lib.CStrings

/-!
# `lib/string.c`: strings in buffers
-/

namespace ZhuOS

open ByteMem

/-- `strlen` of a string in a buffer of `left` more bytes; without a zero byte it is at
least as long. -/
def strlenIn (str : Bytes) : (left p : Nat) → Nat
  | 0, p => p
  | left + 1, p => if str p = 0 then p else strlenIn str left (p + 1)

/-- `strcat` onto a string of `len` bytes: the source goes with its zero byte. -/
def strcatAt (dst : Bytes) (len : Nat) (src : List UInt8) : Bytes :=
  blit dst len (fun i => src.getD i 0) 0 (src.length + 1)

/-- The string in a buffer has `len` bytes. -/
structure StrLen (str : Bytes) (len : Nat) : Prop where
  nul : str len = 0
  nonzero : ∀ i < len, str i ≠ 0

theorem StrLen.strlenIn_min {str : Bytes} {len : Nat} (h : StrLen str len) (left p : Nat)
    (hp : p ≤ len) : strlenIn str left p = min len (p + left) := by
  induction left generalizing p with
  | zero => exact (Nat.min_eq_right hp).symm
  | succ left ih =>
    rw [ZhuOS.strlenIn]
    by_cases he : p = len
    · subst he
      rw [if_pos h.nul]
      exact (Nat.min_eq_left (Nat.le_add_right ..)).symm
    · rw [if_neg (h.nonzero p (by omega)), ih (p + 1) (by omega)]
      congr 1
      omega

theorem StrLen.strlenIn {str : Bytes} {len : Nat} (h : StrLen str len) (left p : Nat)
    (hp : p ≤ len) (hin : len < p + left) : strlenIn str left p = len := by
  rw [h.strlenIn_min left p hp]
  exact Nat.min_eq_left hin.le

theorem StrLen.strcatAt {dst : Bytes} {len : Nat} (h : StrLen dst len) {src : List UInt8}
    (hsrc : (0 : UInt8) ∉ src) : StrLen (strcatAt dst len src) (len + src.length) where
  nul := by
    rw [ZhuOS.strcatAt, blit_at (Nat.lt_succ_self _), Nat.zero_add]
    simp
  nonzero i hi := by
    rw [ZhuOS.strcatAt]
    by_cases hlt : i < len
    · rw [blit_out (.inl hlt)]
      exact h.nonzero i hlt
    · rw [blit_in (by omega) (by omega), Nat.zero_add, List.getD_eq_getElem _ _ (by omega)]
      intro hz
      exact hsrc (hz ▸ List.getElem_mem _)

/-- Nothing behind the string and its zero byte is written. -/
theorem strcatAt_behind (dst : Bytes) {len i : Nat} {src : List UInt8}
    (hi : len + src.length < i) : strcatAt dst len src i = dst i :=
  blit_out (.inr (by omega))

end ZhuOS
