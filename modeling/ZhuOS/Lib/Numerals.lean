import Mathlib.Data.Nat.Digits.Lemmas
import Mathlib.Data.UInt

/-!
# Numerals

The numeral of a number in a base up to 36: its digits, the highest first, `0` to `9` and then
the capital letters. A numeral is read back digit by digit.
-/

namespace Numerals

variable {base n d : Nat} {text : List UInt8}

/-- The character of a digit. -/
def digitChar (d : Nat) : UInt8 := if d < 10 then .ofNat d + 48 else .ofNat (d - 10) + 65

/-- The digit a character stands for. -/
def charDigit (c : UInt8) : Nat := if c < 58 then (c - 48).toNat else (c - 65).toNat + 10

def numeral (base n : Nat) : List UInt8 :=
  if n = 0 then [digitChar 0] else (Nat.digits base n).reverse.map digitChar

/-- The number that the characters stand for. -/
def value (base : Nat) (text : List UInt8) : Nat :=
  Nat.ofDigits base (text.reverse.map charDigit)

/-- The text is a numeral of `n` without leading zeros. -/
structure Canonical (base n : Nat) (text : List UInt8) : Prop where
  digits : ∀ c ∈ text, ∃ d < base, c = digitChar d
  value : value base text = n
  nonempty : text ≠ []
  noZero : text.head? = some (digitChar 0) → text = [digitChar 0]

theorem charDigit_digitChar (hd : d < 36) : charDigit (digitChar d) = d := by
  have hall : ∀ d < 36, charDigit (digitChar d) = d := by decide
  exact hall d hd

/-- Numbers below 36 have characters of their own. -/
theorem digitChar_inj {d' : Nat} (hd : d < 36) (hd' : d' < 36)
    (h : digitChar d = digitChar d') : d = d' := by
  rw [← charDigit_digitChar hd, h, charDigit_digitChar hd']

theorem digitChar_ne_zero (hd : d < 36) : digitChar d ≠ 0 := by
  have hall : ∀ d < 36, digitChar d ≠ 0 := by decide
  exact hall d hd

theorem numeral_zero (base : Nat) : numeral base 0 = [digitChar 0] := if_pos rfl

/-- The last digit comes behind the numeral of the rest, if there is a rest. -/
theorem numeral_step (hb : 1 < base) (n : Nat) : numeral base n =
    (if n / base = 0 then [] else numeral base (n / base)) ++ [digitChar (n % base)] := by
  by_cases hn : n = 0
  · subst hn
    rw [numeral_zero, Nat.zero_div, if_pos rfl, Nat.zero_mod]
    rfl
  · rw [numeral, if_neg hn, Nat.digits_def' hb (Nat.pos_of_ne_zero hn), List.reverse_cons,
      List.map_append]
    congr 1
    by_cases hq : n / base = 0
    · rw [if_pos hq, hq, Nat.digits_zero]
      rfl
    · rw [if_neg hq, numeral, if_neg hq]

theorem value_map {ds : List Nat} (h : ∀ d ∈ ds, d < 36) :
    value base (ds.reverse.map digitChar) = Nat.ofDigits base ds := by
  rw [value, ← List.map_reverse, List.reverse_reverse, List.map_map]
  have hid : ds.map (charDigit ∘ digitChar) = ds.map id :=
    List.map_congr_left fun d hd => charDigit_digitChar (h d hd)
  rw [hid, List.map_id]

theorem numeral_canonical (hb : 1 < base) (hb' : base ≤ 36) (n : Nat) :
    Canonical base n (numeral base n) := by
  have hlt : ∀ d ∈ Nat.digits base n, d < base := fun d hd => Nat.digits_lt_base hb hd
  by_cases hn : n = 0
  · subst hn
    rw [numeral_zero]
    refine ⟨?_, ?_, List.cons_ne_nil _ _, fun _ => rfl⟩
    · intro c hc
      exact ⟨0, by omega, List.mem_singleton.mp hc⟩
    · simp [value, charDigit_digitChar]
  · have hdigits : Nat.digits base n ≠ [] := Nat.digits_ne_nil_iff_ne_zero.mpr hn
    rw [numeral, if_neg hn]
    refine ⟨?_, ?_, ?_, ?_⟩
    · intro c hc
      obtain ⟨d, hd, rfl⟩ := List.mem_map.mp hc
      exact ⟨d, hlt d (List.mem_reverse.mp hd), rfl⟩
    · rw [value_map fun d hd => Nat.lt_of_lt_of_le (hlt d hd) hb', Nat.ofDigits_digits]
    · simpa using hdigits
    · -- the first character is that of the highest digit
      intro hhead
      have hlast := Nat.getLast_digit_ne_zero base hn
      rw [List.head?_map, List.head?_reverse, List.getLast?_eq_some_getLast hdigits,
        Option.map_some, Option.some.injEq] at hhead
      have hin := hlt _ (List.getLast_mem hdigits)
      exact absurd (digitChar_inj (by omega) (by decide) hhead) hlast

/-- The last `k` digits, leading zeros included. -/
def padded (base : Nat) : (k n : Nat) → List UInt8
  | 0, _ => []
  | k + 1, n => padded base k (n / base) ++ [digitChar (n % base)]

/-- The digits without leading zeros, of which one is left if there is nothing else. -/
def stripped (text : List UInt8) : List UInt8 :=
  match text.dropWhile (· = digitChar 0) with
  | [] => [digitChar 0]
  | c :: rest => c :: rest

@[simp] theorem padded_length (base k n : Nat) : (padded base k n).length = k := by
  induction k generalizing n with
  | zero => rfl
  | succ k ih => rw [padded, List.length_append, ih, List.length_singleton]

theorem stripped_cons (c : UInt8) (text : List UInt8) :
    stripped (c :: text) = if c = digitChar 0 then stripped text else c :: text := by
  unfold stripped
  rw [List.dropWhile_cons]
  by_cases hc : c = digitChar 0
  · rw [if_pos hc, if_pos (decide_eq_true hc)]
  · rw [if_neg hc, if_neg (by simpa using hc)]

theorem dropWhile_padded (hb : 1 < base) (hb' : base ≤ 36) {k : Nat} (hn : n < base ^ k) :
    (padded base k n).dropWhile (· = digitChar 0) = if n = 0 then [] else numeral base n := by
  induction k generalizing n with
  | zero =>
    rw [if_pos (by simpa using hn)]
    rfl
  | succ k ih =>
    have hq : n / base < base ^ k := Nat.div_lt_of_lt_mul (by rwa [Nat.pow_succ'] at hn)
    rw [padded, List.dropWhile_append, ih hq]
    by_cases hzero : n / base = 0
    · have hsmall : n < base := (Nat.div_eq_zero_iff_lt (by omega)).mp hzero
      rw [if_pos hzero, Nat.mod_eq_of_lt hsmall, if_pos List.isEmpty_nil,
        List.dropWhile_cons, List.dropWhile_nil]
      by_cases hn0 : n = 0
      · rw [if_pos hn0, hn0, if_pos (by simp)]
      · have hchar : digitChar n ≠ digitChar 0 := fun h =>
          hn0 (digitChar_inj (by omega) (by decide) h)
        rw [if_neg hn0, if_neg (by simpa using hchar), numeral_step hb, if_pos hzero,
          Nat.mod_eq_of_lt hsmall]
        rfl
    · have hn0 : n ≠ 0 := fun h => hzero (by rw [h, Nat.zero_div])
      have hsome : numeral base (n / base) ≠ [] := (numeral_canonical hb hb' _).nonempty
      rw [if_neg hzero, if_neg hn0, if_neg (by simpa using hsome), numeral_step hb n,
        if_neg hzero]

/-- Without the leading zeros the digits are the numeral. -/
theorem stripped_padded (hb : 1 < base) (hb' : base ≤ 36) {k : Nat} (hn : n < base ^ k) :
    stripped (padded base k n) = numeral base n := by
  rw [stripped, dropWhile_padded hb hb' hn]
  by_cases hzero : n = 0
  · rw [if_pos hzero, hzero, numeral_zero]
  · rw [if_neg hzero]
    cases hnum : numeral base n with
    | nil => exact absurd hnum (numeral_canonical hb hb' n).nonempty
    | cons c rest => rfl

/-- A number has one numeral without leading zeros. -/
theorem Canonical.eq_numeral (h : Canonical base n text) (hb : 1 < base) (hb' : base ≤ 36) :
    text = numeral base n := by
  obtain ⟨ds, hds, rfl⟩ : ∃ ds : List Nat, (∀ d ∈ ds, d < base) ∧
      text = ds.reverse.map digitChar := by
    have hdigit : ∀ c ∈ text, digitChar (charDigit c) = c ∧ charDigit c < base := by
      intro c hc
      obtain ⟨d, hd, rfl⟩ := h.digits c hc
      rw [charDigit_digitChar (by omega)]
      exact ⟨rfl, hd⟩
    refine ⟨(text.map charDigit).reverse, fun d hd => ?_, ?_⟩
    · obtain ⟨c, hc, rfl⟩ := List.mem_map.mp (List.mem_reverse.mp hd)
      exact (hdigit c hc).2
    · have hid : text.map (digitChar ∘ charDigit) = text.map id :=
        List.map_congr_left fun c hc => (hdigit c hc).1
      rw [List.reverse_reverse, List.map_map, hid, List.map_id]
  have hvalue := h.value
  rw [value_map fun d hd => Nat.lt_of_lt_of_le (hds d hd) hb'] at hvalue
  have hne : ds ≠ [] := by simpa using h.nonempty
  by_cases hlast : ds.getLast hne = 0
  · have hhead : (ds.reverse.map digitChar).head? = some (digitChar 0) := by
      rw [List.head?_map, List.head?_reverse, List.getLast?_eq_some_getLast hne, hlast]
      rfl
    have hone := h.noZero hhead
    have hval := h.value
    rw [hone] at hval ⊢
    have hzero : n = 0 := by
      rw [← hval]
      simp [Numerals.value, charDigit_digitChar]
    rw [hzero, numeral_zero]
  · have hdigits := Nat.digits_ofDigits base hb ds hds fun _ => hlast
    rw [hvalue] at hdigits
    have hn : n ≠ 0 := by
      rintro rfl
      rw [Nat.digits_zero] at hdigits
      exact hne hdigits.symm
    rw [numeral, if_neg hn, hdigits]

end Numerals
