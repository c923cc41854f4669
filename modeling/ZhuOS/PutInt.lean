import ZhuOS.Screen
import ZhuOS.Stdio

/-!
# `lib/kernel/print.S`: numbers

`put_int` fills a buffer of eight characters from its end and prints them from the first one on
that is no zero. The routine that prints a character is a parameter, so that the characters are
seen and not only what a screen makes of them.
-/

namespace ZhuOS

open ByteMem Numerals Terminal

namespace Print

/-- `.16based_4bits`, with `loop` on `ecx`: the buffer, and `edi` behind it. -/
def based16 : (ecx : Nat) → (eax edx edi : UInt32) → Bytes → Bytes × UInt32
  | 0, _, _, edi, buf => (buf, edi)
  | ecx + 1, eax, edx, edi, buf =>
    let edx := edx &&& 0x0000000F
    let edx := if edx.toInt32 > 9 then edx - 10 + 65 else edx + 48
    let buf := Function.update buf edi.toNat edx.toUInt8
    let edi := edi - 1
    let eax := eax >>> 4
    let edx := eax
    based16 ecx eax edx edi buf

theorem up_to_lt {edi last : UInt32} (h : edi ≠ last) :
    (last - (edi + 1)).toNat < (last - edi).toNat := by
  have hne : edi.toNat ≠ last.toNat := fun heq => h (UInt32.toNat_inj.mp heq)
  have hone : (1 : UInt32).toNat = 1 := rfl
  have hlt := edi.toNat_lt
  have hlt' := last.toNat_lt
  rw [UInt32.toNat_sub, UInt32.toNat_sub, UInt32.toNat_add, hone]
  omega

/-- `.skip_prefix_0` and `.full0`: `cl` and `edi`. -/
def skipPrefix0 (buf : Bytes) (edi : UInt32) : UInt8 × UInt32 :=
  if h : edi = 8 then (48, edi)
  else
    let cl := buf edi.toNat
    let edi := edi + 1
    if cl = 48 then skipPrefix0 buf edi
    else
      let edi := edi - 1
      (cl, edi)
termination_by (8 - edi).toNat
decreasing_by exact up_to_lt h

theorem before_last {edi : UInt32} (h : (edi + 1).toInt32 < 8) : edi ≠ 7 := by
  rintro rfl
  exact absurd h (by decide)

section
variable {σ : Type} (putChar : σ → UInt8 → Except Fault σ)

/-- `.put_each_num` -/
def putEachNum (buf : Bytes) (cl : UInt8) (edi : UInt32) (s : σ) : Except Fault σ := do
  let s ← putChar s cl
  let edi := edi + 1
  let cl := buf edi.toNat
  if _h : edi.toInt32 < 8 then putEachNum buf cl edi s else return s
termination_by (7 - edi).toNat
decreasing_by exact up_to_lt (before_last _h)

/-- `put_int`; `buf` is the memory from `put_int_buffer` on. -/
def putInt (buf : Bytes) (eax : UInt32) (s : σ) : Except Fault (σ × Bytes) := do
  let edx := eax
  let (buf, edi) := based16 8 eax edx 7 buf
  let edi := edi + 1
  let (cl, edi) := skipPrefix0 buf edi
  let s ← putEachNum putChar buf cl edi s
  return (s, buf)

end

/-! ## The buffer -/

/-- The character of the lowest four bits. -/
theorem nibble_char (edx : UInt32) :
    (if (edx &&& 0x0000000F).toInt32 > 9 then (edx &&& 0x0000000F) - 10 + 65
      else (edx &&& 0x0000000F) + 48).toUInt8 = digitChar (edx.toNat % 16) := by
  have hand : edx &&& 0x0000000F = .ofNat (edx.toNat % 16) := by
    apply UInt32.toNat_inj.mp
    have hlow : (edx &&& 0x0000000F).toNat = edx.toNat % 16 := by
      rw [UInt32.toNat_and]
      exact Nat.and_two_pow_sub_one_eq_mod edx.toNat 4
    rw [hlow, UInt32.toNat_ofNat_of_lt' (by change _ < 2 ^ 32; omega)]
  have hall : ∀ d < 16, (if (UInt32.ofNat d).toInt32 > 9 then UInt32.ofNat d - 10 + 65
      else UInt32.ofNat d + 48).toUInt8 = digitChar d := by decide
  rw [hand]
  exact hall _ (Nat.mod_lt _ (by decide))

/-- The digits fill the buffer up to `edi`, the lowest one last. -/
theorem based16_fills (n : Nat) (eax edi : UInt32) (buf : Bytes) (hn : (edi + 1).toNat = n) :
    (based16 n eax eax edi buf).2 + 1 = 0 ∧
    (∀ a, n ≤ a → (based16 n eax eax edi buf).1 a = buf a) ∧
    ∀ i (hi : i < (padded 16 n eax.toNat).length),
      (based16 n eax eax edi buf).1 i = (padded 16 n eax.toNat)[i] := by
  induction n generalizing eax edi buf with
  | zero => exact ⟨UInt32.toNat_inj.mp hn, fun a _ => rfl, fun i hi => absurd hi (by simp [padded])⟩
  | succ n ih =>
    have hone : (1 : UInt32).toNat = 1 := rfl
    have hlt := edi.toNat_lt
    have hedi : edi.toNat = n := by
      rw [UInt32.toNat_add, hone] at hn
      omega
    have hshift : (eax >>> 4).toNat = eax.toNat / 16 := by
      rw [UInt32.toNat_shiftRight, Nat.shiftRight_eq_div_pow]
      rfl
    have hback : (edi - 1 + 1).toNat = n := by
      rw [UInt32.sub_add_cancel, hedi]
    obtain ⟨hend, hkept, hdigits⟩ := ih (eax >>> 4) (edi - 1)
      (Function.update buf n (digitChar (eax.toNat % 16))) hback
    have hstep : based16 (n + 1) eax eax edi buf = based16 n (eax >>> 4) (eax >>> 4) (edi - 1)
        (Function.update buf n (digitChar (eax.toNat % 16))) := by
      rw [based16, nibble_char, hedi]
    rw [hstep]
    refine ⟨hend, fun a ha => ?_, fun i hi => ?_⟩
    · rw [hkept a (by omega), Function.update_of_ne (by omega)]
    · simp only [padded, ← hshift]
      rw [padded_length] at hi
      by_cases hlow : i < n
      · rw [List.getElem_append_left (by rwa [padded_length])]
        exact hdigits i (by rwa [padded_length])
      · obtain rfl : i = n := by omega
        rw [hkept i (Nat.le_refl i), Function.update_self, List.getElem_concat_length]
        rw [padded_length]

variable {buf : Bytes} {text : List UInt8}

/-- The buffer holds the eight characters. -/
structure Filled (buf : Bytes) (text : List UInt8) : Prop where
  length : text.length = 8
  bytes : ∀ i (hi : i < text.length), buf i = text[i]

theorem Filled.drop (h : Filled buf text) {edi : UInt32} (hlt : edi.toNat < 8) :
    text.drop edi.toNat = buf edi.toNat :: text.drop (edi.toNat + 1) := by
  have hlen := h.length
  rw [List.drop_eq_getElem_cons (by omega), h.bytes _ (by omega)]

theorem succ_toNat {edi : UInt32} (hle : edi.toNat ≤ 8) : (edi + 1).toNat = edi.toNat + 1 := by
  have hone : (1 : UInt32).toNat = 1 := rfl
  rw [UInt32.toNat_add, hone]
  omega

/-- The first character that is no zero, with the rest behind it; for zeros only, one of them. -/
theorem skipPrefix0_stripped (h : Filled buf text) {edi : UInt32} (hle : edi.toNat ≤ 8) :
    (skipPrefix0 buf edi).2.toNat ≤ 8 ∧ stripped (text.drop edi.toNat) =
      (skipPrefix0 buf edi).1 :: text.drop ((skipPrefix0 buf edi).2.toNat + 1) := by
  have h0 : (48 : UInt8) = digitChar 0 := rfl
  have hlen := h.length
  induction hk : 8 - edi.toNat generalizing edi with
  | zero =>
    obtain rfl : edi = 8 := UInt32.toNat_inj.mp (by change _ = 8; omega)
    rw [skipPrefix0, dif_pos rfl]
    refine ⟨Nat.le_refl 8, ?_⟩
    rw [List.drop_eq_nil_of_le (by omega), List.drop_eq_nil_of_le (by change _ ≤ 8 + 1; omega)]
    rfl
  | succ k ih =>
    have hne : edi ≠ 8 := by
      rintro rfl
      have h8 : (8 : UInt32).toNat = 8 := rfl
      omega
    have hnext := succ_toNat hle
    rw [skipPrefix0, dif_neg hne, h.drop (by omega), stripped_cons, ← h0]
    by_cases hzero : buf edi.toNat = 48
    · simp only [if_pos hzero, ← hnext]
      exact ih (by omega) (by omega)
    · simp only [if_neg hzero, UInt32.add_sub_cancel]
      exact ⟨hle, trivial⟩

theorem jl_8 {edi : UInt32} (hle : edi.toNat ≤ 9) : edi.toInt32 < 8 ↔ edi.toNat < 8 := by
  have hval : edi.toInt32.toInt = edi.toNat := BitVec.toInt_eq_toNat_of_lt (by
    change 2 * edi.toNat < 2 ^ 32
    omega)
  have hend : (8 : Int32).toInt = 8 := rfl
  rw [Int32.lt_iff_toInt_lt, hval, hend]
  omega

section
variable {σ : Type} (putChar : σ → UInt8 → Except Fault σ)

/-- `cl` is printed, and then the characters behind `edi`. -/
theorem putEachNum_prints (h : Filled buf text) (cl : UInt8) {edi : UInt32} (hle : edi.toNat ≤ 8)
    (s : σ) : putEachNum putChar buf cl edi s =
      (cl :: text.drop (edi.toNat + 1)).foldlM putChar s := by
  have hlen := h.length
  induction hk : 8 - edi.toNat generalizing cl edi s with
  | zero =>
    have hnext := succ_toNat hle
    have hend : ¬ (edi + 1).toInt32 < 8 := fun hlt => by
      have := (jl_8 (by omega)).mp hlt
      omega
    rw [putEachNum, List.foldlM_cons, List.drop_eq_nil_of_le (by omega)]
    simp only [dif_neg hend]
    rfl
  | succ k ih =>
    have hnext := succ_toNat hle
    rw [putEachNum, List.foldlM_cons]
    by_cases hlt : edi.toNat + 1 < 8
    · have hjl : (edi + 1).toInt32 < 8 := (jl_8 (by omega)).mpr (by omega)
      have hdrop := h.drop (by omega : (edi + 1).toNat < 8)
      simp only [dif_pos hjl]
      rw [← hnext, hdrop]
      exact bind_congr fun s => ih _ (by omega) s (by omega)
    · have hend : ¬ (edi + 1).toInt32 < 8 := fun h8 => hlt (hnext ▸ (jl_8 (by omega)).mp h8)
      simp only [dif_neg hend]
      rw [List.drop_eq_nil_of_le (by omega)]
      rfl

/-- `put_int` prints the numeral, and leaves all eight digits in the buffer. -/
theorem putInt_prints (buf : Bytes) (v : UInt32) (s : σ) : putInt putChar buf v s = do
    let s ← (numeral 16 v.toNat).foldlM putChar s
    return (s, (based16 8 v v 7 buf).1) := by
  obtain ⟨hend, -, hdigits⟩ := based16_fills 8 v 7 buf rfl
  have hlt : v.toNat < 16 ^ 8 := v.toNat_lt
  have hfilled : Filled _ (padded 16 8 v.toNat) := ⟨padded_length .., hdigits⟩
  have hzero : ((0 : UInt32).toNat) ≤ 8 := by decide
  obtain ⟨hle, hstripped⟩ := skipPrefix0_stripped hfilled hzero
  have hnumeral : stripped ((padded 16 8 v.toNat).drop (0 : UInt32).toNat) =
      numeral 16 v.toNat := stripped_padded (by decide) (by decide) hlt
  simp only [putInt, hend]
  rw [putEachNum_prints putChar hfilled _ hle, ← hstripped, hnumeral]

end

/-! ## The same characters as `%x` -/

/-- `put_int` calls `put_char` for these characters, whatever that does. -/
def Prints (buf : Bytes) (v : UInt32) (text : List UInt8) : Prop :=
  ∃ buf', ∀ (σ : Type) (putChar : σ → UInt8 → Except Fault σ) (s : σ),
    putInt putChar buf v s = do
      let s ← text.foldlM putChar s
      return (s, buf')

/-- `vsprintf` writes these characters for `%x`, within a format and alone. -/
structure WritesX (v : UInt32) (text : List UInt8) : Prop where
  within : ∀ (mem : Bytes) (rest : List UInt8) (ap : List UInt32) (cur : Cursor), ∃ cur',
    vsprintfLoop mem (percent :: Directive.x.char :: rest) (v :: ap) cur =
      vsprintfLoop mem rest ap cur' ∧ Emitted cur cur' text False
  alone : ∀ mem str : Bytes, ∃ out,
    vsprintf mem str [percent, Directive.x.char] [v] = .ok (strlenIn out (2 ^ 32) 0, out) ∧
      (∀ i (hi : i < text.length), out i = text[i]) ∧ ∀ a, text.length ≤ a → out a = str a

theorem numeral_writesX (v : UInt32) : WritesX v (numeral 16 v.toNat) where
  within _ _ _ cur := ⟨_, rfl, itoa_wrote 16 (by decide) v.toNat cur⟩
  alone mem str := by
    have hwrote := itoa_wrote 16 (by decide) v.toNat ⟨str, 0⟩
    have hptr := hwrote.ptr.trans (Nat.zero_add _)
    refine ⟨_, rfl, fun i hi => ?_, fun a ha => ?_⟩
    · have htext := hwrote.text i hi
      rwa [Nat.zero_add] at htext
    · obtain rfl | hlt := Nat.eq_or_lt_of_le ha
      · rw [← hptr]
        exact hwrote.kept not_false
      · exact hwrote.outside a (.inr (hptr ▸ hlt))

/-- What `put_int` prints of a value is what `vsprintf` writes for `%x`. -/
theorem putInt_vsprintf (buf : Bytes) (v : UInt32) : ∃ text, Prints buf v text ∧ WritesX v text :=
  ⟨_, ⟨_, fun _ putChar s => putInt_prints putChar buf v s⟩, numeral_writesX v⟩

end Print

namespace Display

variable {d : Display} {t : Terminal (UInt8 × UInt8) 25 80}

theorem signal_digit {c : UInt8} {n : Nat} (hc : c ∈ numeral 16 n) :
    signal c = .glyph (c, 0x07) ∧ c ≠ 0x8 := by
  obtain ⟨k, hk, rfl⟩ := (numeral_canonical (by decide : 1 < 16) (by decide) n).digits c hc
  have hall : ∀ k < 16, ¬ (digitChar k = 0xd ∨ digitChar k = 0xa) ∧ digitChar k ≠ 0x8 := by decide
  obtain ⟨hline, hback⟩ := hall k hk
  rw [signal, if_neg hline, if_neg hback]
  exact ⟨rfl, hback⟩

/-- Characters that are none of the controls stand on the terminal, one behind the other. -/
theorem Shows.putChars (h : Shows d t) {chars : List UInt8}
    (hplain : ∀ c ∈ chars, signal c = .glyph (c, 0x07) ∧ c ≠ 0x8) : ∃ d',
      Display.putChars d chars = .ok d' ∧
        Shows d' (t.run blank (chars.map fun c => .glyph (c, 0x07))) := by
  induction chars generalizing d t with
  | nil => exact ⟨d, rfl, h⟩
  | cons c chars ih =>
    obtain ⟨hsignal, hback⟩ := hplain c List.mem_cons_self
    have hstep := h.putChar c
    rw [if_neg fun hboth => hback hboth.1, hsignal] at hstep
    obtain ⟨d₁, hrun, hshows⟩ := hstep
    obtain ⟨d', hrest, hall⟩ := ih hshows fun c hc => hplain c (List.mem_cons_of_mem _ hc)
    refine ⟨d', ?_, hall⟩
    rw [Display.putChars, List.foldlM_cons, hrun]
    exact hrest

/-- On the screen the numeral stands from the cursor on. -/
theorem Shows.putInt (h : Shows d t) (buf : Bytes) (v : UInt32) : ∃ d' buf',
    Print.putInt Display.putChar buf v d = .ok (d', buf') ∧
      Shows d' (t.run blank ((numeral 16 v.toNat).map fun c => .glyph (c, 0x07))) := by
  obtain ⟨d', hrun, hshows⟩ := h.putChars fun c hc => signal_digit hc
  rw [Display.putChars] at hrun
  refine ⟨d', (Print.based16 8 v v 7 buf).1, ?_, hshows⟩
  rw [Print.putInt_prints, hrun]
  rfl

end Display

end ZhuOS
