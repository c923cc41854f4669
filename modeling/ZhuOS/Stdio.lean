import ZhuOS.Lib.Numerals
import ZhuOS.Machine
import ZhuOS.Strings

/-!
# `lib/stdio.c`: formatted output

`vsprintf` writes no zero byte of its own: behind the text stands what the destination held,
unless a `%s` comes last, whose `strcpy` ends it.
-/

namespace ZhuOS

open ByteMem Numerals

def percent : UInt8 := 37
def minus : UInt8 := 45

/-- The destination and `buf_ptr`. -/
structure Cursor where
  buf : Bytes
  ptr : Nat

/-- `*(buf_ptr++) = c` -/
def Cursor.put (cur : Cursor) (c : UInt8) : Cursor :=
  ⟨Function.update cur.buf cur.ptr c, cur.ptr + 1⟩

/-- `itoa`; its callers ask for the bases 10 and 16. -/
def itoa (base : Nat) (hb : 1 < base) (value : Nat) (cur : Cursor) : Cursor :=
  let m := value % base
  let i := value / base
  let cur := if _h : i ≠ 0 then itoa base hb i cur else cur
  if m < 10 then cur.put (.ofNat m + 48) else cur.put (.ofNat (m - 10) + 65)
termination_by value
decreasing_by
  have hne : value ≠ 0 := by
    rintro rfl
    exact _h (Nat.zero_div base)
  exact Nat.div_lt_self (Nat.pos_of_ne_zero hne) hb

/-- `strcpy` from `p` on, in a memory with `left` more bytes. -/
def strcpyLoop (src : Bytes) : (left p : Nat) → Bytes → (at_ : Nat) → Bytes
  | 0, _, dst, _ => dst
  | left + 1, p, dst, at_ =>
    let dst := Function.update dst at_ (src p)
    if src p = 0 then dst else strcpyLoop src left (p + 1) dst (at_ + 1)

/-- `strcpy(buf_ptr, arg_str)` and the step over the string; both functions check the pointer. -/
def Cursor.puts (cur : Cursor) (mem : Bytes) (argStr : UInt32) : Except Fault Cursor := do
  ASSERT (argStr ≠ 0)
  let str := shift mem argStr.toNat
  return ⟨strcpyLoop str (2 ^ 32) 0 cur.buf cur.ptr, cur.ptr + strlenIn str (2 ^ 32) 0⟩

/-- `va_arg`: the next word on the stack. -/
def vaArg : List UInt32 → Except Fault (UInt32 × List UInt32)
  | [] => .error .outOfBounds
  | arg :: ap => return (arg, ap)

/-- `%d`; the least value is its own negative, and `itoa` takes it as unsigned. -/
def putInt (argInt : Int32) (cur : Cursor) : Cursor :=
  if argInt < 0 then itoa 10 (by decide) (0 - argInt).toUInt32.toNat (cur.put minus)
  else itoa 10 (by decide) argInt.toUInt32.toNat cur

/-- The loop of `vsprintf`: the characters from `index_ptr` on, the arguments behind `ap`, and the
memory in which the strings lie. A character behind `%` that is no directive is taken as it
stands. -/
def vsprintfLoop (mem : Bytes) : (format : List UInt8) → (ap : List UInt32) → Cursor →
    Except Fault Cursor
  | [], _, cur => return cur
  | [indexChar], _, cur => return if indexChar ≠ percent then cur.put indexChar else cur
  | indexChar :: directive :: rest, ap, cur =>
    if indexChar ≠ percent then vsprintfLoop mem (directive :: rest) ap (cur.put indexChar)
    else if directive = 120 then do
      let (argInt, ap) ← vaArg ap
      vsprintfLoop mem rest ap (itoa 16 (by decide) argInt.toNat cur)
    else if directive = 115 then do
      let (argStr, ap) ← vaArg ap
      vsprintfLoop mem rest ap (← cur.puts mem argStr)
    else if directive = 99 then do
      let (arg, ap) ← vaArg ap
      vsprintfLoop mem rest ap (cur.put arg.toUInt8)
    else if directive = 100 then do
      let (argInt, ap) ← vaArg ap
      vsprintfLoop mem rest ap (putInt argInt.toInt32 cur)
    else vsprintfLoop mem (directive :: rest) ap cur

/-- `vsprintf`: `strlen(str)`, and the destination as it is then. -/
def vsprintf (mem str : Bytes) (format : List UInt8) (ap : List UInt32) :
    Except Fault (Nat × Bytes) := do
  let cur ← vsprintfLoop mem format ap ⟨str, 0⟩
  return (strlenIn cur.buf (2 ^ 32) 0, cur.buf)

/-- `sprintf`, with the arguments behind `format` on the stack. -/
def sprintf (mem buf : Bytes) (format : List UInt8) (args : List UInt32) :
    Except Fault (Nat × Bytes) := vsprintf mem buf format args

/-! ## What a step writes -/

/-- The text stands between the cursors, then a zero byte if `nul`, and the rest is as it was. -/
structure Emitted (cur cur' : Cursor) (text : List UInt8) (nul : Prop) : Prop where
  ptr : cur'.ptr = cur.ptr + text.length
  text : ∀ i (h : i < text.length), cur'.buf (cur.ptr + i) = text[i]
  ended : nul → cur'.buf cur'.ptr = 0
  kept : ¬ nul → cur'.buf cur'.ptr = cur.buf cur'.ptr
  outside : ∀ a, a < cur.ptr ∨ cur'.ptr < a → cur'.buf a = cur.buf a

namespace Emitted

variable {cur cur₁ cur' : Cursor} {text text' : List UInt8} {nul nul' : Prop}

theorem none (cur : Cursor) : Emitted cur cur [] False :=
  ⟨rfl, fun _ h => absurd h (Nat.not_lt_zero _), False.elim, fun _ => rfl, fun _ _ => rfl⟩

theorem put (cur : Cursor) (c : UInt8) : Emitted cur (cur.put c) [c] False where
  ptr := rfl
  text i h := by
    obtain rfl : i = 0 := by simpa using h
    exact Function.update_self ..
  ended h := h.elim
  kept _ := Function.update_of_ne (Nat.succ_ne_self _) ..
  outside a h := Function.update_of_ne (by change a < cur.ptr ∨ cur.ptr + 1 < a at h; omega) ..

/-- Of the zero bytes the last one stays, and the one before an empty text. -/
theorem trans (h : Emitted cur cur₁ text nul) (h' : Emitted cur₁ cur' text' nul')
    (hempty : text' = [] → nul → nul') : Emitted cur cur' (text ++ text') nul' where
  ptr := by
    rw [h'.ptr, h.ptr, List.length_append, Nat.add_assoc]
  text i hi := by
    have hptr := h.ptr
    rw [List.length_append] at hi
    by_cases hlt : i < text.length
    · rw [List.getElem_append_left hlt, h'.outside _ (.inl (by omega)), h.text i hlt]
    · rw [List.getElem_append_right (by omega), ← h'.text _ (by omega), h.ptr]
      congr 1
      omega
  ended := h'.ended
  kept hnot := by
    have hptr := h'.ptr
    rw [h'.kept hnot]
    cases text' with
    | nil =>
      have hsame : cur'.ptr = cur₁.ptr := hptr
      rw [hsame]
      exact h.kept fun hn => hnot (hempty rfl hn)
    | cons c text' =>
      rw [List.length_cons] at hptr
      exact h.outside _ (.inr (by omega))
  outside a ha := by
    have hptr := h.ptr
    have hptr' := h'.ptr
    have hout : a < cur.ptr ∨ cur₁.ptr < a := by omega
    rw [h'.outside a (by omega), h.outside a hout]

end Emitted

theorem itoa_wrote (base : Nat) (hb : 1 < base) (value : Nat) (cur : Cursor) :
    Emitted cur (itoa base hb value cur) (numeral base value) False := by
  induction value using Nat.strongRecOn generalizing cur with
  | ind value ih =>
    have hdigit : ∀ cur : Cursor, (if value % base < 10 then cur.put (.ofNat (value % base) + 48)
        else cur.put (.ofNat (value % base - 10) + 65)) = cur.put (digitChar (value % base)) := by
      intro cur
      unfold digitChar
      split <;> rfl
    rw [itoa, numeral_step hb]
    simp only [hdigit]
    by_cases hi : value / base = 0
    · rw [dif_neg (not_not.mpr hi), if_pos hi]
      exact .put cur _
    · rw [dif_pos hi, if_neg hi]
      have hlt : value / base < value :=
        Nat.div_lt_self (Nat.pos_of_ne_zero fun h => hi (by rw [h, Nat.zero_div])) hb
      exact (ih _ hlt cur).trans (.put _ _) fun h => absurd h (List.cons_ne_nil _ _)

theorem strcpyLoop_copies (src : Bytes) (left p : Nat) (dst : Bytes) (at_ : Nat)
    {m : List UInt8} (h : CStringAt src p m) (hleft : m.length < left) :
    (∀ i (hi : i < m.length), strcpyLoop src left p dst at_ (at_ + i) = m[i]) ∧
      strcpyLoop src left p dst at_ (at_ + m.length) = 0 ∧
      ∀ a, a < at_ ∨ at_ + m.length < a → strcpyLoop src left p dst at_ a = dst a := by
  induction m generalizing left p dst at_ with
  | nil =>
    obtain ⟨left, rfl⟩ := Nat.exists_eq_add_one_of_ne_zero (Nat.ne_of_gt hleft)
    have hz := cStringAt_nil.mp h
    rw [strcpyLoop, if_pos hz, hz]
    refine ⟨fun i hi => absurd hi (Nat.not_lt_zero i), Function.update_self .., fun a ha => ?_⟩
    exact Function.update_of_ne (by change a < at_ ∨ at_ < a at ha; omega) ..
  | cons c m ih =>
    rw [List.length_cons] at hleft
    obtain ⟨left, rfl⟩ := Nat.exists_eq_add_one_of_ne_zero (n := left) (by omega)
    obtain ⟨hc, hb, hrest⟩ := cStringAt_cons.mp h
    obtain ⟨htext, hnul, hout⟩ := ih left (p + 1) (Function.update dst at_ (src p)) (at_ + 1)
      hrest (by omega)
    have hsum : ∀ i, at_ + 1 + i = at_ + (i + 1) := fun i => by omega
    rw [strcpyLoop, if_neg (hb ▸ hc)]
    refine ⟨fun i hi => ?_, ?_, fun a ha => ?_⟩
    · cases i with
      | zero =>
        rw [hout _ (.inl (by omega)), Nat.add_zero, Function.update_self, hb]
        rfl
      | succ i =>
        have hnext := htext i (by simpa using hi)
        rwa [hsum] at hnext
    · rwa [hsum] at hnul
    · rw [List.length_cons] at ha
      rw [hout a (by omega), Function.update_of_ne (by omega)]

theorem cStringAt_strLen {b : Bytes} {m : List UInt8} (h : CStringAt b 0 m) :
    StrLen b m.length where
  nul := by simpa using h.nul
  nonzero i hi := by
    have hbyte := h.bytes i hi
    rw [Nat.zero_add] at hbyte
    rw [hbyte]
    exact h.nonzero _ (List.getElem_mem hi)

theorem Cursor.puts_wrote {mem : Bytes} {argStr : UInt32} {m : List UInt8} (hne : argStr ≠ 0)
    (h : CStringAt mem argStr.toNat m) (hlen : m.length < 2 ^ 32) (cur : Cursor) :
    ∃ cur', cur.puts mem argStr = .ok cur' ∧ Emitted cur cur' m True := by
  have hstr : CStringAt (shift mem argStr.toNat) 0 m :=
    ⟨fun i hi => by rw [Nat.zero_add, shift_apply, h.bytes i hi], h.nonzero,
      by rw [Nat.zero_add, shift_apply, h.nul]⟩
  have hstrlen := (cStringAt_strLen hstr).strlenIn (2 ^ 32) 0 (Nat.zero_le _) (by omega)
  obtain ⟨htext, hnul, hout⟩ := strcpyLoop_copies _ (2 ^ 32) 0 cur.buf cur.ptr hstr hlen
  simp only [puts, ASSERT_true hne, ok_bind, hstrlen]
  exact ⟨_, rfl, rfl, htext, fun _ => hnul, fun h => absurd trivial h, hout⟩

/-! ## Formats and their text -/

/-- The four directives. -/
inductive Directive
  | x
  | s
  | c
  | d
  deriving DecidableEq

def Directive.char : Directive → UInt8
  | x => 120
  | s => 115
  | c => 99
  | d => 100

/-- A piece of a format string: a character as it stands, or `%` with its directive. -/
inductive Piece
  | lit (c : { c : UInt8 // c ≠ 0 ∧ c ≠ percent })
  | dir (k : Directive)

def Piece.bytes : Piece → List UInt8
  | lit c => [c]
  | dir k => [percent, k.char]

/-- The format string. -/
def spell (pieces : List Piece) : List UInt8 := pieces.flatMap Piece.bytes

/-- As many arguments as directives, with a string where one is asked for. -/
def Matches (mem : Bytes) : List Piece → List UInt32 → Prop
  | [], ap => ap = []
  | .lit _ :: pieces, ap => Matches mem pieces ap
  | .dir _ :: _, [] => False
  | .dir k :: pieces, arg :: ap =>
    (k = .s → arg ≠ 0 ∧ ∃ m, CStringAt mem arg.toNat m) ∧ Matches mem pieces ap

/-- No `%c` has a zero character. -/
def CharsNonzero : List Piece → List UInt32 → Prop
  | [], _ => True
  | .lit _ :: pieces, ap => CharsNonzero pieces ap
  | .dir _ :: _, [] => True
  | .dir k :: pieces, arg :: ap => (k = .c → arg.toUInt8 ≠ 0) ∧ CharsNonzero pieces ap

/-- The text is the signed number in decimal. -/
def CanonicalInt (v : Int) (text : List UInt8) : Prop :=
  if v < 0 then ∃ digits, text = minus :: digits ∧ Canonical 10 v.natAbs digits
  else Canonical 10 v.natAbs text

/-- What an argument looks like. -/
inductive Shows (mem : Bytes) (arg : UInt32) : Directive → List UInt8 → Prop
  | x {text : List UInt8} (h : Canonical 16 arg.toNat text) : Shows mem arg .x text
  | s {text : List UInt8} (h : CStringAt mem arg.toNat text) : Shows mem arg .s text
  | c : Shows mem arg .c [arg.toUInt8]
  | d {text : List UInt8} (h : CanonicalInt arg.toInt32.toInt text) : Shows mem arg .d text

/-- The text of a format with its arguments. -/
inductive Renders (mem : Bytes) : List Piece → List UInt32 → List UInt8 → Prop
  | nil : Renders mem [] [] []
  | lit {c : { c : UInt8 // c ≠ 0 ∧ c ≠ percent }} {pieces : List Piece} {ap : List UInt32}
      {text : List UInt8} (h : Renders mem pieces ap text) :
      Renders mem (.lit c :: pieces) ap (c.val :: text)
  | dir {k : Directive} {arg : UInt32} {shown : List UInt8} {pieces : List Piece}
      {ap : List UInt32} {text : List UInt8} (hk : Shows mem arg k shown)
      (h : Renders mem pieces ap text) :
      Renders mem (.dir k :: pieces) (arg :: ap) (shown ++ text)

section
variable {mem : Bytes} {pieces : List Piece} {ap : List UInt32} {text : List UInt8} {v : Int}

theorem spell_lit (c : { c : UInt8 // c ≠ 0 ∧ c ≠ percent }) (pieces : List Piece) :
    spell (.lit c :: pieces) = c.val :: spell pieces := rfl

theorem spell_dir (k : Directive) (pieces : List Piece) :
    spell (.dir k :: pieces) = percent :: k.char :: spell pieces := rfl

theorem CanonicalInt.nonzero (h : CanonicalInt v text) : ∀ c ∈ text, c ≠ 0 := by
  unfold CanonicalInt at h
  have hdigits : ∀ {text : List UInt8}, Canonical 10 v.natAbs text → ∀ c ∈ text, c ≠ 0 := by
    intro text h c hc
    obtain ⟨d, hd, rfl⟩ := h.digits c hc
    exact digitChar_ne_zero (by omega)
  split at h
  · obtain ⟨digits, rfl, h⟩ := h
    intro c hc
    obtain rfl | hc := List.mem_cons.mp hc
    · decide
    · exact hdigits h c hc
  · exact hdigits h

theorem CanonicalInt.nonempty (h : CanonicalInt v text) : text ≠ [] := by
  unfold CanonicalInt at h
  split at h
  · obtain ⟨digits, rfl, -⟩ := h
    exact List.cons_ne_nil _ _
  · exact h.nonempty

/-- The text of a signed number. -/
def intNumeral (v : Int) : List UInt8 :=
  if v < 0 then minus :: numeral 10 v.natAbs else numeral 10 v.natAbs

theorem intNumeral_canonical (v : Int) : CanonicalInt v (intNumeral v) := by
  have h := numeral_canonical (by decide : 1 < 10) (by decide) v.natAbs
  unfold CanonicalInt intNumeral
  split
  · exact ⟨_, rfl, h⟩
  · exact h

/-- The unsigned value of the negative of a negative number, the least one included. -/
theorem neg_toUInt32 {a : Int32} (h : a < 0) : (0 - a).toUInt32.toNat = a.toInt.natAbs := by
  have hneg : a.toInt < 0 := by
    rw [Int32.lt_iff_toInt_lt] at h
    exact h
  have hval : a.toInt = a.toBitVec.toInt := rfl
  rw [hval] at hneg ⊢
  change (0 - a.toBitVec).toNat = a.toBitVec.toInt.natAbs
  generalize a.toBitVec = x at *
  rw [BitVec.toInt_eq_toNat_cond] at *
  bv_omega

theorem toUInt32_of_nonneg {a : Int32} (h : ¬ a < 0) : a.toUInt32.toNat = a.toInt.natAbs := by
  have hpos : ¬ a.toInt < 0 := by
    rw [Int32.lt_iff_toInt_lt] at h
    exact h
  have hval : a.toInt = a.toBitVec.toInt := rfl
  rw [hval] at hpos ⊢
  change a.toBitVec.toNat = a.toBitVec.toInt.natAbs
  generalize a.toBitVec = x at *
  rw [BitVec.toInt_eq_toNat_cond] at *
  bv_omega

theorem putInt_wrote (argInt : Int32) (cur : Cursor) :
    Emitted cur (putInt argInt cur) (intNumeral argInt.toInt) False := by
  have hiff : argInt < 0 ↔ argInt.toInt < 0 := Int32.lt_iff_toInt_lt
  unfold putInt intNumeral
  by_cases hneg : argInt < 0
  · rw [if_pos hneg, if_pos (hiff.mp hneg), neg_toUInt32 hneg]
    exact (Emitted.put cur minus).trans (itoa_wrote ..) fun _ h => h
  · rw [if_neg hneg, if_neg fun h => hneg (hiff.mpr h), toUInt32_of_nonneg hneg]
    exact itoa_wrote ..

/-- The format ends with `%s`. -/
def EndsWithString (pieces : List Piece) : Prop := pieces.getLast? = some (.dir .s)

theorem endsWithString_cons {piece : Piece} (hne : pieces ≠ []) :
    EndsWithString (piece :: pieces) ↔ EndsWithString pieces := by
  unfold EndsWithString
  rw [List.getLast?_cons_of_ne_nil hne]

/-- A text is empty when nothing but empty strings makes it up. -/
theorem Renders.empty (h : Renders mem pieces ap []) (hne : pieces ≠ []) :
    EndsWithString pieces := by
  generalize hnil : ([] : List UInt8) = text at h
  induction h with
  | nil => exact absurd rfl hne
  | lit h ih => cases hnil
  | @dir k arg shown pieces ap text hk h ih =>
    obtain ⟨rfl, rfl⟩ := List.append_eq_nil_iff.mp hnil.symm
    by_cases hrest : pieces = []
    · subst hrest
      cases hk with
      | x h => exact absurd rfl h.nonempty
      | s h => rfl
      | d h => exact absurd rfl h.nonempty
    · exact (endsWithString_cons hrest).mpr (ih hrest rfl)

theorem CanonicalInt.eq_intNumeral (h : CanonicalInt v text) : text = intNumeral v := by
  unfold CanonicalInt at h
  unfold intNumeral
  split at h
  · rename_i hneg
    obtain ⟨digits, rfl, h⟩ := h
    rw [if_pos hneg, h.eq_numeral (by decide) (by decide)]
  · rename_i hpos
    rw [if_neg hpos, h.eq_numeral (by decide) (by decide)]

/-- Every matching argument list has a text. -/
theorem Matches.renders (h : Matches mem pieces ap) : ∃ text, Renders mem pieces ap text := by
  induction pieces generalizing ap with
  | nil =>
    obtain rfl : ap = [] := h
    exact ⟨[], .nil⟩
  | cons piece pieces ih =>
    cases piece with
    | lit c =>
      obtain ⟨text, htext⟩ := ih h
      exact ⟨_, .lit htext⟩
    | dir k =>
      cases ap with
      | nil => exact h.elim
      | cons arg ap =>
        obtain ⟨hstr, hrest⟩ := h
        obtain ⟨text, htext⟩ := ih hrest
        have hshown : ∃ shown, Shows mem arg k shown := by
          cases k with
          | x => exact ⟨_, .x (numeral_canonical (by decide) (by decide) _)⟩
          | s =>
            obtain ⟨-, m, hm⟩ := hstr rfl
            exact ⟨m, .s hm⟩
          | c => exact ⟨_, .c⟩
          | d => exact ⟨_, .d (intNumeral_canonical _)⟩
        obtain ⟨shown, hshown⟩ := hshown
        exact ⟨_, .dir hshown htext⟩

/-! ## `vsprintf` -/

theorem vsprintfLoop_lit {c : UInt8} (hc : c ≠ percent) (rest : List UInt8) (ap : List UInt32)
    (cur : Cursor) :
    vsprintfLoop mem (c :: rest) ap cur = vsprintfLoop mem rest ap (cur.put c) := by
  cases rest with
  | nil => simp only [vsprintfLoop, if_pos hc]
  | cons directive rest => rw [vsprintfLoop, if_pos hc]

/-- A directive writes its argument, and the loop goes on behind it. -/
theorem vsprintfLoop_dir {k : Directive} {arg : UInt32} {shown : List UInt8}
    (hk : Shows mem arg k shown) (hstr : k = .s → arg ≠ 0) (hlen : shown.length < 2 ^ 32)
    (rest : List UInt8) (ap : List UInt32) (cur : Cursor) : ∃ cur',
      vsprintfLoop mem (percent :: k.char :: rest) (arg :: ap) cur =
        vsprintfLoop mem rest ap cur' ∧ Emitted cur cur' shown (k = .s) := by
  have hnot : ¬ percent ≠ percent := fun h => h rfl
  rw [vsprintfLoop, if_neg hnot]
  cases hk with
  | x h =>
    rw [h.eq_numeral (by decide) (by decide)]
    exact ⟨_, rfl, by simpa using itoa_wrote 16 (by decide) arg.toNat cur⟩
  | s h =>
    obtain ⟨cur', hputs, hwrote⟩ := cur.puts_wrote (hstr rfl) h hlen
    refine ⟨cur', ?_, by simpa using hwrote⟩
    have hchar : Directive.s.char = 115 := rfl
    have hx : ¬ (115 : UInt8) = 120 := by decide
    simp only [hchar, if_neg hx, ↓reduceIte, vaArg, pure_bind, hputs, ok_bind]
  | c => exact ⟨_, rfl, by simpa using Emitted.put cur arg.toUInt8⟩
  | d h =>
    rw [h.eq_intNumeral]
    exact ⟨_, rfl, by simpa using putInt_wrote arg.toInt32 cur⟩

/-- The induction is on the pieces; what the last one leaves behind its text stays there. -/
theorem vsprintfLoop_wrote (h : Renders mem pieces ap text) (hm : Matches mem pieces ap)
    (hlen : text.length < 2 ^ 32) (cur : Cursor) : ∃ cur',
      vsprintfLoop mem (spell pieces) ap cur = .ok cur' ∧
        Emitted cur cur' text (EndsWithString pieces) := by
  induction h generalizing cur with
  | nil => exact ⟨cur, rfl, by simpa [EndsWithString] using Emitted.none cur⟩
  | @lit c pieces ap text h ih =>
    rw [List.length_cons] at hlen
    obtain ⟨cur', hrun, hwrote⟩ := ih hm (by omega) (cur.put c.val)
    rw [spell_lit, vsprintfLoop_lit c.property.2]
    refine ⟨cur', hrun, ?_⟩
    have hboth : Emitted cur cur' (c.val :: text) (EndsWithString pieces) :=
      (Emitted.put cur c.val).trans hwrote fun _ h => h.elim
    by_cases hrest : pieces = []
    · subst hrest
      simpa [EndsWithString] using hboth
    · simpa only [endsWithString_cons hrest] using hboth
  | @dir k arg shown pieces ap text hk h ih =>
    rw [List.length_append] at hlen
    obtain ⟨hstr, hm⟩ := hm
    rw [spell_dir]
    obtain ⟨cur₁, hstep, hshown⟩ := @vsprintfLoop_dir mem k arg shown hk (fun hs => (hstr hs).1)
      (by omega) (spell pieces) ap cur
    obtain ⟨cur', hrun, hwrote⟩ := ih hm (by omega) cur₁
    refine ⟨cur', hstep.trans hrun, ?_⟩
    by_cases hrest : pieces = []
    · subst hrest
      cases h
      cases hrun
      have hends : EndsWithString [.dir k] ↔ k = .s := by simp [EndsWithString]
      simpa only [List.append_nil, hends] using hshown
    · simp only [endsWithString_cons hrest]
      refine hshown.trans hwrote fun hempty _ => ?_
      subst hempty
      exact h.empty hrest

theorem Renders.nonzero (h : Renders mem pieces ap text) (hc : CharsNonzero pieces ap) :
    ∀ c ∈ text, c ≠ 0 := by
  induction h with
  | nil => exact fun c hc => (nomatch hc)
  | @lit c pieces ap text h ih =>
    intro b hb
    obtain rfl | hb := List.mem_cons.mp hb
    · exact c.property.1
    · exact ih hc b hb
  | @dir k arg shown pieces ap text hk h ih =>
    obtain ⟨hchar, hc⟩ := hc
    intro b hb
    obtain hb | hb := List.mem_append.mp hb
    · cases hk with
      | x h =>
        obtain ⟨d, hd, rfl⟩ := h.digits b hb
        exact digitChar_ne_zero (by omega)
      | s h => exact h.nonzero b hb
      | c => exact (List.mem_singleton.mp hb) ▸ hchar rfl
      | d h => exact h.nonzero b hb
    · exact ih hc b hb

/-- In a destination of zeros the text stands as a string. -/
theorem vsprintf_renders (hm : Matches mem pieces ap) (hc : CharsNonzero pieces ap) :
    ∃ text, Renders mem pieces ap text ∧ ∀ (str : Bytes) (size : Nat), size ≤ 2 ^ 32 →
      text.length < size → (∀ i < size, str i = 0) → ∃ out,
        vsprintf mem str (spell pieces) ap = .ok (text.length, out) ∧ CStringAt out 0 text ∧
          ∀ i, size ≤ i → out i = str i := by
  obtain ⟨text, h⟩ := hm.renders
  refine ⟨text, h, fun str size hsize hlen hzero => ?_⟩
  obtain ⟨cur, hrun, hwrote⟩ := vsprintfLoop_wrote h hm (by omega) ⟨str, 0⟩
  have hptr : cur.ptr = text.length := hwrote.ptr.trans (Nat.zero_add _)
  have hstring : CStringAt cur.buf 0 text := by
    refine ⟨fun i hi => hwrote.text i hi, h.nonzero hc, ?_⟩
    rw [Nat.zero_add, ← hptr]
    by_cases hends : EndsWithString pieces
    · exact hwrote.ended hends
    · rw [hwrote.kept hends]
      exact hzero _ (by omega)
  refine ⟨cur.buf, ?_, hstring, fun i hi => hwrote.outside i (.inr (by omega))⟩
  have hstrlen := (cStringAt_strLen hstring).strlenIn (2 ^ 32) 0 (Nat.zero_le _) (by omega)
  simp only [vsprintf, hrun, ok_bind, hstrlen]
  rfl

/-- `%s` in the example, at the address 4096. -/
def sdbMem : Bytes := fun a => ([115, 100, 98] : List UInt8).getD (a - 4096) 0

theorem sdbMem_string : CStringAt sdbMem 4096 [115, 100, 98] := by
  refine ⟨fun i hi => ?_, by simp, rfl⟩
  have hi : i < 3 := hi
  interval_cases i <;> rfl

/-- `%s%d %x%c` with `sdb`, the least integer, 255 and `!`. -/
theorem vsprintf_renders_least : ∃ text,
    Renders sdbMem [.dir .s, .dir .d, .lit ⟨32, by decide⟩, .dir .x, .dir .c]
      [4096, 0x80000000, 255, 33] text ∧
    ∀ (str : Bytes) (size : Nat), size ≤ 2 ^ 32 → text.length < size → (∀ i < size, str i = 0) →
      ∃ out, vsprintf sdbMem str (spell [.dir .s, .dir .d, .lit ⟨32, by decide⟩, .dir .x, .dir .c])
        [4096, 0x80000000, 255, 33] = .ok (text.length, out) ∧ CStringAt out 0 text ∧
          ∀ i, size ≤ i → out i = str i :=
  vsprintf_renders
    ⟨fun _ => ⟨by decide, _, sdbMem_string⟩, nofun, nofun, nofun, rfl⟩
    ⟨nofun, nofun, nofun, fun _ => by decide, trivial⟩

/-! ## `sprintf` -/

/-- The two buffers hold one string. -/
def SameString (out out' : Bytes) : Prop := ∃ m, CStringAt out 0 m ∧ CStringAt out' 0 m

theorem SameString.strlenIn {out out' : Bytes} (h : SameString out out') (left : Nat) :
    ZhuOS.strlenIn out left 0 = ZhuOS.strlenIn out' left 0 := by
  obtain ⟨m, hm, hm'⟩ := h
  rw [(cStringAt_strLen hm).strlenIn_min left 0 (Nat.zero_le _),
    (cStringAt_strLen hm').strlenIn_min left 0 (Nat.zero_le _)]

/-- The string in a destination that ends with none of `sprintf`'s zero bytes goes on with what
was there. -/
theorem Emitted.string_iff {str : Bytes} {cur : Cursor} {m : List UInt8}
    (h : Emitted ⟨str, 0⟩ cur text False) (hnonzero : ∀ c ∈ text, c ≠ 0) :
    CStringAt cur.buf 0 m ↔ ∃ t, m = text ++ t ∧ CStringAt str text.length t := by
  have hptr : cur.ptr = text.length := h.ptr.trans (Nat.zero_add _)
  have hbehind : ∀ a, text.length ≤ a → cur.buf a = str a := by
    intro a ha
    obtain rfl | hlt := Nat.eq_or_lt_of_le ha
    · rw [← hptr]
      exact h.kept not_false
    · exact h.outside a (.inr (by omega))
  rw [cStringAt_append (fun i hi => h.text i hi) hnonzero, Nat.zero_add]
  constructor
  · rintro ⟨t, rfl, ht⟩
    exact ⟨t, rfl, ht.congr fun a ha => (hbehind a ha).symm⟩
  · rintro ⟨t, rfl, ht⟩
    exact ⟨t, rfl, ht.congr hbehind⟩

/-- The zero byte of a last `%s` ends the text. -/
theorem Emitted.string {str : Bytes} {cur : Cursor} (h : Emitted ⟨str, 0⟩ cur text True)
    (hnonzero : ∀ c ∈ text, c ≠ 0) : CStringAt cur.buf 0 text := by
  refine ⟨fun i hi => h.text i hi, hnonzero, ?_⟩
  rw [← h.ptr]
  exact h.ended trivial

/-- What the destination held before does not matter just when a zero character or a last `%s`
ends the text, or both buffers go on alike. -/
theorem sprintf_same_iff (h : Renders mem pieces ap text) (hm : Matches mem pieces ap)
    (hlen : text.length < 2 ^ 32) (buf buf' : Bytes) : ∃ r out r' out',
      sprintf mem buf (spell pieces) ap = .ok (r, out) ∧
      sprintf mem buf' (spell pieces) ap = .ok (r', out') ∧
      (SameString out out' ∧ r = r' ↔ 0 ∈ text ∨ EndsWithString pieces ∨
        ∃ t, CStringAt buf text.length t ∧ CStringAt buf' text.length t) := by
  obtain ⟨cur, hrun, hwrote⟩ := vsprintfLoop_wrote h hm hlen ⟨buf, 0⟩
  obtain ⟨cur', hrun', hwrote'⟩ := vsprintfLoop_wrote h hm hlen ⟨buf', 0⟩
  refine ⟨strlenIn cur.buf (2 ^ 32) 0, cur.buf, strlenIn cur'.buf (2 ^ 32) 0, cur'.buf, ?_, ?_, ?_⟩
  · simp only [sprintf, vsprintf, hrun, ok_bind]
    rfl
  · simp only [sprintf, vsprintf, hrun', ok_bind]
    rfl
  rw [and_iff_left_of_imp fun hsame => hsame.strlenIn _]
  by_cases hzero : 0 ∈ text
  · refine iff_of_true ⟨text.takeWhile (· ≠ 0), ?_, ?_⟩ (.inl hzero)
    · exact cStringAt_takeWhile (fun i hi => hwrote.text i hi) hzero
    · exact cStringAt_takeWhile (fun i hi => hwrote'.text i hi) hzero
  have hnonzero : ∀ c ∈ text, c ≠ 0 := fun c hc he => hzero (he ▸ hc)
  rw [or_iff_right hzero]
  by_cases hends : EndsWithString pieces
  · simp only [hends] at hwrote hwrote'
    exact iff_of_true ⟨text, hwrote.string hnonzero, hwrote'.string hnonzero⟩ (.inl hends)
  rw [or_iff_right hends]
  simp only [hends] at hwrote hwrote'
  constructor
  · rintro ⟨m, hout, hout'⟩
    obtain ⟨t, rfl, ht⟩ := (hwrote.string_iff hnonzero).mp hout
    obtain ⟨t', heq, ht'⟩ := (hwrote'.string_iff hnonzero).mp hout'
    obtain rfl := List.append_cancel_left heq
    exact ⟨t, ht, ht'⟩
  · rintro ⟨t, ht, ht'⟩
    exact ⟨text ++ t, (hwrote.string_iff hnonzero).mpr ⟨t, rfl, ht⟩,
      (hwrote'.string_iff hnonzero).mpr ⟨t, rfl, ht'⟩⟩

end

/-- `sd%c`, the name of a disk. -/
def diskName : List Piece := [.lit ⟨115, by decide⟩, .lit ⟨100, by decide⟩, .dir .c]

theorem diskName_renders (mem : Bytes) : Renders mem diskName [98] [115, 100, 98] :=
  .lit (.lit (.dir .c .nil))

theorem diskName_matches (mem : Bytes) : Matches mem diskName [98] := ⟨nofun, rfl⟩

/-- Eight characters that nobody has cleared. -/
def xBuffer : Bytes := fun a => if a < 8 then 88 else 0

theorem sprintf_same_iff_disk : ∃ r out r' out',
    sprintf (fun _ => 0) (fun _ => 0) (spell diskName) [98] = .ok (r, out) ∧
    sprintf (fun _ => 0) xBuffer (spell diskName) [98] = .ok (r', out') ∧
    (SameString out out' ∧ r = r' ↔ (0 : UInt8) ∈ ([115, 100, 98] : List UInt8) ∨
      EndsWithString diskName ∨ ∃ t, CStringAt (fun _ => 0) ([115, 100, 98] : List UInt8).length t ∧
        CStringAt xBuffer ([115, 100, 98] : List UInt8).length t) :=
  sprintf_same_iff (diskName_renders _) (diskName_matches _) (by decide) (fun _ => 0) xBuffer

/-- The name is `sdb` in a buffer of zeros and `sdbXXXXX` in the other. -/
theorem sprintf_keeps_rest : Matches (fun _ => 0) diskName [98] ∧ ∃ r out r' out',
    sprintf (fun _ => 0) (fun _ => 0) (spell diskName) [98] = .ok (r, out) ∧
    sprintf (fun _ => 0) xBuffer (spell diskName) [98] = .ok (r', out') ∧
    ¬ (SameString out out' ∧ r = r') := by
  refine ⟨diskName_matches _, 3, _, 8, _, rfl, rfl, fun h => ?_⟩
  exact absurd h.2 (by decide)

end ZhuOS
