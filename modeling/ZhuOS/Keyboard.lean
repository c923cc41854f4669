import Mathlib.Data.List.Induction
import Mathlib.Data.UInt
import ZhuOS.Machine

/-!
# `device/keyboard.c`

The two keys of a modifier share one flag, and the release of either clears it.
-/

namespace ZhuOS.Keyboard

def esc : Char := Char.ofNat 0x1b
def backspace : Char := Char.ofNat 0x08
def tab : Char := Char.ofNat 0x09
def enter : Char := Char.ofNat 0x0d
def invisible : Char := Char.ofNat 0
def quote : Char := Char.ofNat 0x27
def doubleQuote : Char := Char.ofNat 0x22
def backquote : Char := Char.ofNat 0x60
def backslash : Char := Char.ofNat 0x5c
def openBrace : Char := Char.ofNat 0x7b
def closeBrace : Char := Char.ofNat 0x7d

def shiftLMake : UInt16 := 0x2a
def shiftRMake : UInt16 := 0x36
def altLMake : UInt16 := 0x38
def altRMake : UInt16 := 0xe038
def ctrlLMake : UInt16 := 0x1d
def ctrlRMake : UInt16 := 0xe01d
def capsLockMake : UInt16 := 0x3a

/-- The characters of a make code, without shift and with it. -/
def keymap : List (Char × Char) :=
  [(invisible, invisible), (esc, esc), ('1', '!'), ('2', '@'), ('3', '#'), ('4', '$'),
    ('5', '%'), ('6', '^'), ('7', '&'), ('8', '*'), ('9', '('), ('0', ')'), ('-', '_'),
    ('=', '+'), (backspace, backspace), (tab, tab), ('q', 'Q'), ('w', 'W'), ('e', 'E'),
    ('r', 'R'), ('t', 'T'), ('y', 'Y'), ('u', 'U'), ('i', 'I'), ('o', 'O'), ('p', 'P'),
    ('[', openBrace), (']', closeBrace), (enter, enter), (invisible, invisible), ('a', 'A'),
    ('s', 'S'), ('d', 'D'), ('f', 'F'), ('g', 'G'), ('h', 'H'), ('j', 'J'), ('k', 'K'),
    ('l', 'L'), (';', ':'), (quote, doubleQuote), (backquote, '~'), (invisible, invisible),
    (backslash, '|'), ('z', 'Z'), ('x', 'X'), ('c', 'C'), ('v', 'V'), ('b', 'B'), ('n', 'N'),
    ('m', 'M'), (',', '<'), ('.', '>'), ('/', '?'), (invisible, invisible), ('*', '*'),
    (invisible, invisible), (' ', ' '), (invisible, invisible)]

/-- The flags, the characters put into `kbd_buf` and what was shown. -/
structure State where
  ctrlStatus : Bool
  shiftStatus : Bool
  altStatus : Bool
  capsLockStatus : Bool
  /-- the last byte was the prefix `0xe0` -/
  extScancode : Bool
  put : List Char
  shown : List Char

/-- Which column of `keymap` a press picks. -/
def shifted (scancode : UInt16) (shiftDownLast capsLockLast : Bool) : Bool :=
  if scancode < 0x0e ∨ scancode = 0x29 ∨ scancode = 0x1a ∨ scancode = 0x1b ∨ scancode = 0x2b ∨
      scancode = 0x27 ∨ scancode = 0x28 ∨ scancode = 0x33 ∨ scancode = 0x34 ∨
      scancode = 0x35 then shiftDownLast
  else if shiftDownLast ∧ capsLockLast then false
  else if shiftDownLast ∨ capsLockLast then true
  else false

/-- The handler at a break code. -/
def keyUp (k : State) (scancode : UInt16) : State :=
  let makeCode := scancode &&& 0xff7f
  if makeCode = ctrlLMake ∨ makeCode = ctrlRMake then { k with ctrlStatus := false }
  else if makeCode = shiftLMake ∨ makeCode = shiftRMake then { k with shiftStatus := false }
  else if makeCode = altLMake ∨ makeCode = altRMake then { k with altStatus := false }
  else k

/-- `keymap[index][shift]` -/
def curChar (index : UInt16) (shift : Bool) : Except Fault Char :=
  match keymap[index.toNat]? with
  | some (c, c') => return if shift then c' else c
  | none => .error .outOfBounds

/-- The handler at a make code that it knows; `full` is the answer of `ioq_full(&kbd_buf)`. -/
def keyDown (k : State) (full : Bool) (scancode : UInt16) : Except Fault State := do
  let shift := shifted scancode k.shiftStatus k.capsLockStatus
  let scancode := scancode &&& 0x00ff
  let c ← curChar scancode shift
  if c ≠ invisible then
    return if full then k else { k with put := k.put ++ [c], shown := k.shown ++ [c] }
  else if scancode = ctrlLMake ∨ scancode = ctrlRMake then return { k with ctrlStatus := true }
  else if scancode = shiftLMake ∨ scancode = shiftRMake then
    return { k with shiftStatus := true }
  else if scancode = altLMake ∨ scancode = altRMake then return { k with altStatus := true }
  else if scancode = capsLockMake then return { k with capsLockStatus := !k.capsLockStatus }
  else return k

/-- The make codes that the handler looks up. -/
def Known (scancode : UInt16) : Prop :=
  0x00 < scancode ∧ scancode < 0x3b ∨ scancode = altRMake ∨ scancode = ctrlRMake

instance (scancode : UInt16) : Decidable (Known scancode) := by unfold Known; infer_instance

def intrKeyboardHandler (k : State) (full : Bool) (byte : UInt8) : Except Fault State :=
  let scancode := byte.toUInt16
  if scancode = 0xe0 then return { k with extScancode := true }
  else
    let scancode := if k.extScancode then 0xe000 ||| scancode else scancode
    let k := { k with extScancode := false }
    if scancode &&& 0x0080 ≠ 0 then return keyUp k scancode
    else if Known scancode then keyDown k full scancode
    else return { k with shown := k.shown ++ "unknown key\n".toList }

/-- The flags are static. -/
def booted : State := ⟨false, false, false, false, false, [], []⟩

/-! ## The keys -/

/-- A key, by its make code and whether the prefix comes before it. With the code `0x60` its
break code would be the prefix. -/
@[ext] structure Key where
  extended : Bool
  code : Fin 128
  valid : code ≠ 0 ∧ code ≠ 0x60
  deriving DecidableEq

inductive Modifier
  | shift
  | ctrl
  | alt
  deriving DecidableEq

namespace Modifier

def left : Modifier → Key
  | shift => ⟨false, 0x2a, by decide⟩
  | ctrl => ⟨false, 0x1d, by decide⟩
  | alt => ⟨false, 0x38, by decide⟩

def right : Modifier → Key
  | shift => ⟨false, 0x36, by decide⟩
  | ctrl => ⟨true, 0x1d, by decide⟩
  | alt => ⟨true, 0x38, by decide⟩

def status (k : State) : Modifier → Bool
  | shift => k.shiftStatus
  | ctrl => k.ctrlStatus
  | alt => k.altStatus

end Modifier

/-- A key goes down or comes up, `kbd_buf` being full or not. -/
structure Stroke where
  key : Key
  down : Bool
  full : Bool

def Stroke.scancodes (stroke : Stroke) : List UInt8 :=
  let code := UInt8.ofNat stroke.key.code
  (if stroke.key.extended then [0xe0] else []) ++ [if stroke.down then code else code ||| 0x80]

/-- The interrupts of a stroke. -/
def stroke (k : State) (stroke : Stroke) : Except Fault State :=
  stroke.scancodes.foldlM (intrKeyboardHandler · stroke.full) k

def typed (strokes : List Stroke) : Except Fault State := strokes.foldlM stroke booted

/-- The keys that are down. -/
def held (strokes : List Stroke) : Key → Bool :=
  strokes.foldl (fun held stroke => Function.update held stroke.key stroke.down) fun _ => false

/-- Each flag says whether one of its two keys is down. -/
def Exact (held : Key → Bool) (k : State) : Prop :=
  ∀ m : Modifier, m.status k = (held m.left || held m.right)

/-- The stroke does not let go of a modifier key while the other one is down. -/
def Alone (held : Key → Bool) (stroke : Stroke) : Prop :=
  stroke.down = false → ∀ m : Modifier,
    (stroke.key = m.left → held m.right = false) ∧ (stroke.key = m.right → held m.left = false)

variable {k : State} {full : Bool} {scancode : UInt16} {held : Key → Bool}

/-- The make code with its prefix, as the handler puts them together. -/
def Key.make (key : Key) : UInt16 :=
  let code := (UInt8.ofNat key.code).toUInt16
  if key.extended then 0xe000 ||| code else code

/-- What both bytes of a code are to the handler, the make code `c` behind a prefix or not. -/
theorem make_bits : ∀ (ext : Bool) (c : Fin 128),
    let make := if ext then 0xe000 ||| (UInt8.ofNat c).toUInt16 else (UInt8.ofNat c).toUInt16
    let broken := if ext then 0xe000 ||| (UInt8.ofNat c ||| 0x80).toUInt16
      else (UInt8.ofNat c ||| 0x80).toUInt16
    (UInt8.ofNat c).toUInt16 ≠ 0xe0 ∧ make &&& 0x0080 = 0 ∧ broken &&& 0x0080 ≠ 0 ∧
      broken &&& 0xff7f = make ∧ (c ≠ 0x60 → (UInt8.ofNat c ||| 0x80).toUInt16 ≠ 0xe0) := by
  decide +kernel

/-- The codes by which the handler knows a modifier's keys. -/
def Modifier.makes : Modifier → UInt16 × UInt16
  | shift => (shiftLMake, shiftRMake)
  | ctrl => (ctrlLMake, ctrlRMake)
  | alt => (altLMake, altRMake)

def Modifier.Has (m : Modifier) (scancode : UInt16) : Prop :=
  scancode = m.makes.1 ∨ scancode = m.makes.2

instance (m : Modifier) (scancode : UInt16) : Decidable (m.Has scancode) := by
  unfold Modifier.Has
  infer_instance

theorem Modifier.has_make (m : Modifier) (key : Key) :
    m.Has key.make ↔ key = m.left ∨ key = m.right := by
  have hall : ∀ (m : Modifier) (ext : Bool) (c : Fin 128),
      m.Has (if ext then 0xe000 ||| (UInt8.ofNat c).toUInt16 else (UInt8.ofNat c).toUInt16) ↔
        (ext = m.left.extended ∧ c = m.left.code) ∨
          (ext = m.right.extended ∧ c = m.right.code) := by
    intro m
    cases m <;> decide +kernel
  rw [Key.make, hall]
  simp only [Key.ext_iff]

theorem keyUp_status (k : State) (scancode : UInt16) :
    (keyUp k scancode).extScancode = k.extScancode ∧ ∀ m : Modifier,
      m.status (keyUp k scancode) = if m.Has (scancode &&& 0xff7f) then false else m.status k := by
  unfold keyUp
  generalize scancode &&& 0xff7f = make
  by_cases hctrl : make = ctrlLMake ∨ make = ctrlRMake
  · refine ⟨by rw [if_pos hctrl], fun m => ?_⟩
    rw [if_pos hctrl]
    obtain rfl | rfl := hctrl <;> cases m <;> rfl
  by_cases hshift : make = shiftLMake ∨ make = shiftRMake
  · refine ⟨by rw [if_neg hctrl, if_pos hshift], fun m => ?_⟩
    rw [if_neg hctrl, if_pos hshift]
    obtain rfl | rfl := hshift <;> cases m <;> rfl
  by_cases halt : make = altLMake ∨ make = altRMake
  · refine ⟨by rw [if_neg hctrl, if_neg hshift, if_pos halt], fun m => ?_⟩
    rw [if_neg hctrl, if_neg hshift, if_pos halt]
    obtain rfl | rfl := halt <;> cases m <;> rfl
  · refine ⟨by rw [if_neg hctrl, if_neg hshift, if_neg halt], fun m => ?_⟩
    rw [if_neg hctrl, if_neg hshift, if_neg halt]
    cases m with
    | shift => exact (if_neg hshift).symm
    | ctrl => exact (if_neg hctrl).symm
    | alt => exact (if_neg halt).symm

theorem curChar_ok {index : UInt16} (h : index.toNat < keymap.length) (shift : Bool) :
    curChar index shift = .ok (if shift then keymap[index.toNat].2 else keymap[index.toNat].1) := by
  unfold curChar
  rw [List.getElem?_eq_getElem h]
  rfl

/-- The index of a known make code is in `keymap`, and a modifier's keys have no character. -/
theorem curChar_known (hknown : Known scancode) (shift : Bool) :
    ∃ c, curChar (scancode &&& 0x00ff) shift = .ok c ∧ ∀ m : Modifier,
      m.Has scancode ↔ c = invisible ∧ m.Has (scancode &&& 0x00ff) := by
  obtain ⟨-, hlt⟩ | rfl | rfl := hknown
  · have hlow : scancode &&& 0x00ff = scancode := by
      have hlt' : scancode.toNat < 0x3b := hlt
      apply UInt16.toNat_inj.mp
      rw [UInt16.toNat_and]
      exact (Nat.and_two_pow_sub_one_eq_mod _ 8).trans (Nat.mod_eq_of_lt (by omega))
    rw [hlow]
    refine ⟨_, curChar_ok hlt shift, fun m => ⟨fun hm => ⟨?_, hm⟩, fun hm => hm.2⟩⟩
    obtain rfl | rfl := hm <;> cases m <;> cases shift <;>
      first | rfl | exact absurd hlt (by decide)
  · refine ⟨invisible, by cases shift <;> rfl, fun m => ?_⟩
    cases m <;> decide
  · refine ⟨invisible, by cases shift <;> rfl, fun m => ?_⟩
    cases m <;> decide

theorem keyDown_status (k : State) (full : Bool) (hknown : Known scancode) :
    ∃ k', keyDown k full scancode = .ok k' ∧ k'.extScancode = k.extScancode ∧
      ∀ m : Modifier, m.status k' = if m.Has scancode then true else m.status k := by
  obtain ⟨c, hc, hhas⟩ := curChar_known hknown (shifted scancode k.shiftStatus k.capsLockStatus)
  unfold keyDown
  simp only [hc, ok_bind]
  generalize scancode &&& 0x00ff = low at hhas
  by_cases hvisible : c ≠ invisible
  · have hnone : ∀ m : Modifier, ¬ m.Has scancode := fun m hm => hvisible ((hhas m).mp hm).1
    rw [if_pos hvisible]
    refine ⟨_, rfl, by cases full <;> rfl, fun m => ?_⟩
    rw [if_neg (hnone m)]
    cases full <;> cases m <;> rfl
  have hlow : ∀ m : Modifier, m.Has scancode ↔ m.Has low := fun m =>
    (hhas m).trans (and_iff_right (not_not.mp hvisible))
  rw [if_neg hvisible]
  simp only [hlow]
  by_cases hctrl : low = ctrlLMake ∨ low = ctrlRMake
  · rw [if_pos hctrl]
    refine ⟨_, rfl, rfl, fun m => ?_⟩
    obtain rfl | rfl := hctrl <;> cases m <;> rfl
  rw [if_neg hctrl]
  by_cases hshift : low = shiftLMake ∨ low = shiftRMake
  · rw [if_pos hshift]
    refine ⟨_, rfl, rfl, fun m => ?_⟩
    obtain rfl | rfl := hshift <;> cases m <;> rfl
  rw [if_neg hshift]
  by_cases halt : low = altLMake ∨ low = altRMake
  · rw [if_pos halt]
    refine ⟨_, rfl, rfl, fun m => ?_⟩
    obtain rfl | rfl := halt <;> cases m <;> rfl
  rw [if_neg halt]
  have hnone : ∀ m : Modifier, ¬ m.Has low := by
    intro m
    cases m with
    | shift => exact hshift
    | ctrl => exact hctrl
    | alt => exact halt
  simp only [hnone, if_false]
  split
  · exact ⟨_, rfl, rfl, fun m => by cases m <;> rfl⟩
  · exact ⟨_, rfl, rfl, fun _ => rfl⟩

/-- A modifier's keys are known. -/
theorem Modifier.Has.known {m : Modifier} (h : m.Has scancode) : Known scancode := by
  obtain rfl | rfl := h <;> cases m <;> decide

/-- What the handler does with the last byte of a code, `make` being the make code. -/
theorem handler_status (k : State) (stroke : Stroke) (hext : k.extScancode = stroke.key.extended) :
    ∃ k', intrKeyboardHandler k stroke.full (if stroke.down then UInt8.ofNat stroke.key.code
        else UInt8.ofNat stroke.key.code ||| 0x80) = .ok k' ∧ k'.extScancode = false ∧
      ∀ m : Modifier, m.status k' =
        if m.Has stroke.key.make then stroke.down else m.status k := by
  obtain ⟨hpre, hdown, hup, hmake, hpre'⟩ :=
    make_bits stroke.key.extended stroke.key.code
  unfold intrKeyboardHandler
  rw [hext]
  cases stroke.down with
  | true =>
    rw [if_pos rfl, if_neg hpre]
    dsimp only at hdown ⊢
    rw [if_neg (not_not.mpr hdown)]
    by_cases hknown : Known stroke.key.make
    · obtain ⟨k', hk', hext', hstatus⟩ :=
        keyDown_status { k with extScancode := false } stroke.full hknown
      exact ⟨k', (if_pos hknown).trans hk', hext', fun m => (hstatus m).trans (by cases m <;> rfl)⟩
    · refine ⟨_, if_neg hknown, rfl, fun m => ?_⟩
      rw [if_neg (mt Modifier.Has.known hknown)]
      cases m <;> rfl
  | false =>
    rw [if_neg Bool.false_ne_true, if_neg (hpre' stroke.key.valid.2)]
    dsimp only at hup ⊢
    rw [if_pos hup]
    refine ⟨_, rfl, (keyUp_status ..).1, fun m => ?_⟩
    rw [(keyUp_status ..).2 m, hmake]
    cases m <;> rfl

theorem stroke_status (hext : k.extScancode = false) (s : Stroke) :
    ∃ k', stroke k s = .ok k' ∧ k'.extScancode = false ∧ ∀ m : Modifier,
      m.status k' = if s.key = m.left ∨ s.key = m.right then s.down else m.status k := by
  simp only [← Modifier.has_make]
  cases hpre : s.key.extended with
  | false =>
    obtain ⟨k', hk', hext', hstatus⟩ := handler_status k s (hext.trans hpre.symm)
    refine ⟨k', ?_, hext', hstatus⟩
    rw [stroke, Stroke.scancodes, hpre, if_neg Bool.false_ne_true, List.nil_append,
      List.foldlM_cons, hk']
    rfl
  | true =>
    obtain ⟨k', hk', hext', hstatus⟩ := handler_status { k with extScancode := true } s hpre.symm
    refine ⟨k', ?_, hext', fun m => (hstatus m).trans (by cases m <;> rfl)⟩
    have hfirst : intrKeyboardHandler k s.full 0xe0 = .ok { k with extScancode := true } := rfl
    rw [stroke, Stroke.scancodes, hpre, if_pos rfl, List.singleton_append, List.foldlM_cons,
      hfirst]
    simp only [ok_bind]
    rw [List.foldlM_cons, hk']
    rfl

theorem Modifier.left_ne_right (m : Modifier) : m.left ≠ m.right := by cases m <;> decide

/-- The flags stay exact just when the stroke does not let go of one of two keys. -/
theorem Exact.stroke_iff (h : Exact held k) (s : Stroke) {k' : State}
    (hk' : ∀ m : Modifier, m.status k' =
      if s.key = m.left ∨ s.key = m.right then s.down else m.status k) :
    Exact (Function.update held s.key s.down) k' ↔ Alone held s := by
  have hone : ∀ m : Modifier, (m.status k' = (Function.update held s.key s.down m.left ||
      Function.update held s.key s.down m.right)) ↔ (s.down = false →
      (s.key = m.left → held m.right = false) ∧ (s.key = m.right → held m.left = false)) := by
    intro m
    rw [hk' m, h m]
    by_cases hleft : s.key = m.left
    · have hright : m.right ≠ s.key := hleft ▸ m.left_ne_right.symm
      rw [if_pos (.inl hleft), ← hleft, Function.update_self, Function.update_of_ne hright]
      cases s.down <;> simp [hright.symm]
    by_cases hright : s.key = m.right
    · rw [if_pos (.inr hright), ← hright, Function.update_self,
        Function.update_of_ne (fun heq => hleft heq.symm)]
      cases s.down <;> simp [hleft]
    · rw [if_neg (not_or.mpr ⟨hleft, hright⟩), Function.update_of_ne (fun heq => hleft heq.symm),
        Function.update_of_ne (fun heq => hright heq.symm)]
      simp [hleft, hright]
  constructor
  · exact fun hexact hup m => (hone m).mp (hexact m) hup
  · exact fun halone m => (hone m).mpr fun hup => halone hup m

theorem typed_append (strokes : List Stroke) (s : Stroke) :
    typed (strokes ++ [s]) = typed strokes >>= fun k => stroke k s := by
  rw [typed, List.foldlM_append]
  simp only [List.foldlM_cons, List.foldlM_nil, bind_pure]
  rfl

theorem held_append (strokes : List Stroke) (s : Stroke) :
    Keyboard.held (strokes ++ [s]) = Function.update (Keyboard.held strokes) s.key s.down := by
  rw [Keyboard.held, List.foldl_append]
  rfl

/-- The handler never fails, and a code is complete behind every stroke. -/
theorem typed_ok (strokes : List Stroke) :
    ∃ k, typed strokes = .ok k ∧ k.extScancode = false := by
  induction strokes using List.reverseRecOn with
  | nil => exact ⟨booted, rfl, rfl⟩
  | append_singleton strokes s ih =>
    obtain ⟨k, hk, hext⟩ := ih
    obtain ⟨k', hk', hext', -⟩ := stroke_status hext s
    exact ⟨k', by rw [typed_append, hk, ok_bind, hk'], hext'⟩

theorem stroke_exact_iff {strokes : List Stroke} (hk : typed strokes = .ok k)
    (h : Exact (Keyboard.held strokes) k) (s : Stroke) {k' : State}
    (hk' : typed (strokes ++ [s]) = .ok k') :
    Exact (Keyboard.held (strokes ++ [s])) k' ↔ Alone (Keyboard.held strokes) s := by
  obtain ⟨k₀, hk₀, hext⟩ := typed_ok strokes
  obtain rfl := Except.ok.inj (hk.symm.trans hk₀)
  obtain ⟨k₁, hk₁, -, hstatus⟩ := stroke_status hext s
  rw [typed_append, hk, ok_bind, hk₁] at hk'
  obtain rfl := Except.ok.inj hk'
  rw [held_append]
  exact h.stroke_iff s hstatus

/-- The handler never leaves `keymap`, and the flags are exact behind every stroke just when no
stroke lets go of a modifier key while the other one is down. -/
theorem typed_exact_iff (strokes : List Stroke) :
    (∃ k, typed strokes = .ok k) ∧
      ((∀ before k, before <+: strokes → typed before = .ok k → Exact (Keyboard.held before) k) ↔
        ∀ before s, before ++ [s] <+: strokes → Alone (Keyboard.held before) s) := by
  obtain ⟨k, hk, -⟩ := typed_ok strokes
  refine ⟨⟨k, hk⟩, fun hexact before s hbefore => ?_, fun halone before => ?_⟩
  · obtain ⟨k₀, hk₀, -⟩ := typed_ok before
    obtain ⟨k₁, hk₁, -⟩ := typed_ok (before ++ [s])
    have hfirst := hexact before k₀ ((List.prefix_append ..).trans hbefore) hk₀
    exact (stroke_exact_iff hk₀ hfirst s hk₁).mp (hexact _ k₁ hbefore hk₁)
  · induction before using List.reverseRecOn with
    | nil =>
      intro k _ hk
      obtain rfl := Except.ok.inj hk
      exact fun m => by cases m <;> rfl
    | append_singleton before s ih =>
      intro k hbefore hk
      obtain ⟨k₀, hk₀, -⟩ := typed_ok before
      have hfirst := ih k₀ ((List.prefix_append ..).trans hbefore) hk₀
      exact (stroke_exact_iff hk₀ hfirst s hk).mpr (halone before s hbefore)

/-- Both shift keys go down and the right one comes up: the left one is held. -/
theorem typed_forgets : ∃ k, typed [⟨Modifier.shift.left, true, false⟩,
      ⟨Modifier.shift.right, true, false⟩, ⟨Modifier.shift.right, false, false⟩] = .ok k ∧
    Keyboard.held [⟨Modifier.shift.left, true, false⟩, ⟨Modifier.shift.right, true, false⟩,
      ⟨Modifier.shift.right, false, false⟩] Modifier.shift.left = true ∧
    k.shiftStatus = false := ⟨_, rfl, by decide, rfl⟩

end ZhuOS.Keyboard
