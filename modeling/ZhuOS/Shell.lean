import Mathlib.Data.List.GetD
import Mathlib.Data.UInt
import ZhuOS.Machine

/-!
# `shell/shell.c`: `readline`

A character is stored before the loop compares the position with `count`, so the one that comes
while `count` characters are pending lands behind the buffer.
-/

namespace ZhuOS.Shell

def backspace : UInt8 := 8
def newline : UInt8 := 10
def enter : UInt8 := 13

/-- How far `readline` is. -/
inductive Status
  | reading
  /-- at a carriage return or a newline -/
  | returned
  /-- behind the loop, with its message -/
  | full
  deriving DecidableEq

/-- The memory by its offset from `buf`, and what was written where. -/
structure Readline where
  mem : Int → UInt8
  pos : Int
  status : Status
  /-- the offsets that were stored to -/
  stores : List Int
  /-- what `putchar` has shown -/
  shown : List UInt8

def Readline.store (s : Readline) (c : UInt8) : Readline :=
  { s with mem := Function.update s.mem s.pos c, stores := s.pos :: s.stores }

def Readline.putchar (s : Readline) (c : UInt8) : Readline := { s with shown := s.shown ++ [c] }

/-- One round of the loop: the character that `read` stores at `pos`, and the `switch`. -/
def round (count : Int) (s : Readline) (c : UInt8) : Readline :=
  let s := s.store c
  if ¬ s.pos < count then { s with status := .full }
  else if c = newline ∨ c = enter then { (s.store 0).putchar newline with status := .returned }
  else if c = backspace then
    if s.mem 0 ≠ backspace then { s.putchar backspace with pos := s.pos - 1 } else s
  else { s.putchar c with pos := s.pos + 1 }

def start (mem : Int → UInt8) : Readline := ⟨mem, 0, .reading, [], []⟩

/-- `readline` on the characters typed so far; when it has left its loop it reads none. -/
def readlineFrom (count : Int) (s : Readline) : List UInt8 → Readline
  | [] => s
  | c :: typed => if s.status = .reading then readlineFrom count (round count s c) typed else s

def readline (mem : Int → UInt8) (count : Int) (typed : List UInt8) : Except Fault Readline := do
  ASSERT (0 < count)
  return readlineFrom count (start mem) typed

/-! ## The line -/

/-- A backspace takes the last character back. -/
def edit (text : List UInt8) (c : UInt8) : List UInt8 :=
  if c = backspace then text.dropLast else text ++ [c]

/-- The characters that are pending. -/
def pending (typed : List UInt8) : List UInt8 := typed.foldl edit []

/-- A character of a line: visible, or a backspace. -/
def InLine (c : UInt8) : Prop := c ≠ 0 ∧ c ≠ newline ∧ c ≠ enter

/-- A line that has not ended, or has ended with one of the two keys. -/
inductive Typed : List UInt8 → Prop
  | open {body : List UInt8} (h : ∀ c ∈ body, InLine c) : Typed body
  | ended {body : List UInt8} {key : UInt8} (h : ∀ c ∈ body, InLine c)
      (hkey : key = newline ∨ key = enter) : Typed (body ++ [key])

/-- Nothing is stored outside the buffer, and a line that ends with room is in it. -/
structure ReadsRight (count : Int) (typed : List UInt8) (s : Readline) : Prop where
  inside : ∀ a ∈ s.stores, 0 ≤ a ∧ a < count
  line : ∀ body key, typed = body ++ [key] → key = newline ∨ key = enter →
    ((pending body).length : Int) < count → s.status = .returned ∧
      (∀ i (h : i < (pending body).length), s.mem i = (pending body)[i]) ∧
      s.mem (pending body).length = 0

/-- No character is typed while `count` characters are pending. -/
def HasRoom (count : Int) (typed : List UInt8) : Prop :=
  ∀ before c behind, typed = before ++ c :: behind → ((pending before).length : Int) < count

/-- The loop has stored the pending characters from the start of the buffer on. -/
structure Holds (count : Int) (text : List UInt8) (s : Readline) : Prop where
  status : s.status = .reading
  pos : s.pos = text.length
  mem : ∀ i (h : i < text.length), s.mem i = text[i]
  noBack : ∀ c ∈ text, c ≠ backspace
  inside : ∀ a ∈ s.stores, 0 ≤ a ∧ a < count

variable {count : Int} {typed body text : List UInt8} {s : Readline} {c : UInt8}

theorem Holds.start (count : Int) (mem : Int → UInt8) : Holds count [] (start mem) :=
  ⟨rfl, rfl, fun _ h => absurd h (Nat.not_lt_zero _), fun _ h => (nomatch h),
    fun _ h => (nomatch h)⟩

theorem Holds.stored (h : Holds count text s) (hroom : (text.length : Int) < count) {a : Int}
    (ha : a ∈ s.pos :: s.stores) : 0 ≤ a ∧ a < count := by
  obtain rfl | ha := List.mem_cons.mp ha
  · rw [h.pos]
    omega
  · exact h.inside a ha

/-- With room a character of the line is stored, or takes the last one back. -/
theorem Holds.round (h : Holds count text s) (hroom : (text.length : Int) < count)
    (hc : InLine c) : Holds count (edit text c) (round count s c) := by
  obtain ⟨-, hnew, henter⟩ := hc
  have hlt : ¬ ¬ (s.store c).pos < count := not_not.mpr (h.pos ▸ hroom)
  have hkey : ¬ (c = newline ∨ c = enter) := not_or.mpr ⟨hnew, henter⟩
  have hbefore : ∀ i (hi : i < text.length), Function.update s.mem s.pos c i = text[i] := by
    intro i hi
    rw [Function.update_of_ne (by rw [h.pos]; omega), h.mem i hi]
  rw [Shell.round, if_neg hlt, if_neg hkey]
  by_cases hback : c = backspace
  · rw [if_pos hback, edit, if_pos hback]
    by_cases hempty : text = []
    · -- the backspace is the first character, and stays there
      subst hempty
      have hfirst : (s.store c).mem 0 = backspace := by
        have hpos : s.pos = 0 := h.pos
        rw [← hback, ← hpos]
        exact Function.update_self ..
      rw [if_neg (not_not.mpr hfirst)]
      exact ⟨h.status, h.pos, fun i hi => absurd hi (Nat.not_lt_zero i), fun _ h => (nomatch h),
        fun a ha => h.stored hroom ha⟩
    · have hpositive : 0 < text.length := List.length_pos_of_ne_nil hempty
      have hstored : (s.store c).mem 0 = text[0] := hbefore 0 hpositive
      have hfirst : (s.store c).mem 0 ≠ backspace := by
        rw [hstored]
        exact h.noBack _ (List.getElem_mem hpositive)
      rw [if_pos hfirst]
      refine ⟨h.status, ?_, fun i hi => ?_, fun x hx => h.noBack x (List.mem_of_mem_dropLast hx),
        fun a ha => h.stored hroom ha⟩
      · have hpos := h.pos
        change s.pos - 1 = _
        rw [List.length_dropLast]
        omega
      · rw [List.getElem_dropLast]
        exact hbefore i (by rw [List.length_dropLast] at hi; omega)
  · rw [if_neg hback, edit, if_neg hback]
    refine ⟨h.status, ?_, fun i hi => ?_, fun x hx => ?_, fun a ha => h.stored hroom ha⟩
    · change s.pos + 1 = _
      rw [h.pos, List.length_append]
      rfl
    · rw [List.length_append, List.length_singleton] at hi
      by_cases hlast : i < text.length
      · rw [List.getElem_append_left hlast]
        exact hbefore i hlast
      · obtain rfl : i = text.length := by omega
        rw [List.getElem_concat_length rfl, ← h.pos]
        exact Function.update_self ..
    · obtain hx | hx := List.mem_append.mp hx
      · exact h.noBack x hx
      · exact (List.mem_singleton.mp hx) ▸ hback

/-- No character of `typed` comes while `count` characters are pending, from `text` on. -/
def RoomFrom (count : Int) (text : List UInt8) : List UInt8 → Prop
  | [] => True
  | c :: typed => (text.length : Int) < count ∧ RoomFrom count (edit text c) typed

theorem roomFrom_iff : RoomFrom count text typed ↔ ∀ before c behind,
    typed = before ++ c :: behind → ((before.foldl edit text).length : Int) < count := by
  induction typed generalizing text with
  | nil => simp [RoomFrom]
  | cons c typed ih =>
    rw [RoomFrom, ih]
    constructor
    · rintro ⟨hfirst, hrest⟩ before d behind hsplit
      cases before with
      | nil => exact hfirst
      | cons b before =>
        obtain ⟨rfl, rfl⟩ := List.cons.inj hsplit
        exact hrest before d behind rfl
    · intro h
      refine ⟨h [] c typed rfl, fun before d behind hsplit => ?_⟩
      exact h (c :: before) d behind (by rw [hsplit]; rfl)

theorem readlineFrom_cons (h : s.status = .reading) (c : UInt8) (typed : List UInt8) :
    readlineFrom count s (c :: typed) = readlineFrom count (round count s c) typed := if_pos h

/-- The induction is on the characters; the line is what they leave pending. -/
theorem Holds.run (h : Holds count text s) (hbody : ∀ c ∈ body, InLine c)
    (hroom : RoomFrom count text body) :
    Holds count (body.foldl edit text) (readlineFrom count s body) := by
  induction body generalizing text s with
  | nil => exact h
  | cons c body ih =>
    rw [readlineFrom_cons h.status]
    exact ih (h.round hroom.1 (hbody c (List.mem_cons_self ..)))
      (fun d hd => hbody d (List.mem_cons_of_mem _ hd)) hroom.2

theorem readlineFrom_append (a b : List UInt8) :
    readlineFrom count s (a ++ b) = readlineFrom count (readlineFrom count s a) b := by
  induction a generalizing s with
  | nil => rfl
  | cons c a ih =>
    by_cases hreading : s.status = .reading
    · rw [List.cons_append, readlineFrom_cons hreading, readlineFrom_cons hreading, ih]
    · have hstop : ∀ typed, readlineFrom count s typed = s := by
        intro typed
        cases typed with
        | nil => rfl
        | cons d typed => exact if_neg hreading
      rw [hstop, hstop, hstop]

/-- The key at the end of the line ends it in the buffer. -/
theorem Holds.ends (h : Holds count text s) (hroom : (text.length : Int) < count)
    (hkey : c = newline ∨ c = enter) : (Shell.round count s c).status = .returned ∧
      (∀ i (hi : i < text.length), (Shell.round count s c).mem i = text[i]) ∧
      (Shell.round count s c).mem text.length = 0 ∧
      ∀ a ∈ (Shell.round count s c).stores, 0 ≤ a ∧ a < count := by
  have hlt : ¬ ¬ (s.store c).pos < count := not_not.mpr (h.pos ▸ hroom)
  have hpos : (s.store c).pos = text.length := h.pos
  rw [Shell.round, if_neg hlt, if_pos hkey]
  refine ⟨rfl, fun i hi => ?_, ?_, fun a ha => ?_⟩
  · have hne : (i : Int) ≠ text.length := by omega
    change Function.update (Function.update s.mem s.pos c) (s.store c).pos 0 i = _
    rw [Function.update_of_ne (hpos ▸ hne), Function.update_of_ne (h.pos ▸ hne), h.mem i hi]
  · rw [← hpos]
    exact Function.update_self ..
  · obtain rfl | ha := List.mem_cons.mp ha
    · rw [hpos]
      omega
    · exact h.stored hroom ha

theorem round_stores (count : Int) (s : Readline) (c : UInt8) :
    ∀ a ∈ s.pos :: s.stores, a ∈ (round count s c).stores := by
  intro a ha
  unfold Shell.round
  by_cases hlt : ¬ (s.store c).pos < count
  · rw [if_pos hlt]
    exact ha
  rw [if_neg hlt]
  by_cases hkey : c = newline ∨ c = enter
  · rw [if_pos hkey]
    exact List.mem_cons_of_mem _ ha
  rw [if_neg hkey]
  by_cases hback : c = backspace
  · rw [if_pos hback]
    split
    · exact ha
    · exact ha
  · rw [if_neg hback]
    exact ha

theorem readlineFrom_stores (typed : List UInt8) :
    ∀ a ∈ s.stores, a ∈ (readlineFrom count s typed).stores := by
  induction typed generalizing s with
  | nil => exact fun _ ha => ha
  | cons c typed ih =>
    intro a ha
    by_cases hreading : s.status = .reading
    · rw [readlineFrom_cons hreading]
      exact ih a (round_stores count s c a (List.mem_cons_of_mem _ ha))
    · rw [readlineFrom, if_neg hreading]
      exact ha

theorem Typed.cons (h : Typed (c :: typed)) :
    InLine c ∧ Typed typed ∨ typed = [] ∧ (c = newline ∨ c = enter) := by
  generalize hall : c :: typed = all at h
  cases h with
  | «open» h =>
    subst hall
    exact .inl ⟨h c (List.mem_cons_self ..), .open fun d hd => h d (List.mem_cons_of_mem _ hd)⟩
  | @ended body key h hkey =>
    cases body with
    | nil =>
      obtain ⟨rfl, rfl⟩ := List.cons.inj hall
      exact .inr ⟨rfl, hkey⟩
    | cons b body =>
      obtain ⟨rfl, rfl⟩ := List.cons.inj hall
      exact .inl ⟨h c (List.mem_cons_self ..),
        .ended (fun d hd => h d (List.mem_cons_of_mem _ hd)) hkey⟩

/-- The character that comes without room is stored behind the buffer. -/
theorem Holds.outside (h : Holds count text s) (ht : Typed typed)
    (hfull : ¬ RoomFrom count text typed) :
    ∃ a ∈ (readlineFrom count s typed).stores, ¬ (0 ≤ a ∧ a < count) := by
  induction typed generalizing text s with
  | nil => exact absurd trivial hfull
  | cons c typed ih =>
    rw [readlineFrom_cons h.status]
    by_cases hroom : (text.length : Int) < count
    · obtain ⟨hc, ht⟩ | ⟨rfl, -⟩ := ht.cons
      · exact ih (h.round hroom hc) ht fun hrest => hfull ⟨hroom, hrest⟩
      · exact absurd ⟨hroom, trivial⟩ hfull
    · refine ⟨s.pos, ?_, ?_⟩
      · exact readlineFrom_stores typed _ (round_stores count s c _ (List.mem_cons_self ..))
      · rw [h.pos]
        exact fun hin => hroom hin.2

/-- `readline` is right just when no character is typed into a full buffer. -/
theorem readline_right_iff (mem : Int → UInt8) (hcount : 0 < count) (ht : Typed typed) :
    ∃ s, readline mem count typed = .ok s ∧
      (ReadsRight count typed s ↔ HasRoom count typed) := by
  have hstart := Holds.start count mem
  have hfrom : HasRoom count typed ↔ RoomFrom count [] typed := roomFrom_iff.symm
  refine ⟨readlineFrom count (start mem) typed, ?_, ?_⟩
  · simp only [readline, ASSERT_true hcount, ok_bind]
    rfl
  rw [hfrom]
  constructor
  · intro hright
    by_contra hfull
    obtain ⟨a, ha, hout⟩ := hstart.outside ht hfull
    exact hout (hright.inside a ha)
  intro hroom
  cases ht with
  | «open» h =>
    refine ⟨(hstart.run h hroom).inside, fun body key hsplit hkey _ => ?_⟩
    obtain ⟨-, hnew, henter⟩ := h key (hsplit ▸ List.mem_append_right _ (List.mem_singleton_self _))
    exact absurd hkey (not_or.mpr ⟨hnew, henter⟩)
  | @ended body key h hkey =>
    have hbefore := roomFrom_iff.mp hroom
    have hbody : RoomFrom count [] body := roomFrom_iff.mpr fun before c behind hsplit =>
      hbefore before c (behind ++ [key]) (by rw [hsplit, List.append_assoc]; rfl)
    have hlast : ((pending body).length : Int) < count := hbefore body key [] rfl
    have hheld := hstart.run h hbody
    obtain ⟨hstatus, hmem, hnul, hinside⟩ := hheld.ends hlast hkey
    have hrun : readlineFrom count (start mem) (body ++ [key]) =
        round count (readlineFrom count (start mem) body) key := by
      rw [readlineFrom_append, readlineFrom_cons hheld.status]
      rfl
    rw [hrun]
    refine ⟨hinside, fun body' key' hsplit _ _ => ?_⟩
    obtain ⟨rfl, -⟩ := List.append_inj' hsplit rfl
    exact ⟨hstatus, hmem, hnul⟩

/-- `ab`, a backspace, `c` and a carriage return, in a buffer of four. -/
theorem readline_right_iff_edited : ∃ s, readline (fun _ => 0) 4 [97, 98, 8, 99, 13] = .ok s ∧
    (ReadsRight 4 [97, 98, 8, 99, 13] s ↔ HasRoom 4 [97, 98, 8, 99, 13]) :=
  readline_right_iff (fun _ => 0) (by decide)
    (@Typed.ended [97, 98, 8, 99] enter (by simp [InLine, newline, enter]) (.inr rfl))

/-- Three characters in a buffer of two: the third goes to `buf[2]`. -/
theorem readline_overruns : (0 : Int) < 2 ∧ Typed [97, 98, 99] ∧
    ∃ s, readline (fun _ => 0) 2 [97, 98, 99] = .ok s ∧ ¬ ReadsRight 2 [97, 98, 99] s := by
  refine ⟨by decide, .open (by simp [InLine, newline, enter]), _, rfl, fun h => ?_⟩
  have hlast := (h.inside 2 (List.mem_cons_self ..)).2
  exact absurd hlast (by decide)

end ZhuOS.Shell
