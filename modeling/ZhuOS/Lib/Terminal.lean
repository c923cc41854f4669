import Mathlib.Logic.Function.Basic

/-!
# Character terminals

A grid of cells with a cursor on one of them. A glyph goes into the cell under the cursor, which
then moves on; behind the last cell the grid moves up by one line.
-/

/-- A grid of `h` lines with `w` cells each, and where its cursor is. -/
structure Terminal (α : Type) (h w : Nat) where
  cells : Fin h → Fin w → α
  row : Fin h
  col : Fin w

namespace Terminal

variable {α : Type} {h w : Nat} {blank a : α} {t : Terminal α h w}

/-- What is sent to a terminal. -/
inductive Signal (α : Type)
  | newline
  | backspace
  | glyph (a : α)

/-- One cell is changed. -/
def set (t : Terminal α h w) (r : Fin h) (c : Fin w) (a : α) : Terminal α h w :=
  { t with cells := fun r' c' => if r' = r ∧ c' = c then a else t.cells r' c' }

def moveTo (t : Terminal α h w) (r : Fin h) (c : Fin w) : Terminal α h w :=
  { t with row := r, col := c }

/-- The lines move up by one; the last one is blank. -/
def scroll (blank : α) (t : Terminal α h w) : Terminal α h w :=
  { t with cells := fun r c => if hr : r.val + 1 < h then t.cells ⟨r.val + 1, hr⟩ c else blank }

/-- To the start of the next line, which may have to come up first. -/
def newline (blank : α) (t : Terminal α h w) : Terminal α h w :=
  if hr : t.row.val + 1 < h then t.moveTo ⟨t.row.val + 1, hr⟩ ⟨0, t.col.pos⟩
  else (t.scroll blank).moveTo t.row ⟨0, t.col.pos⟩

def advance (blank : α) (t : Terminal α h w) : Terminal α h w :=
  if hc : t.col.val + 1 < w then t.moveTo t.row ⟨t.col.val + 1, hc⟩ else t.newline blank

/-- The cell before the one under the cursor. -/
def before (t : Terminal α h w) : Option (Fin h × Fin w) :=
  if 0 < t.col.val then some (t.row, ⟨t.col.val - 1, by omega⟩)
  else if 0 < t.row.val then
    some (⟨t.row.val - 1, by omega⟩, ⟨w - 1, Nat.sub_one_lt_of_lt t.col.pos⟩)
  else none

/-- Back by one cell, which becomes blank; nothing at the origin. -/
def backspace (blank : α) (t : Terminal α h w) : Terminal α h w :=
  match t.before with
  | some (r, c) => (t.set r c blank).moveTo r c
  | none => t

def step (blank : α) (t : Terminal α h w) : Signal α → Terminal α h w
  | .newline => t.newline blank
  | .backspace => t.backspace blank
  | .glyph a => (t.set t.row t.col a).advance blank

def run (blank : α) (t : Terminal α h w) (signals : List (Signal α)) : Terminal α h w :=
  signals.foldl (step blank) t

theorem run_snoc (signals : List (Signal α)) (signal : Signal α) :
    t.run blank (signals ++ [signal]) = (t.run blank signals).step blank signal := by
  rw [run, List.foldl_append]
  rfl

/-- The index of the cell under the cursor, line by line. -/
def pos (t : Terminal α h w) : Nat := t.row.val * w + t.col.val

theorem idx_lt (r : Fin h) (c : Fin w) : r.val * w + c.val < h * w := by
  have hrow : (r.val + 1) * w ≤ h * w := Nat.mul_le_mul_right w r.isLt
  rw [Nat.add_mul, Nat.one_mul] at hrow
  have hcol := c.isLt
  omega

theorem pos_lt (t : Terminal α h w) : t.pos < h * w := idx_lt t.row t.col

theorem pos_eq_zero : t.pos = 0 ↔ t.before = none := by
  have hw := t.col.pos
  unfold pos before
  by_cases hcol : 0 < t.col.val
  · rw [if_pos hcol]
    exact iff_of_false (by omega) nofun
  · rw [if_neg hcol]
    by_cases hrow : 0 < t.row.val
    · rw [if_pos hrow]
      have hmul := Nat.mul_pos hrow hw
      exact iff_of_false (by omega) nofun
    · rw [if_neg hrow, Nat.eq_zero_of_not_pos hrow, Nat.eq_zero_of_not_pos hcol, Nat.zero_mul]
      exact iff_of_true rfl rfl

/-- Behind the last line the grid has moved up. -/
theorem newline_cases (blank : α) (t : Terminal α h w) :
    (t.row.val + 1 < h ∧ (t.newline blank).pos = (t.row.val + 1) * w ∧
        (t.newline blank).cells = t.cells) ∨
      (t.row.val + 1 = h ∧ (t.newline blank).pos = t.row.val * w ∧
        (t.newline blank).cells = (t.scroll blank).cells) := by
  have hrow := t.row.isLt
  by_cases hr : t.row.val + 1 < h
  · refine .inl ⟨hr, ?_, ?_⟩ <;> rw [newline, dif_pos hr] <;> rfl
  · refine .inr ⟨by omega, ?_, ?_⟩ <;> rw [newline, dif_neg hr] <;> rfl

/-- The next cell is the one behind, but for the last. -/
theorem advance_cases (blank : α) (t : Terminal α h w) :
    (t.pos + 1 < h * w ∧ (t.advance blank).pos = t.pos + 1 ∧
        (t.advance blank).cells = t.cells) ∨
      (t.pos + 1 = h * w ∧ (t.advance blank).pos = t.row.val * w ∧
        (t.advance blank).cells = (t.scroll blank).cells) := by
  have hcol := t.col.isLt
  by_cases hc : t.col.val + 1 < w
  · have hmove : t.advance blank = t.moveTo t.row ⟨t.col.val + 1, hc⟩ := dif_pos hc
    exact .inl ⟨idx_lt t.row ⟨t.col.val + 1, hc⟩, hmove ▸ rfl, hmove ▸ rfl⟩
  · have hline : t.advance blank = t.newline blank := dif_neg hc
    have hnext : (t.row.val + 1) * w = t.pos + 1 := by
      rw [Nat.add_mul, Nat.one_mul, pos]
      omega
    rw [hline]
    obtain ⟨hr, hpos, hcells⟩ | ⟨hr, hpos, hcells⟩ := newline_cases blank t
    · have hlt := Nat.mul_lt_mul_of_pos_right hr t.col.pos
      exact .inl ⟨hnext ▸ hlt, hpos.trans hnext, hcells⟩
    · exact .inr ⟨by rw [← hnext, hr], hpos, hcells⟩

/-- The cell before is the one with the index before. -/
theorem before_idx {r : Fin h} {c : Fin w} (hb : t.before = some (r, c)) :
    r.val * w + c.val + 1 = t.pos := by
  have hw := t.col.pos
  unfold before at hb
  unfold pos
  by_cases hcol : 0 < t.col.val
  · rw [if_pos hcol] at hb
    cases hb
    dsimp only
    omega
  · rw [if_neg hcol] at hb
    by_cases hrow : 0 < t.row.val
    · rw [if_pos hrow] at hb
      cases hb
      obtain ⟨r, hr⟩ := Nat.exists_eq_add_one_of_ne_zero (Nat.ne_of_gt hrow)
      dsimp only
      rw [hr, Nat.add_sub_cancel, Nat.add_mul, Nat.one_mul]
      omega
    · rw [if_neg hrow] at hb
      cases hb

/-! ## Cells in a memory -/

theorem idx_inj {r r' : Fin h} {c c' : Fin w} :
    r'.val * w + c'.val = r.val * w + c.val ↔ r' = r ∧ c' = c := by
  constructor
  · intro heq
    have hquot := congrArg (· / w) heq
    have hrem := congrArg (· % w) heq
    simp only [Nat.mul_comm _ w, Nat.mul_add_div c.pos, Nat.div_eq_of_lt c.isLt,
      Nat.div_eq_of_lt c'.isLt, Nat.mul_add_mod, Nat.mod_eq_of_lt c.isLt,
      Nat.mod_eq_of_lt c'.isLt, Nat.add_zero] at hquot hrem
    exact ⟨Fin.ext hquot, Fin.ext hrem⟩
  · rintro ⟨rfl, rfl⟩
    rfl

/-- The cells lie one behind the other in `f`. -/
def Laid (f : Nat → α) (t : Terminal α h w) : Prop :=
  ∀ r c, f (r.val * w + c.val) = t.cells r c

theorem Laid.congr {f : Nat → α} {t' : Terminal α h w} (hf : Laid f t)
    (hcells : t'.cells = t.cells) : Laid f t' := by
  intro r c
  rw [hcells]
  exact hf r c

theorem Laid.set {f : Nat → α} (hf : Laid f t) (r : Fin h) (c : Fin w) (a : α) :
    Laid (Function.update f (r.val * w + c.val) a) (t.set r c a) := by
  intro r' c'
  have hif : (t.set r c a).cells r' c' = if r' = r ∧ c' = c then a else t.cells r' c' := rfl
  rw [hif, Function.update_apply]
  simp only [idx_inj, hf r' c']

theorem Laid.scroll {f g : Nat → α} (hf : Laid f t)
    (hup : ∀ i, i + w < h * w → g i = f (i + w))
    (hlast : ∀ i, i < h * w → h * w ≤ i + w → g i = blank) : Laid g (t.scroll blank) := by
  intro r c
  have hnext : r.val * w + c.val + w = (r.val + 1) * w + c.val := by
    rw [Nat.add_mul, Nat.one_mul]
    omega
  by_cases hr : r.val + 1 < h
  · have hcell : (t.scroll blank).cells r c = t.cells ⟨r.val + 1, hr⟩ c := dif_pos hr
    rw [hcell, ← hf, hup _ (hnext ▸ idx_lt ⟨r.val + 1, hr⟩ c), hnext]
  · have hcell : (t.scroll blank).cells r c = blank := dif_neg hr
    have hh : h = r.val + 1 := by
      have hlt := r.isLt
      omega
    refine (hlast _ (idx_lt r c) ?_).trans hcell.symm
    rw [hnext, ← hh]
    exact Nat.le_add_right _ _

end Terminal
