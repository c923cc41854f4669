import ZhuOS.Lib.Terminal
import ZhuOS.Print

/-!
# The screen as a terminal

What `put_char` leaves in the video memory and in the cursor registers, seen as a terminal of 25
lines with 80 cells.
-/

namespace ZhuOS

open ByteMem Terminal

namespace Display

variable {d d' d'' : Display} {f g : Nat → UInt8 × UInt8} {bx : UInt16} {i n : Nat} {v c : UInt8}

/-! ## Cells and cursor -/

/-- A character and its attribute. -/
def text (d : Display) (i : Nat) : UInt8 × UInt8 :=
  (d.mem (VIDEO_BASE + 2 * i), d.mem (VIDEO_BASE + 2 * i + 1))

def blank : UInt8 × UInt8 := (0x20, 0x07)

def cursor (d : Display) : UInt16 := d.getCursor.1

/-- The 4000 bytes of the text. -/
def InText (a : Nat) : Prop := VIDEO_BASE ≤ a ∧ a < VIDEO_BASE + 4000

@[simp] theorem setCursor_cursor (d : Display) (bx : UInt16) : (d.setCursor bx).cursor = bx := by
  apply UInt16.toNat_inj.mp
  have hlt : bx.toNat < 65536 := bx.toNat_lt
  have hhigh : (UInt8.ofNat (bx.toNat / 256)).toNat = bx.toNat / 256 := by
    apply UInt8.toNat_ofNat_of_lt'
    change bx.toNat / 256 < 256
    omega
  have hlow : (UInt8.ofNat bx.toNat).toNat = bx.toNat % 256 := rfl
  have hval : (d.setCursor bx).cursor =
      .ofNat ((UInt8.ofNat (bx.toNat / 256)).toNat * 256 + (UInt8.ofNat bx.toNat).toNat) := rfl
  rw [hval, hhigh, hlow]
  change (bx.toNat / 256 * 256 + bx.toNat % 256) % 65536 = bx.toNat
  omega

theorem getCursor_eq (d : Display) : d.getCursor = (d.cursor, d.outIndex 0x0f) := rfl

/-- The text becomes `f`, and nothing else is written to. -/
structure Draws (d d' : Display) (f : Nat → UInt8 × UInt8) : Prop where
  text : d'.text = f
  crtc : d'.crtc = d.crtc
  stores : ∀ a ∈ d'.stores, a ∈ d.stores ∨ InText a

theorem Draws.trans (h : Draws d d' f) (h' : Draws d' d'' g) : Draws d d'' g :=
  ⟨h'.text, h'.crtc.trans h.crtc, fun a ha => (h'.stores a ha).elim (h.stores a) .inr⟩

/-- A character and its attribute are stored. -/
theorem storeCell (d : Display) (hi : i < 2000) (v : UInt8) : ∃ d₁ d',
    d.storeGs (2 * i) v = .ok d₁ ∧ d₁.storeGs (2 * i + 1) 0x07 = .ok d' ∧
      Draws d d' (Function.update d.text i (v, 0x07)) := by
  have hlow : 2 * i ≤ VIDEO_LIMIT := by unfold VIDEO_LIMIT; omega
  have hhigh : 2 * i + 1 ≤ VIDEO_LIMIT := by unfold VIDEO_LIMIT; omega
  refine ⟨_, _, if_pos hlow, if_pos hhigh, ?_, rfl, ?_⟩
  · funext k
    by_cases hk : k = i
    · subst hk
      rw [Function.update_self]
      refine Prod.ext ?_ ?_
      · exact (Function.update_of_ne (by omega) ..).trans (Function.update_self ..)
      · exact Function.update_self ..
    · rw [Function.update_of_ne hk]
      refine Prod.ext ?_ ?_
      · exact (Function.update_of_ne (by omega) ..).trans (Function.update_of_ne (by omega) ..)
      · exact (Function.update_of_ne (by omega) ..).trans (Function.update_of_ne (by omega) ..)
  · intro a ha
    obtain rfl | ha := List.mem_cons.mp ha
    · exact .inr ⟨by omega, by omega⟩
    · obtain rfl | ha := List.mem_cons.mp ha
      · exact .inr ⟨by omega, by omega⟩
      · exact .inl ha

/-- `n` cells from `i` on become blank. -/
theorem cls_draws (n : Nat) (d : Display) (hi : i + n ≤ 2000) : ∃ d', cls n (2 * i) d = .ok d' ∧
    Draws d d' fun k => if i ≤ k ∧ k < i + n then blank else d.text k := by
  induction n generalizing i d with
  | zero =>
    refine ⟨d, rfl, funext fun k => ?_, rfl, fun a ha => .inl ha⟩
    rw [if_neg (by omega)]
  | succ n ih =>
    obtain ⟨d₁, d₂, hfirst, hsecond, hcell⟩ := storeCell d (by omega : i < 2000) 0x20
    obtain ⟨d', hrest, hdraws⟩ := ih (i := i + 1) d₂ (by omega)
    refine ⟨d', ?_, ?_⟩
    · simp only [cls, hfirst, hsecond, ok_bind]
      exact hrest
    · have hboth := hcell.trans hdraws
      refine ⟨hboth.text.trans (funext fun k => ?_), hboth.crtc, hboth.stores⟩
      rw [hcell.text]
      by_cases hk : k = i
      · subst hk
        rw [if_neg (by omega), if_pos (by omega), Function.update_self]
        rfl
      · rw [Function.update_of_ne hk]
        by_cases hin : i ≤ k ∧ k < i + (n + 1)
        · rw [if_pos hin, if_pos (by omega)]
        · rw [if_neg hin, if_neg (by omega)]

/-- Copied downwards, each byte comes from where it was. -/
theorem repMovsd_mem (n : Nat) {esi edi gap : Nat} (d : Display) (hesi : esi = edi + gap)
    (hgap : 4 ≤ gap) (a : Nat) : (repMovsd n esi edi d).mem a =
      if edi ≤ a ∧ a < edi + 4 * n then d.mem (a + gap) else d.mem a := by
  induction n generalizing esi edi d with
  | zero => rw [repMovsd, if_neg (by omega)]
  | succ n ih =>
    rw [repMovsd, ih _ (by omega : esi + 4 = edi + 4 + gap)]
    dsimp only
    by_cases hlater : edi + 4 ≤ a ∧ a < edi + 4 + 4 * n
    · rw [if_pos hlater, if_pos (by omega), blit_out (by omega)]
    · rw [if_neg hlater]
      by_cases hnow : edi ≤ a ∧ a < edi + 4
      · rw [blit_in hnow.1 hnow.2, if_pos (by omega)]
        congr 1
        omega
      · rw [blit_out (by omega), if_neg (by omega)]

theorem repMovsd_crtc (n esi edi : Nat) (d : Display) : (repMovsd n esi edi d).crtc = d.crtc := by
  induction n generalizing esi edi d with
  | zero => rfl
  | succ n ih => exact ih ..

theorem repMovsd_stores (n esi edi : Nat) (d : Display) :
    ∀ a ∈ (repMovsd n esi edi d).stores, a ∈ d.stores ∨ edi ≤ a ∧ a < edi + 4 * n := by
  induction n generalizing esi edi d with
  | zero => exact fun a ha => .inl ha
  | succ n ih =>
    intro a ha
    obtain hold | hnew := ih _ _ _ a ha
    · obtain hin | hold := List.mem_append.mp hold
      · have hrange := List.mem_range'_1.mp hin
        exact .inr ⟨hrange.1, by omega⟩
      · exact .inl hold
    · exact .inr ⟨by omega, by omega⟩

/-- The lines move up, and the last one becomes blank. -/
theorem rollScreen_draws (d : Display) : ∃ d' d'', d.rollScreen = .ok d'' ∧
    d'' = d'.setCursor 1920 ∧
    Draws d d' fun k => if k < 1920 then d.text (k + 80) else if k < 2000 then blank
      else d.text k := by
  have hmem : ∀ a, (repMovsd 960 0xc00b80a0 0xc00b8000 d).mem a =
      if 0xc00b8000 ≤ a ∧ a < 0xc00b8000 + 4 * 960 then d.mem (a + 160) else d.mem a :=
    repMovsd_mem 960 d rfl (by decide)
  have hcrtc := repMovsd_crtc 960 0xc00b80a0 0xc00b8000 d
  have hstores := repMovsd_stores 960 0xc00b80a0 0xc00b8000 d
  have hbase : VIDEO_BASE = 0xc00b8000 := rfl
  unfold rollScreen
  generalize repMovsd 960 0xc00b80a0 0xc00b8000 d = u at hmem hcrtc hstores
  have hup : Draws d u fun k => if k < 1920 then d.text (k + 80) else d.text k := by
    refine ⟨funext fun k => ?_, hcrtc, fun a ha => (hstores a ha).imp_right fun hin => ?_⟩
    · have hchar : VIDEO_BASE + 2 * k + 160 = VIDEO_BASE + 2 * (k + 80) := by omega
      have hattr : VIDEO_BASE + 2 * k + 1 + 160 = VIDEO_BASE + 2 * (k + 80) + 1 := by omega
      rw [text, hmem, hmem, hchar, hattr]
      by_cases hk : k < 1920
      · rw [if_pos (by omega), if_pos (by omega), if_pos hk, text]
      · rw [if_neg (by omega), if_neg (by omega), if_neg hk, text]
    · unfold InText
      omega
  obtain ⟨d', hcls, hblank⟩ := @cls_draws 1920 80 _ (Nat.le_refl 2000)
  refine ⟨d', _, ?_, rfl, ?_⟩
  · have hrun : cls 80 3840 u = .ok d' := hcls
    simp only [hrun, ok_bind]
    rfl
  · have hboth := hup.trans hblank
    refine ⟨hboth.text.trans (funext fun k => ?_), hboth.crtc, hboth.stores⟩
    have hmoved : u.text k = if k < 1920 then d.text (k + 80) else d.text k :=
      congrFun hup.text k
    rw [hmoved]
    by_cases hk : k < 1920
    · rw [if_neg (by omega), if_pos hk, if_pos hk]
    · rw [if_neg hk, if_neg hk]
      by_cases hlast : k < 2000
      · rw [if_pos (by omega), if_pos hlast]
      · rw [if_neg (by omega), if_neg hlast]

/-! ## The cursor in `bx` -/

/-- `jl` behind `cmp bx, 2000` -/
theorem below_end (h : bx.toNat < 2 ^ 15) : bx.toInt16 < 2000 ↔ bx.toNat < 2000 := by
  have hval : bx.toInt16.toInt = bx.toNat := BitVec.toInt_eq_toNat_of_lt (by
    change 2 * bx.toNat < 2 ^ 16
    omega)
  have hend : (2000 : Int16).toInt = 2000 := rfl
  rw [Int16.lt_iff_toInt_lt, hval, hend]
  omega

/-- The offset of a cell, that of its attribute, and back. -/
theorem offsets (h : bx.toNat < 2 ^ 15) : (bx <<< 1).toNat = 2 * bx.toNat ∧
    (bx <<< 1 + 1).toNat = 2 * bx.toNat + 1 ∧ (bx <<< 1 + 1) >>> 1 = bx := by
  have hone : (1 : UInt16).toNat = 1 := rfl
  have htwo : 2 ^ (1 % 16) = 2 := rfl
  have hdouble : (bx <<< 1).toNat = 2 * bx.toNat := by
    rw [UInt16.toNat_shiftLeft, hone, Nat.shiftLeft_eq, htwo]
    omega
  have hattr : (bx <<< 1 + 1).toNat = 2 * bx.toNat + 1 := by
    rw [UInt16.toNat_add, hdouble, hone]
    omega
  refine ⟨hdouble, hattr, UInt16.toNat_inj.mp ?_⟩
  rw [UInt16.toNat_shiftRight, hattr, hone, Nat.shiftRight_eq_div_pow, htwo]
  omega

theorem isLineFeed_eq (d : Display) (h : bx.toNat ≤ 2000) : d.isLineFeed bx =
    if bx.toNat / 80 * 80 + 80 < 2000 then
      .ok (d.setCursor (.ofNat (bx.toNat / 80 * 80 + 80))) else d.rollScreen := by
  have hnext : (bx - bx % 80 + 80).toNat = bx.toNat / 80 * 80 + 80 := by
    have h80 : (80 : UInt16).toNat = 80 := rfl
    have hle : bx % 80 ≤ bx := by
      rw [UInt16.le_iff_toNat_le, UInt16.toNat_mod]
      exact Nat.mod_le ..
    rw [UInt16.toNat_add, UInt16.toNat_sub_of_le _ _ hle, UInt16.toNat_mod, h80]
    omega
  have hword : bx - bx % 80 + 80 = .ofNat (bx.toNat / 80 * 80 + 80) := by
    rw [← hnext, UInt16.ofNat_toNat]
  simp only [isLineFeed, below_end (by omega : (bx - bx % 80 + 80).toNat < 2 ^ 15), hnext]
  rw [hword]
  rfl

/-! ## One character -/

/-- The display shows the terminal, and nothing but the text has been written to. -/
structure Shows (d : Display) (t : Terminal (UInt8 × UInt8) 25 80) : Prop where
  cursor : d.cursor.toNat = t.pos
  cells : Laid d.text t
  stores : ∀ a ∈ d.stores, InText a

/-- What a character is to the terminal: both CR and LF end the line. -/
def signal (c : UInt8) : Signal (UInt8 × UInt8) :=
  if c = 0xd ∨ c = 0xa then .newline else if c = 0x8 then .backspace else .glyph (c, 0x07)

variable {t : Terminal (UInt8 × UInt8) 25 80}

theorem Shows.lt (h : Shows d t) : d.cursor.toNat < 2000 := h.cursor ▸ t.pos_lt

/-- The cursor is set. -/
theorem Shows.moved {t' : Terminal (UInt8 × UInt8) 25 80} (h : Shows d t)
    (hbx : bx.toNat = t'.pos) (hcells : t'.cells = t.cells) : Shows (d.setCursor bx) t' where
  cursor := by rw [setCursor_cursor, hbx]
  cells := h.cells.congr hcells
  stores := h.stores

/-- A cell is written. -/
theorem Shows.stored (h : Shows d t) {r : Fin 25} {k : Fin 80} {i : Nat}
    (hi : r.val * 80 + k.val = i) (v : UInt8) : ∃ d₁ d', d.storeGs (2 * i) v = .ok d₁ ∧
      d₁.storeGs (2 * i + 1) 0x07 = .ok d' ∧ Shows d' (t.set r k (v, 0x07)) := by
  have hlt := idx_lt r k
  obtain ⟨d₁, d', hfirst, hsecond, hdraws⟩ := storeCell d (hi ▸ hlt : i < 2000) v
  have hcursor : d'.cursor = d.cursor := by
    have hcrtc := hdraws.crtc
    simp only [Display.cursor, getCursor, outIndex, inData, hcrtc]
  refine ⟨d₁, d', hfirst, hsecond, ?_, ?_, ?_⟩
  · rw [hcursor]
    exact h.cursor
  · rw [hdraws.text, ← hi]
    exact h.cells.set r k _
  · exact fun a ha => (hdraws.stores a ha).elim (h.stores a) id

/-- The screen moves up, and the cursor is at the start of the last line. -/
theorem Shows.rolled (h : Shows d t) : ∃ d', d.rollScreen = .ok d' ∧
    ∀ t' : Terminal (UInt8 × UInt8) 25 80, t'.pos = 1920 →
      t'.cells = (t.scroll blank).cells → Shows d' t' := by
  obtain ⟨u, d', hrun, rfl, hdraws⟩ := rollScreen_draws d
  refine ⟨_, hrun, fun t' hpos hcells => ⟨?_, ?_, ?_⟩⟩
  · have hlast : (1920 : UInt16).toNat = 1920 := by decide
    rw [setCursor_cursor, hpos, hlast]
  · have htext : (u.setCursor 1920).text = _ := hdraws.text
    rw [htext]
    refine Laid.congr (h.cells.scroll (fun i hi => ?_) fun i hi hlast => ?_) hcells
    · exact if_pos (by omega)
    · exact (if_neg (by omega)).trans (if_pos hi)
  · exact fun a ha => (hdraws.stores a ha).elim (h.stores a) id

/-- To the next line. -/
theorem Shows.newline (h : Shows d t) : ∃ d',
    d.isLineFeed d.cursor = .ok d' ∧ Shows d' (t.newline blank) := by
  have hpos : t.pos = t.row.val * 80 + t.col.val := rfl
  have hrow := t.row.isLt
  have hcol := t.col.isLt
  rw [isLineFeed_eq d h.lt.le, h.cursor]
  obtain ⟨hr, hnext, hcells⟩ | ⟨hr, hnext, hcells⟩ := newline_cases blank t
  · rw [if_pos (by omega)]
    refine ⟨_, rfl, h.moved ?_ hcells⟩
    rw [hnext, UInt16.toNat_ofNat_of_lt' (by change _ < 65536; omega)]
    omega
  · rw [if_neg (by omega)]
    obtain ⟨d', hrun, hshows⟩ := h.rolled
    exact ⟨d', hrun, hshows _ (by omega) hcells⟩

/-- A character is written, and the cursor moves on. -/
theorem Shows.glyph (h : Shows d t) (v : UInt8) : ∃ d', d.putOther d.cursor v = .ok d' ∧
    Shows d' ((t.set t.row t.col (v, 0x07)).advance blank) := by
  have hlt := h.lt
  have hcursor := h.cursor
  obtain ⟨hoff, hattr, hback⟩ := offsets (by omega : d.cursor.toNat < 2 ^ 15)
  obtain ⟨d₁, u, hfirst, hsecond, hset⟩ := h.stored (rfl : _ = t.pos) v
  rw [← hcursor] at hfirst hsecond
  have hnext : (d.cursor + 1).toNat = t.pos + 1 := by
    have hone : (1 : UInt16).toNat = 1 := rfl
    rw [UInt16.toNat_add, hone]
    omega
  simp only [putOther, hoff, hattr, hback, hfirst, hsecond, ok_bind,
    below_end (by omega : (d.cursor + 1).toNat < 2 ^ 15), hnext]
  obtain ⟨hin, hpos, hcells⟩ | ⟨hend, hpos, hcells⟩ :=
    advance_cases blank (t.set t.row t.col (v, 0x07))
  · have hin : t.pos + 1 < 2000 := hin
    rw [if_pos hin]
    exact ⟨_, rfl, hset.moved (hnext.trans hpos.symm) hcells⟩
  · have hend : t.pos + 1 = 2000 := hend
    have hrow : t.row.val * 80 + t.col.val = t.pos := rfl
    have hcol := t.col.isLt
    have hpos : _ = t.row.val * 80 := hpos
    rw [if_neg (by omega), isLineFeed_eq _ (by omega), hnext, if_neg (by omega)]
    obtain ⟨d', hrun, hshows⟩ := hset.rolled
    exact ⟨d', hrun, hshows _ (hpos.trans (by omega)) hcells⟩

/-- Behind the origin a backspace goes one cell back. -/
theorem Shows.backspace (h : Shows d t) (hpos : t.pos ≠ 0) : ∃ d',
    d.isBackspace d.cursor = .ok d' ∧ Shows d' (t.backspace blank) := by
  have hlt := h.lt
  have hcursor := h.cursor
  have hback : (d.cursor - 1).toNat + 1 = t.pos := by
    have hone : (1 : UInt16).toNat = 1 := rfl
    rw [UInt16.toNat_sub_of_le _ _ (UInt16.le_iff_toNat_le.mpr (by omega))]
    omega
  obtain ⟨⟨r, k⟩, hbefore⟩ := Option.ne_none_iff_exists'.mp fun hnone =>
    hpos (pos_eq_zero.mpr hnone)
  have hidx := before_idx hbefore
  obtain ⟨hoff, hattr, hsame⟩ := offsets (by omega : (d.cursor - 1).toNat < 2 ^ 15)
  obtain ⟨d₁, u, hfirst, hsecond, hset⟩ :=
    h.stored (by omega : r.val * 80 + k.val = (d.cursor - 1).toNat) 0x20
  have hstep : t.backspace blank = (t.set r k blank).moveTo r k := by
    rw [Terminal.backspace, hbefore]
  simp only [isBackspace, hoff, hattr, hsame, hfirst, hsecond, ok_bind]
  refine ⟨_, rfl, hstep ▸ hset.moved ?_ rfl⟩
  change (d.cursor - 1).toNat = r.val * 80 + k.val
  omega

/-- At the origin it is stored behind the limit of the segment. -/
theorem isBackspace_origin (hzero : d.cursor.toNat = 0) :
    d.isBackspace d.cursor = .error .outOfBounds := by
  have horigin : d.cursor = 0 := UInt16.toNat_inj.mp hzero
  rw [horigin]
  rfl

/-- A backspace at the origin faults; everything else does on the display what it does on the
terminal. -/
theorem Shows.putChar (h : Shows d t) (c : UInt8) :
    if c = 0x8 ∧ t.pos = 0 then d.putChar c = .error .outOfBounds
    else ∃ d', d.putChar c = .ok d' ∧ Shows d' (t.step blank (signal c)) := by
  have h' : Shows (d.outIndex 0x0f) t := ⟨h.cursor, h.cells, h.stores⟩
  have hsame : (d.outIndex 0x0f).cursor = d.cursor := rfl
  unfold Display.putChar
  rw [getCursor_eq]
  dsimp only
  rw [← hsame]
  by_cases hcr : c = 0xd
  · subst hcr
    rw [if_neg fun hboth => absurd hboth.1 (by decide), if_pos rfl]
    exact h'.newline
  by_cases hlf : c = 0xa
  · subst hlf
    rw [if_neg fun hboth => absurd hboth.1 (by decide), if_neg (by decide), if_pos rfl]
    exact h'.newline
  rw [if_neg hcr, if_neg hlf]
  by_cases hbs : c = 0x8
  · subst hbs
    rw [if_pos rfl]
    by_cases hpos : t.pos = 0
    · rw [if_pos ⟨rfl, hpos⟩]
      exact isBackspace_origin (h'.cursor.trans hpos)
    · rw [if_neg fun hboth => hpos hboth.2]
      exact h'.backspace hpos
  · have hsignal : signal c = .glyph (c, 0x07) := by
      rw [signal, if_neg (not_or.mpr ⟨hcr, hlf⟩), if_neg hbs]
    rw [if_neg fun hboth => hbs hboth.1, if_neg hbs, hsignal]
    exact h'.glyph c

/-! ## Any characters -/

/-- The cleared screen. -/
def cleared : Terminal (UInt8 × UInt8) 25 80 := ⟨fun _ _ => blank, 0, 0⟩

/-- The terminal after these characters. -/
def shown (chars : List UInt8) : Terminal (UInt8 × UInt8) 25 80 :=
  cleared.run blank (chars.map signal)

theorem shown_snoc (chars : List UInt8) (c : UInt8) :
    shown (chars ++ [c]) = (shown chars).step blank (signal c) := by
  rw [shown, List.map_append]
  exact run_snoc _ _

/-- `cls_screen` and these characters on a display of which nothing is known. -/
def printed (mem : Bytes) (index : UInt8) (crtc : UInt8 → UInt8) (chars : List UInt8) :
    Except Fault Display := do
  let d ← clsScreen ⟨mem, index, crtc, []⟩
  d.putChars chars

theorem clsScreen_shows (mem : Bytes) (index : UInt8) (crtc : UInt8 → UInt8) :
    ∃ d, clsScreen ⟨mem, index, crtc, []⟩ = .ok d ∧ Shows d cleared := by
  obtain ⟨d, hrun, hdraws⟩ := @cls_draws 0 2000 ⟨mem, index, crtc, []⟩ (Nat.le_refl 2000)
  have hcls : cls (80 * 25) 0 ⟨mem, index, crtc, []⟩ = .ok d := hrun
  refine ⟨d.setCursor 0, ?_, ?_, ?_, fun a ha => (hdraws.stores a ha).resolve_left nofun⟩
  · simp only [clsScreen, hcls, ok_bind]
    rfl
  · rw [setCursor_cursor]
    rfl
  · have htext : (d.setCursor 0).text = _ := hdraws.text
    rw [htext]
    intro r k
    have hlt := idx_lt r k
    exact if_pos ⟨Nat.zero_le _, by omega⟩

theorem printed_snoc {mem : Bytes} {index : UInt8} {crtc : UInt8 → UInt8} {chars : List UInt8}
    (hrun : printed mem index crtc chars = .ok d) (c : UInt8) :
    printed mem index crtc (chars ++ [c]) = d.putChar c := by
  obtain ⟨d₀, hcls, hchars⟩ := bind_ok.mp hrun
  simp only [printed, hcls, ok_bind, putChars, List.foldlM_append]
  rw [putChars] at hchars
  rw [hchars]
  simp only [ok_bind, List.foldlM_cons, List.foldlM_nil]
  exact bind_pure _

/-- No backspace comes while the cursor is at the origin. -/
def NeverBackFromOrigin (chars : List UInt8) : Prop :=
  ∀ before, before ++ [0x8] <+: chars → (shown before).pos ≠ 0

theorem NeverBackFromOrigin.shows {chars : List UInt8} (h : NeverBackFromOrigin chars)
    (mem : Bytes) (index : UInt8) (crtc : UInt8 → UInt8) :
    ∃ d, printed mem index crtc chars = .ok d ∧ Shows d (shown chars) := by
  induction chars using List.reverseRecOn with
  | nil =>
    obtain ⟨d, hcls, hshows⟩ := clsScreen_shows mem index crtc
    refine ⟨d, ?_, hshows⟩
    simp only [printed, hcls, ok_bind]
    rfl
  | append_singleton chars c ih =>
    obtain ⟨d, hrun, hshows⟩ := ih fun before hpre =>
      h before (hpre.trans (List.prefix_append chars [c]))
    rw [printed_snoc hrun, shown_snoc]
    have hstep := hshows.putChar c
    rwa [if_neg] at hstep
    rintro ⟨rfl, hpos⟩
    exact h chars (List.prefix_refl _) hpos

/-- From a cleared screen on, whatever the memory and the controller held, each of the characters
leaves the cursor within the text, nothing written outside of it, and what the terminal shows. -/
def FollowsTerminal (mem : Bytes) (index : UInt8) (crtc : UInt8 → UInt8) (chars : List UInt8) :
    Prop :=
  ∀ before, before <+: chars → ∃ d, printed mem index crtc before = .ok d ∧
    d.cursor.toNat ≤ 1999 ∧ (∀ a ∈ d.stores, InText a) ∧
    d.cursor.toNat = (shown before).pos ∧ Laid d.text (shown before)

theorem FollowsTerminal.never {mem : Bytes} {index : UInt8} {crtc : UInt8 → UInt8}
    {chars : List UInt8} (h : FollowsTerminal mem index crtc chars) :
    NeverBackFromOrigin chars := by
  intro before hpre hpos
  obtain ⟨d, hrun, -, hstores, hcursor, hcells⟩ :=
    h before ((List.prefix_append before [0x8]).trans hpre)
  have hstep := Shows.putChar ⟨hcursor, hcells, hstores⟩ 0x8
  rw [if_pos ⟨rfl, hpos⟩] at hstep
  obtain ⟨d', hrun', -⟩ := h _ hpre
  rw [printed_snoc hrun, hstep] at hrun'
  cases hrun'

/-- `put_char` keeps to the terminal just when no backspace comes at the origin. -/
theorem putChars_terminal_iff (mem : Bytes) (index : UInt8) (crtc : UInt8 → UInt8)
    (chars : List UInt8) : FollowsTerminal mem index crtc chars ↔ NeverBackFromOrigin chars := by
  constructor
  · exact FollowsTerminal.never
  · intro h before hpre
    have hbefore : NeverBackFromOrigin before := fun b hb => h b (hb.trans hpre)
    obtain ⟨d, hrun, hshows⟩ := hbefore.shows mem index crtc
    have hlt := hshows.lt
    exact ⟨d, hrun, by omega, hshows.stores, hshows.cursor, hshows.cells⟩

/-- A backspace on a cleared screen. -/
theorem putChars_terminal_origin : ¬ FollowsTerminal (fun _ => 0) 0 (fun _ => 0) [0x8] :=
  fun h => h.never [] (List.prefix_refl _) rfl

end Display

end ZhuOS
