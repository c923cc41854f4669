import ZhuOS.Lib.Bytes
import ZhuOS.Machine

/-!
# `lib/kernel/print.S`: the screen

The text of the screen is in the video memory, the cursor in two registers of the CRT controller.
`put_char` writes through the segment of the video memory and faults behind its limit. The
registers of the processor are saved on the stack and restored, so a call leaves only the display
changed. A label that is jumped to is a definition of its own.
-/

namespace ZhuOS

open ByteMem

/-- The base of the segment in `gs`. -/
def VIDEO_BASE : Nat := 0xc00b8000

/-- The last offset in it: eight pages. -/
def VIDEO_LIMIT : Nat := 0x7fff

/-- The memory, the index and the registers of the controller, and the addresses written to. -/
structure Display where
  mem : Bytes
  index : UInt8
  crtc : UInt8 → UInt8
  stores : List Nat

namespace Display

/-- `out 0x03d4, al` -/
def outIndex (d : Display) (al : UInt8) : Display := { d with index := al }

/-- `out 0x03d5, al` -/
def outData (d : Display) (al : UInt8) : Display :=
  { d with crtc := Function.update d.crtc d.index al }

/-- `in al, 0x03d5` -/
def inData (d : Display) : UInt8 := d.crtc d.index

/-- `mov byte [gs:off], v` -/
def storeGs (d : Display) (off : Nat) (v : UInt8) : Except Fault Display :=
  if off ≤ VIDEO_LIMIT then
    .ok { d with
      mem := Function.update d.mem (VIDEO_BASE + off) v
      stores := (VIDEO_BASE + off) :: d.stores }
  else .error .outOfBounds

/-- `mov word [gs:ebx], 0x0720; add ebx, 2; loop .cls` -/
def cls : (ecx ebx : Nat) → Display → Except Fault Display
  | 0, _, d => return d
  | ecx + 1, ebx, d => do
    let d ← d.storeGs ebx 0x20
    let d ← d.storeGs (ebx + 1) 0x07
    cls ecx (ebx + 2) d

/-- `rep movsd`, through the flat segments -/
def repMovsd : (ecx esi edi : Nat) → Display → Display
  | 0, _, _, d => d
  | ecx + 1, esi, edi, d =>
    repMovsd ecx (esi + 4) (edi + 4)
      { d with mem := blit d.mem edi d.mem esi 4, stores := List.range' edi 4 ++ d.stores }

/-- The position in the two registers, high byte first. -/
def getCursor (d : Display) : UInt16 × Display :=
  let d := d.outIndex 0x0e
  let ah := d.inData
  let d := d.outIndex 0x0f
  let al := d.inData
  (.ofNat (ah.toNat * 256 + al.toNat), d)

/-- `set_cursor`, and `.set_cursor` in the other routines -/
def setCursor (d : Display) (bx : UInt16) : Display :=
  let bh := .ofNat (bx.toNat / 256)
  let bl := .ofNat bx.toNat
  (((d.outIndex 0x0e).outData bh).outIndex 0x0f).outData bl

/-- `.roll_screen` -/
def rollScreen (d : Display) : Except Fault Display := do
  let d := repMovsd 960 0xc00b80a0 0xc00b8000 d
  let d ← cls 80 3840 d
  return d.setCursor 1920

/-- `.is_line_feed` and `.is_carriage_return` -/
def isLineFeed (d : Display) (bx : UInt16) : Except Fault Display :=
  let dx := bx % 80 -- the remainder of `div si`
  let bx := bx - dx
  let bx := bx + 80
  if bx.toInt16 < 2000 then return d.setCursor bx else d.rollScreen

/-- `.is_backspace` -/
def isBackspace (d : Display) (bx : UInt16) : Except Fault Display := do
  let bx := bx - 1
  let bx := bx <<< 1
  let d ← d.storeGs bx.toNat 0x20
  let bx := bx + 1
  let d ← d.storeGs bx.toNat 0x07
  let bx := bx >>> 1
  return d.setCursor bx

/-- `.put_other` -/
def putOther (d : Display) (bx : UInt16) (cl : UInt8) : Except Fault Display := do
  let bx := bx <<< 1
  let d ← d.storeGs bx.toNat cl
  let bx := bx + 1
  let d ← d.storeGs bx.toNat 0x07
  let bx := bx >>> 1
  let bx := bx + 1
  if bx.toInt16 < 2000 then return d.setCursor bx else d.isLineFeed bx

/-- `put_char` -/
def putChar (d : Display) (cl : UInt8) : Except Fault Display :=
  let (bx, d) := d.getCursor
  if cl = 0xd then d.isLineFeed bx
  else if cl = 0xa then d.isLineFeed bx
  else if cl = 0x8 then d.isBackspace bx
  else d.putOther bx cl

/-- `cls_screen` -/
def clsScreen (d : Display) : Except Fault Display := do
  let d ← cls (80 * 25) 0 d
  return d.setCursor 0

/-- Calls of `put_char`, one after the other. -/
def putChars (d : Display) (chars : List UInt8) : Except Fault Display := chars.foldlM putChar d

end Display

end ZhuOS
