/-
# Kernel.Screen -- screen.c: the text screen

The text memory is an array of 16-bit words, a character and its attribute each.
The functions here stop with the index when they reach a cell outside the 2000
of the screen (`ScreenM`), so a rule whose error side is `False` says that they
never do.  The cursors are `uint8_t`; the hardware cursor is two registers of the
CRT controller behind an index port.
-/
import MiniKernel.Theory.Program
import Mathlib.Logic.Function.Basic

namespace MiniKernel.Kernel

open Theory

set_option autoImplicit false

/-- `MON_WIDTH` -/
def monWidth : Nat := 80
/-- `MON_HEIGHT` -/
def monHeight : Nat := 25
/-- `MON_DEFAULT_ATTR_BYTE` -/
def monDefaultAttrByte : UInt16 := ((0 : UInt16) <<< 4) ||| ((15 : UInt16) &&& 0x0F)
/-- `MON_BLANK_CHAR` -/
def monBlankChar : UInt16 := (0x20 : UInt16) ||| (monDefaultAttrByte <<< 8)

/-- The statics of screen.c, the text memory, and the CRT controller. -/
structure Screen where
  textmem : Nat → UInt16
  cursorX : Nat
  cursorY : Nat
  crtcIndex : Nat
  crtc : Nat → Nat

/-- Functions of screen.c; they stop with the index of a cell that does not exist. -/
abbrev ScreenM := Program Screen Nat

/-- `textmemptr[i]` -/
def readCell (i : Nat) : ScreenM UInt16 := do
  if i < monWidth * monHeight then do
    let s ← get
    pure (s.textmem i)
  else Program.stop i

/-- `textmemptr[i] = v` -/
def writeCell (i : Nat) (v : UInt16) : ScreenM Unit :=
  if i < monWidth * monHeight then
    modify fun s => { s with textmem := Function.update s.textmem i v }
  else Program.stop i

/-- `outb`, to the two ports of the CRT controller. -/
def outb (port value : Nat) : ScreenM Unit :=
  modify fun s =>
    if port = 0x3D4 then { s with crtcIndex := value }
    else if port = 0x3D5 then { s with crtc := Function.update s.crtc s.crtcIndex value }
    else s

/-- `move_csr` -/
def moveCsr : ScreenM Unit := do
  let s ← get
  let cursorLocation := (s.cursorY * monWidth + s.cursorX) % 65536
  outb 0x3D4 14
  outb 0x3D5 (cursorLocation / 256)
  outb 0x3D4 15
  outb 0x3D5 (cursorLocation % 256)

/-- The first loop of `scroll`: `n` cells from `i` on get what is a line below. -/
def copyUp : Nat → Nat → ScreenM Unit
  | 0, _ => pure ()
  | n + 1, i => do
      let v ← readCell (i + monWidth)
      writeCell i v
      copyUp n (i + 1)

/-- The loops that blank `n` cells from `i` on. -/
def blank : Nat → Nat → ScreenM Unit
  | 0, _ => pure ()
  | n + 1, i => do
      writeCell i monBlankChar
      blank n (i + 1)

/-- `scroll` -/
def scroll : ScreenM Unit := do
  let s ← get
  if monHeight ≤ s.cursorY then do
    copyUp (monWidth * (monHeight - 1)) 0
    blank monWidth (monWidth * (monHeight - 1))
    modify fun s => { s with cursorY := monHeight - 1 }
  else pure ()

/-- The word `putch` writes for a character: green on black. -/
def charCell (c : UInt8) : UInt16 :=
  let attrByte : UInt16 := ((0 : UInt16) <<< 4) ||| ((2 : UInt16) &&& 0x0F)
  c.toUInt16 ||| (attrByte <<< 8)

/-- The chain of tests in `putch`.  `char` is signed, so from 0x80 on a character is
less than a space. -/
def putchAct (c : UInt8) : ScreenM Unit := do
  let s ← get
  if c = 0x08 ∧ 0 < s.cursorX then
    modify fun s => { s with cursorX := s.cursorX - 1 }
  else if c = 0x09 then
    -- & ~(8 - 1)
    modify fun s => { s with cursorX := (s.cursorX + 8) / 8 * 8 % 256 }
  else if c = 0x0D then
    modify fun s => { s with cursorX := 0 }
  else if c = 0x0A then
    modify fun s => { s with cursorX := 0, cursorY := (s.cursorY + 1) % 256 }
  else if 0x20 ≤ c ∧ c < 0x80 then do
    modify fun s => { s with cursorX := (s.cursorX + 1) % 256 }
    writeCell (s.cursorX + monWidth * s.cursorY) (charCell c)
  else pure ()

/-- The wrap at the right edge. -/
def putchWrap : ScreenM Unit := do
  let s ← get
  if monWidth ≤ s.cursorX then
    modify fun s => { s with cursorX := 0, cursorY := (s.cursorY + 1) % 256 }
  else pure ()

/-- `putch` -/
def putch (c : UInt8) : ScreenM Unit := do
  putchAct c
  putchWrap
  scroll
  moveCsr

/-- `cls` -/
def cls : ScreenM Unit := do
  blank (monWidth * monHeight) 0
  modify fun s => { s with cursorX := 0, cursorY := 0 }
  moveCsr

/-- `screen_write`, of the characters up to the first null. -/
def screenWrite : List UInt8 → ScreenM Unit
  | [] => pure ()
  | c :: cs =>
      if c = 0 then pure ()
      else do
        putch c
        screenWrite cs

/-! ## The loops -/

section Rules

variable {s : Screen} {E : Nat → Prop}

theorem wp_readCell {i : Nat} (inside : i < 2000) {Q : UInt16 → Screen → Prop} :
    Program.wp (readCell i) Q E s ↔ Q (s.textmem i) s := by
  have inside : i < monWidth * monHeight := inside
  rw [readCell, if_pos inside]
  rfl

theorem wp_writeCell {i : Nat} {v : UInt16} (inside : i < 2000) {Q : Unit → Screen → Prop} :
    Program.wp (writeCell i v) Q E s ↔
      Q () { s with textmem := Function.update s.textmem i v } := by
  have inside : i < monWidth * monHeight := inside
  rw [writeCell, if_pos inside]
  rfl

/-- The lines move up; what is copied has not been written yet. -/
theorem wp_copyUp {n i : Nat} (inside : i + n + 80 ≤ 2000) {Q : Unit → Screen → Prop}
    (post : ∀ text : Nat → UInt16,
      (∀ j, text j = if i ≤ j ∧ j < i + n then s.textmem (j + 80) else s.textmem j) →
      Q () { s with textmem := text }) : Program.wp (copyUp n i) Q E s := by
  induction n generalizing s i with
  | zero => exact post s.textmem fun j => (if_neg (by omega)).symm
  | succ n ih =>
      rw [copyUp, Program.wp_bind, wp_readCell (by unfold monWidth; omega), Program.wp_bind,
        wp_writeCell (by omega)]
      refine ih (by omega) fun text same => post text fun j => ?_
      rw [same j]
      dsimp only
      rcases Nat.lt_trichotomy j i with before | rfl | behind
      · rw [if_neg (by omega), if_neg (by omega), Function.update_of_ne (by omega)]
      · rw [if_neg (by omega), if_pos (by omega), Function.update_self]
        rfl
      · by_cases last : j < i + 1 + n
        · rw [if_pos (by omega), if_pos (by omega), Function.update_of_ne (by omega)]
        · rw [if_neg (by omega), if_neg (by omega), Function.update_of_ne (by omega)]

theorem wp_blank {n i : Nat} (inside : i + n ≤ 2000) {Q : Unit → Screen → Prop}
    (post : ∀ text : Nat → UInt16,
      (∀ j, text j = if i ≤ j ∧ j < i + n then monBlankChar else s.textmem j) →
      Q () { s with textmem := text }) : Program.wp (blank n i) Q E s := by
  induction n generalizing s i with
  | zero => exact post s.textmem fun j => (if_neg (by omega)).symm
  | succ n ih =>
      rw [blank, Program.wp_bind, wp_writeCell (by omega)]
      refine ih (by omega) fun text same => post text fun j => ?_
      rw [same j]
      dsimp only
      rcases Nat.lt_trichotomy j i with before | rfl | behind
      · rw [if_neg (by omega), if_neg (by omega), Function.update_of_ne (by omega)]
      · rw [if_neg (by omega), if_pos (by omega), Function.update_self]
      · by_cases last : j < i + 1 + n
        · rw [if_pos (by omega), if_pos (by omega)]
        · rw [if_neg (by omega), if_neg (by omega), Function.update_of_ne (by omega)]

-- from here on the loop is what `wp_blank` says, not 2000 stores to unfold
attribute [irreducible] blank

/-- `scroll` at the bottom: every line is the one that was below it, the last one is
blank. -/
theorem wp_scroll {Q : Unit → Screen → Prop} (stays : s.cursorY < 25 → Q () s)
    (moves : 25 ≤ s.cursorY → ∀ text : Nat → UInt16,
      (∀ j, j < 1920 → text j = s.textmem (j + 80)) →
      (∀ j, 1920 ≤ j → j < 2000 → text j = monBlankChar) →
      Q () { s with textmem := text, cursorY := 24 }) : Program.wp scroll Q E s := by
  rw [scroll, Program.wp_bind, Program.wp_get]
  by_cases bottom : monHeight ≤ s.cursorY
  · rw [if_pos bottom, Program.wp_bind]
    generalize size : monWidth * (monHeight - 1) = n
    have lines : n = 1920 := size.symm
    have width : monWidth = 80 := rfl
    refine wp_copyUp (by omega) fun text copied => ?_
    rw [Program.wp_bind]
    refine wp_blank (by omega) fun text' blanked => ?_
    rw [Program.wp_modify]
    refine moves bottom text' (fun j h => ?_) fun j h1 h2 => ?_
    · rw [blanked j, if_neg (by omega)]
      dsimp only
      rw [copied j, if_pos (by omega)]
    · rw [blanked j, if_pos (by omega)]
  · rw [if_neg bottom]
    exact stays (Nat.lt_of_not_le bottom)

theorem wp_outb_index {v : Nat} {Q : Unit → Screen → Prop} :
    Program.wp (outb 0x3D4 v) Q E s ↔ Q () { s with crtcIndex := v } := by
  rw [outb, Program.wp_modify, if_pos rfl]

theorem wp_outb_data {v : Nat} {Q : Unit → Screen → Prop} :
    Program.wp (outb 0x3D5 v) Q E s ↔
      Q () { s with crtc := Function.update s.crtc s.crtcIndex v } := by
  rw [outb, Program.wp_modify]
  simp

/-- `move_csr` leaves all but the registers of the controller. -/
theorem wp_moveCsr {Q : Unit → Screen → Prop}
    (post : ∀ crtc : Nat → Nat,
      crtc 14 * 256 + crtc 15 = (s.cursorY * 80 + s.cursorX) % 65536 →
      Q () { s with crtcIndex := 15, crtc := crtc }) : Program.wp moveCsr Q E s := by
  rw [moveCsr, Program.wp_bind, Program.wp_get, monWidth]
  generalize (s.cursorY * 80 + s.cursorX) % 65536 = location at post ⊢
  rw [Program.wp_bind, wp_outb_index, Program.wp_bind, wp_outb_data, Program.wp_bind, wp_outb_index,
    wp_outb_data]
  refine post _ ?_
  dsimp only
  rw [Function.update_self, Function.update_of_ne (by decide), Function.update_self]
  omega

end Rules

end MiniKernel.Kernel
