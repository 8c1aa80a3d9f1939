/-
# Kernel.Console -- the screen is the end of an unbounded terminal

`Terminal` is what the screen stands for: rows without end, a cursor that only
moves down, and no scrolling.  `Window s t` says that the 25 lines of the screen
are the rows of the terminal from some row on, and that nothing has been written
below them; `Shows` adds that the cursor is on the screen.  `putch` writes, wraps
and scrolls: the first two keep the window, and scrolling moves it down by one
row, which is why the rows below have to be blank.
-/
import MiniKernel.Kernel.Screen

namespace MiniKernel.Kernel

open Theory

set_option autoImplicit false

/-- A terminal of 80 columns; a cell holds a character or nothing. -/
structure Terminal where
  cell : Nat → Nat → Option UInt8
  x : Nat
  y : Nat

namespace Terminal

/-- Nothing written. -/
def blank : Terminal := ⟨fun _ _ => none, 0, 0⟩

/-- What a character does, before the right edge is looked at. -/
def act (t : Terminal) (c : UInt8) : Terminal :=
  if c = 0x08 then { t with x := t.x - 1 }
  else if c = 0x09 then { t with x := (t.x / 8 + 1) * 8 }
  else if c = 0x0D then { t with x := 0 }
  else if c = 0x0A then { t with x := 0, y := t.y + 1 }
  else if 0x20 ≤ c ∧ c < 0x80 then
    { t with
      cell := fun r k => if r = t.y ∧ k = t.x then some c else t.cell r k
      x := t.x + 1 }
  else t

/-- The next row follows column 79. -/
def wrap (t : Terminal) : Terminal :=
  if 80 ≤ t.x then { t with x := 0, y := t.y + 1 } else t

def put (t : Terminal) (c : UInt8) : Terminal := (t.act c).wrap

end Terminal

/-- The word of the text memory for a cell of the terminal. -/
def cellWord : Option UInt8 → UInt16
  | none => monBlankChar
  | some c => charCell c

/-- The lines of the screen are the rows from `top` on. -/
structure Window (s : Screen) (t : Terminal) (top : Nat) : Prop where
  column : s.cursorX = t.x
  row : t.y = top + s.cursorY
  cells : ∀ r c, r < 25 → c < 80 → s.textmem (80 * r + c) = cellWord (t.cell (top + r) c)
  below : ∀ r c, top + 25 ≤ r → c < 80 → t.cell r c = none

/-- What is on the screen, and where. -/
structure Shows (s : Screen) (t : Terminal) : Prop where
  cursorX : s.cursorX < 80
  cursorY : s.cursorY < 25
  column : s.cursorX = t.x
  /-- The screen does not start above the first row. -/
  fits : s.cursorY ≤ t.y
  cells : ∀ r c, r < 25 → c < 80 →
    s.textmem (80 * r + c) = cellWord (t.cell (t.y - s.cursorY + r) c)
  below : ∀ r c, t.y - s.cursorY + 25 ≤ r → c < 80 → t.cell r c = none
  /-- The hardware cursor stands where the next character goes. -/
  csr : s.crtc 14 * 256 + s.crtc 15 = s.cursorY * 80 + s.cursorX

theorem Shows.window {s : Screen} {t : Terminal} (h : Shows s t) :
    Window s t (t.y - s.cursorY) where
  column := h.column
  row := by
    have := h.fits
    omega
  cells := h.cells
  below := h.below

section Rules

variable {s : Screen} {t : Terminal} {top : Nat} {E : Nat → Prop}

/-- A window on which `move_csr` is called. -/
theorem wp_moveCsr_shows (h : Window s t top) (hx : s.cursorX < 80) (hy : s.cursorY < 25) :
    Program.wp moveCsr (fun _ s' => Shows s' t) E s := by
  refine wp_moveCsr fun crtc location => ?_
  have row := h.row
  have start : t.y - s.cursorY = top := by omega
  exact {
    cursorX := hx
    cursorY := hy
    column := h.column
    fits := by
      dsimp only
      omega
    cells := by
      dsimp only
      rw [start]
      exact h.cells
    below := by
      dsimp only
      rw [start]
      exact h.below
    csr := by
      dsimp only
      omega }

/-- A character goes where the cursor is. -/
theorem Window.write (h : Window s t top) (hx : s.cursorX < 80) (hy : s.cursorY < 25) (c : UInt8) :
    Window { s with
        cursorX := (s.cursorX + 1) % 256
        textmem := Function.update s.textmem (s.cursorX + 80 * s.cursorY) (charCell c) }
      { t with
        cell := fun r k => if r = t.y ∧ k = t.x then some c else t.cell r k
        x := t.x + 1 } top where
  column := by
    have := h.column
    dsimp only
    omega
  row := h.row
  cells r k hr hk := by
    have column := h.column
    have row := h.row
    dsimp only
    by_cases here : 80 * r + k = s.cursorX + 80 * s.cursorY
    · have same : top + r = t.y ∧ k = t.x := by omega
      rw [here, Function.update_self, if_pos same]
      rfl
    · have other : ¬(top + r = t.y ∧ k = t.x) := by omega
      rw [Function.update_of_ne here, if_neg other]
      exact h.cells r k hr hk
  below r k hr hk := by
    have row := h.row
    have other : ¬(r = t.y ∧ k = t.x) := by omega
    dsimp only
    rw [if_neg other]
    exact h.below r k hr hk

/-- The cursor moves, nothing is written. -/
theorem Window.move (h : Window s t top) {x x' y y' : Nat} (column : x = x') (row : y' = top + y) :
    Window { s with cursorX := x, cursorY := y } { t with x := x', y := y' } top where
  column := column
  row := row
  cells := h.cells
  below := h.below

theorem wp_putchAct (h : Window s t top) (hx : s.cursorX < 80) (hy : s.cursorY < 25) (c : UInt8) :
    Program.wp (putchAct c)
      (fun _ s' => Window s' (t.act c) top ∧ s'.cursorX ≤ 80 ∧ s'.cursorY ≤ 25 ∧
        (80 ≤ s'.cursorX → s'.cursorY < 25)) E s := by
  have column := h.column
  have row := h.row
  rw [putchAct, Program.wp_bind, Program.wp_get, Terminal.act]
  by_cases back : c = 0x08
  · subst back
    rw [if_pos rfl]
    by_cases inner : 0 < s.cursorX
    · rw [if_pos ⟨rfl, inner⟩]
      exact ⟨h.move (by omega) row, by dsimp only; omega, by dsimp only; omega, fun _ => hy⟩
    · rw [if_neg fun both => inner both.2]
      exact ⟨h.move (y := s.cursorY) (by omega) row, by omega, by omega, fun _ => hy⟩
  rw [if_neg fun both => back both.1, if_neg back]
  by_cases tab : c = 0x09
  · rw [if_pos tab, if_pos tab]
    exact ⟨h.move (by omega) row, by dsimp only; omega, by dsimp only; omega, fun _ => hy⟩
  rw [if_neg tab, if_neg tab]
  by_cases ret : c = 0x0D
  · rw [if_pos ret, if_pos ret]
    exact ⟨h.move rfl row, by dsimp only; omega, by dsimp only; omega, fun _ => hy⟩
  rw [if_neg ret, if_neg ret]
  by_cases line : c = 0x0A
  · rw [if_pos line, if_pos line]
    refine ⟨h.move rfl (by omega), by dsimp only; omega, by dsimp only; omega, fun far => ?_⟩
    exact absurd far (Nat.not_succ_le_zero 79)
  rw [if_neg line, if_neg line]
  by_cases shown : 0x20 ≤ c ∧ c < 0x80
  · rw [if_pos shown, if_pos shown, Program.wp_bind, Program.wp_modify,
      wp_writeCell (by unfold monWidth; omega)]
    exact ⟨h.write hx hy c, by dsimp only; omega, by dsimp only; omega, fun _ => hy⟩
  · rw [if_neg shown, if_neg shown]
    exact ⟨h, by omega, by omega, fun _ => hy⟩

theorem wp_putchWrap (h : Window s t top) (hx : s.cursorX ≤ 80) (hy : s.cursorY ≤ 25)
    (edge : 80 ≤ s.cursorX → s.cursorY < 25) :
    Program.wp putchWrap
      (fun _ s' => Window s' t.wrap top ∧ s'.cursorX < 80 ∧ s'.cursorY ≤ 25) E s := by
  have column := h.column
  have row := h.row
  rw [putchWrap, Program.wp_bind, Program.wp_get, Program.wp_ite, Terminal.wrap, ← column]
  refine ⟨fun far => ?_, fun inside => ?_⟩
  · have far : 80 ≤ s.cursorX := far
    have inner := edge far
    rw [if_pos far]
    exact ⟨h.move rfl (by omega), Nat.succ_pos 79, by dsimp only; omega⟩
  · have inside : ¬80 ≤ s.cursorX := inside
    rw [if_neg inside]
    exact ⟨h, by omega, hy⟩

/-- Scrolling moves the window down by one row. -/
theorem wp_scroll_window (h : Window s t top) (hx : s.cursorX < 80) (hy : s.cursorY ≤ 25) :
    Program.wp scroll
      (fun _ s' => ∃ top', Window s' t top' ∧ s'.cursorX < 80 ∧ s'.cursorY < 25) E s := by
  have row := h.row
  refine wp_scroll (fun above => ⟨top, h, hx, above⟩) fun bottom text copied blanked => ?_
  refine ⟨top + 1, ⟨h.column, by dsimp only; omega, fun r c hr hc => ?_, fun r c hr hc => ?_⟩, hx,
    Nat.lt_succ_self 24⟩
  · dsimp only
    by_cases last : r < 24
    · have line := h.cells (r + 1) c (by omega) hc
      rw [show 80 * (r + 1) + c = 80 * r + c + 80 by omega] at line
      rw [copied _ (by omega), line, show top + 1 + r = top + (r + 1) by omega]
    · rw [blanked _ (by omega) (by omega), h.below _ c (by omega) hc]
      rfl
  · exact h.below r c (by omega) hc

/-- One character. -/
theorem wp_putch (h : Shows s t) (c : UInt8) :
    Program.wp (putch c) (fun _ s' => Shows s' (t.put c)) E s := by
  rw [putch]
  refine Program.wp_bind_of (wp_putchAct h.window h.cursorX h.cursorY c) ?_
  rintro _ s₁ ⟨window, hx, hy, edge⟩
  refine Program.wp_bind_of (wp_putchWrap window hx hy edge) ?_
  rintro _ s₂ ⟨window, hx, hy⟩
  refine Program.wp_bind_of (wp_scroll_window window hx hy) ?_
  rintro _ s₃ ⟨top', window, hx, hy⟩
  exact wp_moveCsr_shows window hx hy

/-- A string, up to its null. -/
theorem wp_screenWrite (h : Shows s t) (cs : List UInt8) :
    Program.wp (screenWrite cs)
      (fun _ s' => Shows s' ((cs.takeWhile (· ≠ 0)).foldl Terminal.put t)) E s := by
  induction cs generalizing s t with
  | nil => exact h
  | cons c cs ih =>
      rw [screenWrite, Program.wp_ite]
      refine ⟨fun null => ?_, fun other => ?_⟩
      · rw [List.takeWhile_cons_of_neg (by simpa using null)]
        exact h
      · rw [List.takeWhile_cons_of_pos (by simpa using other), List.foldl_cons]
        exact Program.wp_bind_of (wp_putch h c) fun _ _ shows => ih shows

/-- `cls` from any state. -/
theorem wp_cls : Program.wp cls (fun _ s' => Shows s' Terminal.blank) E s := by
  rw [cls, Program.wp_bind]
  generalize size : monWidth * monHeight = n
  have cells : n = 2000 := size.symm
  refine wp_blank (by omega) fun text blanked => ?_
  rw [Program.wp_bind, Program.wp_modify]
  have window : Window { s with textmem := text, cursorX := 0, cursorY := 0 } Terminal.blank 0 := by
    refine ⟨rfl, rfl, fun r c hr hc => ?_, fun _ _ _ _ => rfl⟩
    dsimp only
    rw [blanked, if_pos (by omega)]
    rfl
  exact wp_moveCsr_shows window (Nat.succ_pos 79) (Nat.succ_pos 24)

end Rules

/-! ## Runs -/

/-- A use of the console. -/
inductive ConsoleOp where
  | putch (c : UInt8)
  | screenWrite (cs : List UInt8)

namespace ConsoleOp

def run : ConsoleOp → ScreenM Unit
  | .putch c => Kernel.putch c
  | .screenWrite cs => Kernel.screenWrite cs

/-- The characters the terminal gets. -/
def chars : ConsoleOp → List UInt8
  | .putch c => [c]
  | .screenWrite cs => cs.takeWhile (· ≠ 0)

/-- One operation after the other. -/
def runAll : List ConsoleOp → ScreenM Unit
  | [] => pure ()
  | op :: ops => do
      op.run
      runAll ops

/-- `cls` and the operations that follow. -/
def session (ops : List ConsoleOp) : ScreenM Unit := do
  cls
  runAll ops

theorem wp_run {s : Screen} {t : Terminal} {E : Nat → Prop} (h : Shows s t) (op : ConsoleOp) :
    Program.wp op.run (fun _ s' => Shows s' (op.chars.foldl Terminal.put t)) E s := by
  cases op with
  | putch c => exact wp_putch h c
  | screenWrite cs => exact wp_screenWrite h cs

theorem wp_runAll {s : Screen} {t : Terminal} {E : Nat → Prop} (h : Shows s t)
    (ops : List ConsoleOp) :
    Program.wp (runAll ops)
      (fun _ s' => Shows s' ((ops.flatMap ConsoleOp.chars).foldl Terminal.put t)) E s := by
  induction ops generalizing s t with
  | nil => exact h
  | cons op ops ih =>
      rw [runAll, List.flatMap_cons, List.foldl_append]
      exact Program.wp_bind_of (wp_run h op) fun _ _ shows => ih shows

end ConsoleOp

/-- Whatever is written, the screen shows the end of the terminal, and no cell
outside of it is touched. -/
theorem console_shows_terminal (s : Screen) (ops : List ConsoleOp) :
    ∃ s', ConsoleOp.session ops s = .ok ((), s') ∧
      Shows s' ((ops.flatMap ConsoleOp.chars).foldl Terminal.put Terminal.blank) := by
  have all : Program.wp (ConsoleOp.session ops)
      (fun _ s' => Shows s' ((ops.flatMap ConsoleOp.chars).foldl Terminal.put Terminal.blank))
      (fun _ => False) s := by
    rw [ConsoleOp.session]
    exact Program.wp_bind_of wp_cls fun _ _ shows => ConsoleOp.wp_runAll shows ops
  exact Program.wp_returns all

end MiniKernel.Kernel
