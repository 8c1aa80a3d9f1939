/-
# Kernel.ConsoleThreads -- putch, one C statement at a time, in several threads

The threads share the cursor and the text memory, and the timer may pass the
processor to another thread between any two statements.  Left alone, the statements
of a call are the `putch` of `Kernel.Screen` (`runs_putch`).

`putch` moves the cursor off the screen and brings it back: over the right edge until
the wrap, over the bottom until `scroll` has moved the lines.  A thread that is given
the processor meanwhile puts its character where the cursor is, behind the last cell
when both edges are passed (`late_wrap_writes_behind_text`).  When every switch finds
the cursor on the screen, whatever the threads have left to do, no write goes outside
(`writes_inside_of_run`).
-/
import MiniKernel.Kernel.Screen
import MiniKernel.Theory.Transition
import Mathlib.Logic.Relation

namespace MiniKernel.Kernel

open Theory

set_option autoImplicit false

/-! ## Statements -/

/-- The statement of `putch` or `scroll` a thread executes next, with its locals. -/
inductive PutchPc where
  /-- Not in `putch`. -/
  | idle
  /-- The tests on the character. -/
  | chain (c : UInt8)
  /-- `cursor_x--` -/
  | back
  /-- `cursor_x = (cursor_x + 8) & ~(8 - 1)` -/
  | tab
  /-- `cursor_x = 0`, of a carriage return -/
  | ret
  /-- `cursor_x = 0`, of a newline -/
  | lineX
  /-- `cursor_y++`, of a newline -/
  | lineY
  /-- `location = textmemptr + (cursor_x++ + MON_WIDTH * cursor_y)` -/
  | locate (c : UInt8)
  /-- `*location = c | attr` -/
  | store (c : UInt8) (location : Nat)
  /-- `if (cursor_x >= MON_WIDTH)` -/
  | wrapTest
  /-- `cursor_x = 0`, of the wrap -/
  | wrapX
  /-- `cursor_y++`, of the wrap -/
  | wrapY
  /-- `if (cursor_y >= MON_HEIGHT)` -/
  | scrollTest
  /-- `textmemptr[i] = textmemptr[i + MON_WIDTH]`, while `i` is in the loop -/
  | copy (i : Nat)
  /-- `textmemptr[i] = MON_BLANK_CHAR`, while `i` is in the loop -/
  | clear (i : Nat)
  /-- `cursor_y = MON_HEIGHT - 1` -/
  | scrollY
  /-- `move_csr()` -/
  | csr
  deriving DecidableEq

namespace PutchPc

/-- Where the tests on the character lead. -/
def branch (c : UInt8) (s : Screen) : PutchPc :=
  if c = 0x08 ∧ 0 < s.cursorX then .back
  else if c = 0x09 then .tab
  else if c = 0x0D then .ret
  else if c = 0x0A then .lineX
  else if 0x20 ≤ c ∧ c < 0x80 then .locate c
  else .wrapTest

/-- One statement.  The loop variables are local, so a round of a loop is one
statement. -/
def exec : PutchPc × Screen → PutchPc × Screen
  | (.idle, s) => (.idle, s)
  | (.chain c, s) => (branch c s, s)
  | (.back, s) => (.wrapTest, { s with cursorX := (s.cursorX + 255) % 256 })
  | (.tab, s) => (.wrapTest, { s with cursorX := (s.cursorX + 8) / 8 * 8 % 256 })
  | (.ret, s) => (.wrapTest, { s with cursorX := 0 })
  | (.lineX, s) => (.lineY, { s with cursorX := 0 })
  | (.lineY, s) => (.wrapTest, { s with cursorY := (s.cursorY + 1) % 256 })
  | (.locate c, s) =>
      (.store c (s.cursorX + monWidth * s.cursorY), { s with cursorX := (s.cursorX + 1) % 256 })
  | (.store c location, s) =>
      (.wrapTest, { s with textmem := Function.update s.textmem location (charCell c) })
  | (.wrapTest, s) => (if monWidth ≤ s.cursorX then .wrapX else .scrollTest, s)
  | (.wrapX, s) => (.wrapY, { s with cursorX := 0 })
  | (.wrapY, s) => (.scrollTest, { s with cursorY := (s.cursorY + 1) % 256 })
  | (.scrollTest, s) => (if monHeight ≤ s.cursorY then .copy 0 else .csr, s)
  | (.copy i, s) =>
      if i < monWidth * (monHeight - 1) then
        (.copy (i + 1), { s with textmem := Function.update s.textmem i (s.textmem (i + monWidth)) })
      else (.clear (monWidth * (monHeight - 1)), s)
  | (.clear i, s) =>
      if i < monWidth * monHeight then
        (.clear (i + 1), { s with textmem := Function.update s.textmem i monBlankChar })
      else (.scrollY, s)
  | (.scrollY, s) => (.csr, { s with cursorY := monHeight - 1 })
  | (.csr, s) => (.idle, ((moveCsr s).toOption.map Prod.snd).getD s)

/-- The cell that the statement writes. -/
def target : PutchPc → Option Nat
  | .store _ location => some location
  | .copy i => if i < monWidth * (monHeight - 1) then some i else none
  | .clear i => if i < monWidth * monHeight then some i else none
  | _ => none

end PutchPc

/-! ## A call that is left alone -/

/-- Statements one after the other. -/
abbrev Runs : PutchPc × Screen → PutchPc × Screen → Prop :=
  Relation.ReflTransGen fun a b => b = PutchPc.exec a

section Alone

variable {s : Screen} {E : Nat → Prop}

theorem Runs.next {a : PutchPc × Screen} {b : PutchPc × Screen} (rest : Runs (PutchPc.exec a) b) :
    Runs a b := .head rfl rest

theorem runs_one (a : PutchPc × Screen) : Runs a (PutchPc.exec a) := .single rfl

theorem runs_putchAct (hx : s.cursorX < 80) (hy : s.cursorY < 25) (c : UInt8) :
    Program.wp (putchAct c) (fun _ s' => Runs (.chain c, s) (.wrapTest, s')) E s := by
  have start : ∀ pc, PutchPc.branch c s = pc → ∀ b, Runs (pc, s) b → Runs (.chain c, s) b := by
    rintro _ rfl b rest
    exact Runs.next rest
  unfold PutchPc.branch at start
  rw [putchAct, Program.wp_bind, Program.wp_get]
  split
  · rename_i back
    rw [if_pos back] at start
    refine start _ rfl _ (.single ?_)
    have same : (s.cursorX + 255) % 256 = s.cursorX - 1 := by omega
    simp only [PutchPc.exec, same]
  split
  · rename_i back tab
    rw [if_neg back, if_pos tab] at start
    exact start _ rfl _ (runs_one _)
  split
  · rename_i back tab ret
    rw [if_neg back, if_neg tab, if_pos ret] at start
    exact start _ rfl _ (runs_one _)
  split
  · rename_i back tab ret line
    rw [if_neg back, if_neg tab, if_neg ret, if_pos line] at start
    exact start _ rfl _ (Runs.next (runs_one _))
  split
  · rename_i back tab ret line shown
    rw [if_neg back, if_neg tab, if_neg ret, if_neg line, if_pos shown] at start
    rw [Program.wp_bind, Program.wp_modify, wp_writeCell (by unfold monWidth; omega)]
    exact start _ rfl _ (Runs.next (runs_one _))
  · rename_i back tab ret line shown
    rw [if_neg back, if_neg tab, if_neg ret, if_neg line, if_neg shown] at start
    exact start _ rfl _ .refl

theorem runs_putchWrap :
    Program.wp putchWrap (fun _ s' => Runs (.wrapTest, s) (.scrollTest, s')) E s := by
  rw [putchWrap, Program.wp_bind, Program.wp_get]
  split
  · rename_i far
    refine Runs.next ?_
    rw [PutchPc.exec, if_pos far]
    exact Runs.next (runs_one _)
  · rename_i inside
    refine .single ?_
    rw [PutchPc.exec, if_neg inside]

theorem runs_copyUp {n i : Nat} (inside : i + n ≤ monWidth * (monHeight - 1)) :
    Program.wp (copyUp n i) (fun _ s' => Runs (.copy i, s) (.copy (i + n), s')) E s := by
  have lines : monWidth * (monHeight - 1) = 1920 := rfl
  have width : monWidth = 80 := rfl
  induction n generalizing s i with
  | zero => exact .refl
  | succ n ih =>
      rw [copyUp, Program.wp_bind, wp_readCell (by omega), Program.wp_bind, wp_writeCell (by omega)]
      refine Program.wp_mono (ih (by omega)) ?_ fun _ e => e
      intro _ s' rest
      refine Runs.next ?_
      rw [PutchPc.exec, if_pos (by omega)]
      rwa [Nat.add_right_comm] at rest

theorem runs_blank {n i : Nat} (inside : i + n ≤ monWidth * monHeight) :
    Program.wp (blank n i) (fun _ s' => Runs (.clear i, s) (.clear (i + n), s')) E s := by
  have cells : monWidth * monHeight = 2000 := rfl
  induction n generalizing s i with
  | zero =>
      rw [blank]
      exact .refl
  | succ n ih =>
      rw [blank, Program.wp_bind, wp_writeCell (by omega)]
      refine Program.wp_mono (ih (by omega)) ?_ fun _ e => e
      intro _ s' rest
      refine Runs.next ?_
      rw [PutchPc.exec, if_pos (by omega)]
      rwa [Nat.add_right_comm] at rest

theorem runs_scroll : Program.wp scroll (fun _ s' => Runs (.scrollTest, s) (.csr, s')) E s := by
  rw [scroll, Program.wp_bind, Program.wp_get]
  by_cases bottom : monHeight ≤ s.cursorY
  · have cells : monWidth * (monHeight - 1) + monWidth = monWidth * monHeight := by decide
    have first : PutchPc.exec (.scrollTest, s) = (.copy 0, s) := by rw [PutchPc.exec, if_pos bottom]
    have lines : ∀ s', PutchPc.exec (.copy (monWidth * (monHeight - 1)), s') =
        (.clear (monWidth * (monHeight - 1)), s') := by
      intro s'
      rw [PutchPc.exec, if_neg (Nat.lt_irrefl _)]
    have done : ∀ s', PutchPc.exec (.clear (monWidth * monHeight), s') = (.scrollY, s') := by
      intro s'
      rw [PutchPc.exec, if_neg (Nat.lt_irrefl _)]
    rw [if_pos bottom, Program.wp_bind]
    generalize size : monWidth * (monHeight - 1) = n at *
    have copies := runs_copyUp (n := n) (i := 0) (s := s) (E := E) (by omega)
    have clears := fun t : Screen => runs_blank (n := monWidth) (i := n) (s := t) (E := E) (by omega)
    rw [Nat.zero_add] at copies
    refine Program.wp_mono copies ?_ fun _ e => e
    intro _ s₁ copied
    rw [Program.wp_bind]
    refine Program.wp_mono (clears s₁) ?_ fun _ e => e
    intro _ s₂ cleared
    rw [Program.wp_modify]
    refine Runs.next ?_
    rw [first]
    refine copied.trans (Runs.next ?_)
    rw [lines]
    refine cleared.trans (Runs.next ?_)
    rw [cells, done]
    exact runs_one _
  · rw [if_neg bottom]
    refine .single ?_
    rw [PutchPc.exec, if_neg bottom]

/-- The statements of a call, one after the other, are `putch`. -/
theorem runs_putch (hx : s.cursorX < 80) (hy : s.cursorY < 25) (c : UInt8) :
    Program.wp (putch c) (fun _ s' => Runs (.chain c, s) (.idle, s')) E s := by
  rw [putch]
  refine Program.wp_bind_of (runs_putchAct hx hy c) ?_
  intro _ s₁ acted
  refine Program.wp_bind_of runs_putchWrap ?_
  intro _ s₂ wrapped
  refine Program.wp_bind_of runs_scroll ?_
  intro _ s₃ scrolled
  refine Program.wp_mono (Program.wp_ran (wp_moveCsr (Q := fun _ _ => True) fun _ _ => trivial)) ?_ fun _ e => e
  rintro _ s₄ ⟨moved, -⟩
  refine acted.trans (wrapped.trans (scrolled.trans (.single ?_)))
  rw [PutchPc.exec, moved]
  rfl

end Alone

/-! ## Threads -/

/-- The console and the threads that print on it. -/
structure Printers (T : Type) where
  screen : Screen
  pc : T → PutchPc
  running : T

/-- What happens next: the running thread calls `putch` or executes a statement of it,
or the timer passes the processor on. -/
inductive PrintEvent (T : Type) where
  | call (c : UInt8)
  | statement
  | switch (t : T)

/-- The cursor is on the screen. -/
def Screen.CursorOn (s : Screen) : Prop := s.cursorX < monWidth ∧ s.cursorY < monHeight

instance (s : Screen) : Decidable s.CursorOn := inferInstanceAs (Decidable (_ ∧ _))

namespace Printers

variable {T : Type} [DecidableEq T]

def after (s : Printers T) : PrintEvent T → Printers T
  | .call c =>
      if s.pc s.running = .idle then { s with pc := Function.update s.pc s.running (.chain c) } else s
  | .statement =>
      let next := PutchPc.exec (s.pc s.running, s.screen)
      { s with screen := next.2, pc := Function.update s.pc s.running next.1 }
  | .switch t => { s with running := t }

def Step (s : Printers T) (e : PrintEvent T) (s' : Printers T) : Prop := s' = s.after e

/-- No thread is in `putch`, and the cursor is on the screen. -/
def AtRest (s : Printers T) : Prop := (∀ t, s.pc t = .idle) ∧ s.screen.CursorOn

/-- A switch finds the cursor on the screen. -/
def SwitchOn (s : Printers T) : PrintEvent T → Prop
  | .switch _ => s.screen.CursorOn
  | _ => True

/-- What the next statement of the running thread writes is a cell of the screen. -/
def WritesInside (s : Printers T) : Prop :=
  ∀ i, (s.pc s.running).target = some i → i < monWidth * monHeight

end Printers

namespace PutchPc

/-- Where the cursor is when the statement is next, in a thread that runs. -/
def Fits (s : Screen) : PutchPc → Prop
  | .store _ location => location < 2000 ∧ s.cursorX ≤ 80 ∧ s.cursorY < 25
  | .wrapTest => s.cursorY ≤ 25 ∧ (80 ≤ s.cursorX → s.cursorY < 25)
  | .wrapX => s.cursorY < 25
  | .wrapY => s.cursorX < 80 ∧ s.cursorY < 25
  | .scrollTest => s.cursorX < 80 ∧ s.cursorY ≤ 25
  | .copy _ => s.cursorX < 80
  | .clear _ => s.cursorX < 80
  | .scrollY => s.cursorX < 80
  | _ => s.cursorX < 80 ∧ s.cursorY < 25

/-- What a thread that does not run has to remember. -/
def Remembers : PutchPc → Prop
  | .store _ location => location < 2000
  | _ => True

theorem Fits.remembers {s : Screen} {pc : PutchPc} (fits : pc.Fits s) : pc.Remembers := by
  cases pc
  case store => exact fits.1
  all_goals exact trivial

theorem Fits.of_remembers {s : Screen} {pc : PutchPc} (remembers : pc.Remembers)
    (hx : s.cursorX < 80) (hy : s.cursorY < 25) : pc.Fits s := by
  cases pc
  case store => exact ⟨remembers, by omega, hy⟩
  case wrapTest => exact ⟨by omega, fun _ => hy⟩
  case wrapX => exact hy
  case scrollTest => exact ⟨hx, by omega⟩
  case copy | clear | scrollY => exact hx
  all_goals exact ⟨hx, hy⟩

theorem branch_fits {c : UInt8} {s : Screen} (hx : s.cursorX < 80) (hy : s.cursorY < 25) :
    (branch c s).Fits s := by
  unfold branch
  split_ifs
  all_goals first | exact ⟨hx, hy⟩ | exact ⟨by omega, fun _ => hy⟩

/-- `move_csr` does not move the cursor that is kept in memory. -/
theorem csr_cursor (s : Screen) :
    (exec (.csr, s)).2.cursorX = s.cursorX ∧ (exec (.csr, s)).2.cursorY = s.cursorY := by
  have moves : Program.wp moveCsr (fun _ s' => s'.cursorX = s.cursorX ∧ s'.cursorY = s.cursorY)
      (fun _ => False) s := wp_moveCsr fun _ _ => ⟨rfl, rfl⟩
  obtain ⟨s', ran, same⟩ := Program.wp_returns moves
  rw [exec, ran]
  exact same

/-- Every statement leaves the cursor where the next one expects it. -/
theorem Fits.exec {s : Screen} {pc : PutchPc} (fits : pc.Fits s) :
    (PutchPc.exec (pc, s)).1.Fits (PutchPc.exec (pc, s)).2 := by
  have width : monWidth = 80 := rfl
  have height : monHeight = 25 := rfl
  cases pc with
  | idle => exact fits
  | chain c => exact branch_fits fits.1 fits.2
  | back =>
      obtain ⟨-, hy⟩ := fits
      exact ⟨Nat.le_of_lt hy, fun _ => hy⟩
  | tab =>
      obtain ⟨-, hy⟩ := fits
      exact ⟨Nat.le_of_lt hy, fun _ => hy⟩
  | ret =>
      obtain ⟨-, hy⟩ := fits
      exact ⟨Nat.le_of_lt hy, fun _ => hy⟩
  | lineX => exact ⟨Nat.succ_pos 79, fits.2⟩
  | lineY =>
      obtain ⟨hx, hy⟩ := fits
      constructor
      · show (s.cursorY + 1) % 256 ≤ 25
        omega
      · intro far
        have far : 80 ≤ s.cursorX := far
        omega
  | locate c =>
      obtain ⟨hx, hy⟩ := fits
      refine ⟨?_, ?_, hy⟩
      · rw [width]
        omega
      · show (s.cursorX + 1) % 256 ≤ 80
        omega
  | store c location =>
      obtain ⟨-, -, hy⟩ := fits
      exact ⟨Nat.le_of_lt hy, fun _ => hy⟩
  | wrapTest =>
      obtain ⟨hy, edge⟩ := fits
      rw [PutchPc.exec]
      dsimp only
      split
      · rename_i far
        exact edge (width ▸ far)
      · rename_i inside
        exact ⟨by omega, hy⟩
  | wrapX => exact ⟨Nat.succ_pos 79, fits⟩
  | wrapY =>
      obtain ⟨hx, hy⟩ := fits
      constructor
      · exact hx
      · show (s.cursorY + 1) % 256 ≤ 25
        omega
  | scrollTest =>
      obtain ⟨hx, hy⟩ := fits
      rw [PutchPc.exec]
      dsimp only
      split
      · exact hx
      · rename_i above
        exact ⟨hx, by omega⟩
  | copy i =>
      rw [PutchPc.exec]
      split
      · exact fits
      · exact fits
  | clear i =>
      rw [PutchPc.exec]
      split
      · exact fits
      · exact fits
  | scrollY => exact ⟨fits, Nat.lt_succ_self 24⟩
  | csr =>
      obtain ⟨sameX, sameY⟩ := csr_cursor s
      obtain ⟨hx, hy⟩ := fits
      constructor
      · rw [sameX]
        exact hx
      · rw [sameY]
        exact hy

theorem Fits.target {s : Screen} {pc : PutchPc} (fits : pc.Fits s) {i : Nat}
    (writes : pc.target = some i) : i < 2000 := by
  cases pc
  case store c location =>
    obtain rfl := Option.some.inj writes
    exact fits.1
  case copy j =>
    have writes : (if j < monWidth * (monHeight - 1) then some j else none) = some i := writes
    split at writes
    · rename_i inside
      obtain rfl := Option.some.inj writes
      exact Nat.lt_trans inside (by decide)
    · cases writes
  case clear j =>
    have writes : (if j < monWidth * monHeight then some j else none) = some i := writes
    split at writes
    · rename_i inside
      obtain rfl := Option.some.inj writes
      exact inside
    · cases writes
  all_goals cases writes

end PutchPc

namespace Printers

variable {T : Type} [DecidableEq T]

/-- What holds in every state of a run whose switches find the cursor on the screen. -/
structure Inv (s : Printers T) : Prop where
  running : (s.pc s.running).Fits s.screen
  others : ∀ t, (s.pc t).Remembers

omit [DecidableEq T] in
theorem AtRest.inv {s : Printers T} (rest : s.AtRest) : s.Inv where
  running := by
    rw [rest.1]
    exact rest.2
  others t := by
    rw [rest.1]
    trivial

/-- The running thread has gone on to `pc`. -/
theorem Inv.go {s : Printers T} {pc : PutchPc} {screen : Screen} (h : s.Inv) (fits : pc.Fits screen) :
    Inv { s with screen := screen, pc := Function.update s.pc s.running pc } := by
  constructor
  · show (Function.update s.pc s.running pc s.running).Fits screen
    rwa [Function.update_self]
  · intro t
    show (Function.update s.pc s.running pc t).Remembers
    by_cases own : t = s.running
    · rw [own, Function.update_self]
      exact fits.remembers
    · rw [Function.update_of_ne own]
      exact h.others t

/-- One step. -/
theorem step_inv {s s' : Printers T} {e : PrintEvent T} (h : s.Inv) (on : s.SwitchOn e)
    (step : Step s e s') : s'.Inv := by
  rw [step]
  cases e with
  | call c =>
      rw [after]
      split
      · rename_i rest
        have running := h.running
        rw [rest] at running
        have fits : (PutchPc.chain c).Fits s.screen := running
        exact h.go fits
      · exact h
  | statement => exact h.go h.running.exec
  | switch t =>
      have on : s.screen.CursorOn := on
      exact ⟨.of_remembers (h.others t) on.1 on.2, h.others⟩

/-- In every run whose switches find the cursor on the screen, every write goes to a
cell of the screen. -/
theorem writes_inside_of_run {s₀ s : Printers T} (rest : s₀.AtRest)
    (reached : Reaches Step SwitchOn s₀ s) : s.WritesInside := by
  have inv : s.Inv := reached.invariant rest.inv fun _ _ _ h on step => step_inv h on step
  intro i writes
  exact inv.running.target writes

/-! ## Two threads -/

instance (s : Printers T) (e : PrintEvent T) : Decidable (s.SwitchOn e) := by
  unfold SwitchOn
  split <;> infer_instance

/-- A step on the condition, computed. -/
def next (s : Printers T) (e : PrintEvent T) : Option (Printers T) :=
  if s.SwitchOn e then some (s.after e) else none

theorem next_step (s : Printers T) (e : PrintEvent T) (s' : Printers T) (taken : s.next e = some s') :
    s.SwitchOn e ∧ Step s e s' := by
  unfold next at taken
  split at taken
  · rename_i on
    exact ⟨on, (Option.some.inj taken).symm⟩
  · cases taken

/-- Two threads and a screen that has been cleared. -/
def cleared : Printers Bool where
  screen := { textmem := fun _ => monBlankChar, cursorX := 0, cursorY := 0, crtcIndex := 15
              crtc := fun _ => 0 }
  pc _ := .idle
  running := false

theorem cleared_atRest : cleared.AtRest := ⟨fun _ => rfl, by decide⟩

/-- A call of `n` statements. -/
def callOf (c : UInt8) (n : Nat) : List (PrintEvent Bool) :=
  .call c :: List.replicate n .statement

/-- `a` waits to be stored while the other thread ends the line. -/
theorem switch_before_store :
    ∃ s, Reaches Step SwitchOn cleared s ∧ (s.pc s.running).target = some 0 ∧
      s.screen.cursorY = 1 ∧ s.WritesInside := by
  have ran : ((callOf 0x61 2 ++ .switch true :: callOf 0x0A 6 ++ [.switch false] :
      List (PrintEvent Bool)).foldlM next cleared).map (fun s => decide ((s.pc s.running).target = some 0 ∧ s.screen.cursorY = 1)) =
        some true := by
    decide +kernel
  obtain ⟨s, taken, shape⟩ := Option.map_eq_some_iff.mp ran
  obtain ⟨target, line⟩ := of_decide_eq_true shape
  have reached := Reaches.of_foldlM next_step _ taken
  exact ⟨s, reached, target, line, writes_inside_of_run cleared_atRest reached⟩

/-- The last cell is written, and before its thread wraps the other one prints: its
character goes to cell 2000. -/
theorem late_wrap_writes_behind_text :
    ∃ s, Reachable Step cleared s ∧ (s.pc s.running).target = some 2000 ∧ ¬s.WritesInside := by
  have ran : (((List.replicate 24 (callOf 0x0A 6)).flatten ++ (List.replicate 9 (callOf 0x09 5)).flatten ++
      (List.replicate 7 (callOf 0x62 6)).flatten ++ callOf 0x62 3 ++
      .switch true :: callOf 0x61 2).foldlM (fun s e => some (after s e)) cleared).map
        (fun s => decide ((s.pc s.running).target = some 2000)) = some true := by
    decide +kernel
  obtain ⟨s, taken, shape⟩ := Option.map_eq_some_iff.mp ran
  have target := of_decide_eq_true shape
  have reached : Reachable Step cleared s := Reaches.of_foldlM
    (fun _ _ _ taken => ⟨trivial, (Option.some.inj taken).symm⟩) _ taken
  exact ⟨s, reached, target, fun inside => absurd (inside 2000 target) (by decide)⟩

end Printers

end MiniKernel.Kernel
