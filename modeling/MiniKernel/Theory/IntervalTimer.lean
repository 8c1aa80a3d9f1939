/-
# Theory.IntervalTimer -- a channel of an 8254 interval timer

A control word chooses how the bytes of a count are written, the mode, and whether the count is
binary or decimal; a count of zero is the largest one.  In the periodic modes, the rate generator
and the square wave, the counter is loaded by the first clock after a count was written and again
at the end of each period, and that is where the output rises.

Modelled are the control words that select the channel and the two periodic modes; in the other
modes the channel does not count here.  `Counts.clock` says what one clock does to a channel that
has been running for some clocks.
-/
import Mathlib.Data.Nat.Basic
import Mathlib.Tactic.SplitIfs

namespace MiniKernel.Theory

set_option autoImplicit false

/-- A channel. -/
structure Channel where
  /-- 1 and 2 for one byte of the count, 3 for the low byte and then the high one. -/
  access : BitVec 2
  mode : BitVec 3
  decimal : Bool
  /-- The low byte of a count whose high byte is to follow. -/
  low : Option (BitVec 8)
  /-- The count last written. -/
  count : Option Nat
  /-- The length of the period that runs, and the clocks of it that have passed. -/
  period : Option (Nat × Nat)
  deriving DecidableEq

namespace Channel

/-- The number that two bytes stand for. -/
def countOf (decimal : Bool) (v : BitVec 16) : Nat :=
  if decimal then
    if v = 0 then 10000
    else (v >>> 12).toNat * 1000 + (v >>> 8 &&& 15).toNat * 100 + (v >>> 4 &&& 15).toNat * 10 +
      (v &&& 15).toNat
  else if v = 0 then 65536
  else v.toNat

/-- A control word, with bits 7 and 6 for the channel and the latch command in bits 5 and 4. -/
def control (c : Channel) (v : BitVec 8) : Channel :=
  if v.extractLsb' 6 2 = 0 ∧ v.extractLsb' 4 2 ≠ 0 then
    { access := v.extractLsb' 4 2
      mode := v.extractLsb' 1 3
      decimal := v.getLsbD 0
      low := none
      count := none
      period := none }
  else c

/-- A write to the channel's port. -/
def data (c : Channel) (v : BitVec 8) : Channel :=
  if c.access = 1 then { c with count := some (countOf c.decimal (0#8 ++ v)) }
  else if c.access = 2 then { c with count := some (countOf c.decimal (v ++ 0#8)) }
  else if c.access = 3 then
    match c.low with
    | none => { c with low := some v }
    | some low => { c with low := none, count := some (countOf c.decimal (v ++ low)) }
  else c

/-- One clock, and whether the output rises. -/
def clock (c : Channel) : Channel × Bool :=
  match c.mode.getLsbD 1, c.count, c.period with
  | true, some count, none => ({ c with period := some (count, 0) }, false)
  | true, some count, some (length, passed) =>
      if passed + 1 < length then ({ c with period := some (length, passed + 1) }, false)
      else ({ c with period := some (count, 0) }, true)
  | _, _, _ => (c, false)

/-- A channel that was given its count `clocks` clocks ago. -/
structure Counts (c : Channel) (count clocks : Nat) : Prop where
  periodic : c.mode.getLsbD 1 = true
  written : c.count = some count
  runs : c.period = if clocks = 0 then none else some (count, (clocks - 1) % count)

/-- The next clock ends a period when the clocks since the load fill one. -/
theorem Counts.clock {c : Channel} {count clocks : Nat} (counts : c.Counts count clocks)
    (pos : 0 < count) : c.clock.1.Counts count (clocks + 1) ∧
      clocks / count = (clocks - 1) / count + if c.clock.2 then 1 else 0 := by
  obtain ⟨periodic, written, runs⟩ := counts
  cases clocks with
  | zero =>
      have loaded : c.clock = ({ c with period := some (count, 0) }, false) := by
        rw [Channel.clock, periodic, written, runs]
        rfl
      rw [loaded]
      exact ⟨⟨periodic, written, rfl⟩, rfl⟩
  | succ k =>
      rw [if_neg (Nat.succ_ne_zero k), Nat.add_sub_cancel] at runs
      have next : (k + 1) % count = (k % count + 1) % count := by
        have split : k + 1 = k % count + 1 + count * (k / count) := by
          have whole := Nat.mod_add_div k count
          omega
        calc (k + 1) % count = (k % count + 1 + count * (k / count)) % count :=
              congrArg (· % count) split
          _ = (k % count + 1) % count := Nat.add_mul_mod_self_left _ _ _
      have fits := Nat.mod_lt k pos
      rw [Nat.add_sub_cancel]
      by_cases inside : k % count + 1 < count
      · have moved : c.clock = ({ c with period := some (count, k % count + 1) }, false) := by
          rw [Channel.clock, periodic, written, runs]
          exact if_pos inside
        rw [Nat.mod_eq_of_lt inside] at next
        rw [moved]
        refine ⟨⟨periodic, written, ?_⟩, ?_⟩
        · rw [if_neg (Nat.succ_ne_zero _), Nat.add_sub_cancel, next]
        · exact Nat.succ_div_of_mod_ne_zero (by omega)
      · have turned : c.clock = ({ c with period := some (count, 0) }, true) := by
          rw [Channel.clock, periodic, written, runs]
          exact if_neg inside
        have full : k % count + 1 = count := by omega
        rw [full, Nat.mod_self] at next
        rw [turned]
        refine ⟨⟨periodic, written, ?_⟩, ?_⟩
        · rw [if_neg (Nat.succ_ne_zero _), Nat.add_sub_cancel, next]
        · exact Nat.succ_div_of_mod_eq_zero next

end Channel

end MiniKernel.Theory
