/-
# Theory.InterruptController -- a pair of 8259A interrupt controllers

A controller latches requests on eight lines, masks them, and lets a request through when no line
of its own or a higher priority is in service; line 0 has the highest priority.  The second
controller of a pair hangs on line 2 of the first.  The lines of a pair are numbered 0 to 15, the
ones from 8 on being the second controller's; `Pair.next` is the interrupt that a processor gets
when it acknowledges.

Modelled are edge-triggered requests, the fully nested mode, the four initialization words, the
mask, and the non-specific end of interrupt.
-/
import Mathlib.Logic.Function.Basic
import Mathlib.Tactic.SplitIfs

namespace MiniKernel.Theory

set_option autoImplicit false

/-- The first of the eight lines on which `p` holds. -/
def firstLine (p : Nat → Bool) : Option Nat := (List.range 8).find? p

theorem firstLine_some {p : Nat → Bool} {n : Nat} (first : firstLine p = some n) :
    n < 8 ∧ p n = true ∧ ∀ m, m < n → p m = false := by
  obtain ⟨holds, member, before⟩ := List.find?_range_eq_some.mp first
  refine ⟨List.mem_range.mp member, holds, fun m less => ?_⟩
  have no := before m less
  rw [Bool.not_eq_true'] at no
  exact no

theorem firstLine_isSome {p : Nat → Bool} {n : Nat} (line : n < 8) (holds : p n = true) :
    ∃ m, firstLine p = some m ∧ m ≤ n := by
  cases first : firstLine p with
  | none =>
      have no := List.find?_range_eq_none.mp first n line
      rw [holds] at no
      cases no
  | some m =>
      refine ⟨m, rfl, ?_⟩
      by_contra later
      have no := (firstLine_some first).2.2 n (by omega)
      rw [holds] at no
      cases no

/-- The initialization word that the data port expects. -/
inductive InitWord where
  | second | third | fourth
  deriving DecidableEq

/-- A controller. -/
structure Controller where
  /-- Requests that are latched. -/
  irr : Nat → Bool
  /-- Lines in service. -/
  isr : Nat → Bool
  /-- Lines that are masked. -/
  imr : Nat → Bool
  /-- The vector of line 0. -/
  offset : BitVec 8
  /-- The third word. -/
  cascade : BitVec 8
  /-- The fourth word. -/
  mode : BitVec 8
  /-- Bits 1 and 0 of the first word. -/
  single : Bool
  wordFour : Bool
  expects : Option InitWord

namespace Controller

variable {c : Controller} {irr : Nat → Bool} {n : Nat}

/-- A device asks for an interrupt. -/
def raise (c : Controller) (n : Nat) : Controller :=
  { c with irr := Function.update c.irr n true }

/-- The request that goes through, of those in `irr`. -/
def request (c : Controller) (irr : Nat → Bool) : Option Nat :=
  match firstLine fun n => irr n && !c.imr n with
  | none => none
  | some n => if (List.range (n + 1)).any c.isr then none else some n

/-- The acknowledge cycle for a line. -/
def accept (c : Controller) (n : Nat) : Controller :=
  { c with irr := Function.update c.irr n false, isr := Function.update c.isr n true }

/-- The non-specific end of interrupt. -/
def eoi (c : Controller) : Controller :=
  match firstLine c.isr with
  | none => c
  | some n => { c with isr := Function.update c.isr n false }

/-- A write to the command port. -/
def command (c : Controller) (v : BitVec 8) : Controller :=
  if v.getLsbD 4 then
    { c with
      irr := fun _ => false
      imr := fun _ => false
      single := v.getLsbD 1
      wordFour := v.getLsbD 0
      mode := if v.getLsbD 0 then c.mode else 0
      expects := some .second }
  else if v &&& 0xF8 = 0x20 then c.eoi
  else c

/-- A write to the data port. -/
def data (c : Controller) (v : BitVec 8) : Controller :=
  match c.expects with
  | some .second =>
      { c with
        offset := v &&& 0xF8
        expects :=
          if c.single then (if c.wordFour then some .fourth else none) else some .third }
  | some .third =>
      { c with cascade := v, expects := if c.wordFour then some .fourth else none }
  | some .fourth => { c with mode := v, expects := none }
  | none => { c with imr := fun n => v.getLsbD n }

/-- What the initialization words and the mask set. -/
def Set (c : Controller) (offset cascade : BitVec 8) : Prop :=
  c.offset = offset ∧ c.cascade = cascade ∧ (∀ n, c.imr n = false) ∧ c.expects = none

/-- Nothing is in service. -/
def Idle (c : Controller) : Prop := ∀ n, c.isr n = false

/-- Line `n` is in service, and no other. -/
def Serves (c : Controller) (n : Nat) : Prop := ∀ m, c.isr m = decide (m = n)

theorem request_some (requested : c.request irr = some n) :
    n < 8 ∧ irr n = true ∧ c.imr n = false ∧ ∀ m, m < n → irr m = true → c.imr m = true := by
  unfold request at requested
  split at requested
  · cases requested
  · rename_i m first
    split at requested
    · cases requested
    · cases requested
      obtain ⟨line, here, before⟩ := firstLine_some first
      obtain ⟨pending, unmasked⟩ := Bool.and_eq_true_iff.mp here
      rw [Bool.not_eq_true'] at unmasked
      refine ⟨line, pending, unmasked, fun m less pending => ?_⟩
      have no := before m less
      rw [pending, Bool.true_and, Bool.not_eq_false'] at no
      exact no

/-- An idle controller lets the request of the highest priority through. -/
theorem request_of_idle (idle : c.Idle) (line : n < 8) (pending : irr n = true)
    (unmasked : c.imr n = false) : ∃ m, c.request irr = some m ∧ m ≤ n := by
  obtain ⟨m, first, le⟩ := firstLine_isSome (p := fun n => irr n && !c.imr n) line
    (by rw [pending, unmasked]; rfl)
  refine ⟨m, ?_, le⟩
  unfold request
  rw [first]
  have none : (List.range (m + 1)).any c.isr = false :=
    List.any_eq_false.mpr fun k _ => by
      rw [idle k]
      decide
  dsimp only
  rw [none, if_neg (by decide)]

theorem eoi_idle (serves : c.Serves n) (line : n < 8) : c.eoi.Idle := by
  have first : firstLine c.isr = some n := by
    obtain ⟨m, first, le⟩ := firstLine_isSome (p := c.isr) line (by rw [serves n]; simp)
    have here := (firstLine_some first).2.1
    rw [serves m] at here
    rw [first, of_decide_eq_true here]
  unfold eoi
  rw [first]
  intro m
  show Function.update c.isr n false m = false
  by_cases same : m = n
  · rw [same, Function.update_self]
  · rw [Function.update_of_ne same, serves m]
    exact decide_eq_false same

/-- An end of interrupt changes what is in service, and nothing else. -/
theorem eoi_eq (c : Controller) : ∃ isr, c.eoi = { c with isr } := by
  unfold eoi
  split
  · exact ⟨c.isr, rfl⟩
  · exact ⟨_, rfl⟩

theorem Set.eoi {offset cascade : BitVec 8} (set : c.Set offset cascade) :
    c.eoi.Set offset cascade := by
  obtain ⟨isr, eq⟩ := c.eoi_eq
  rw [eq]
  exact set

theorem eoi_irr (c : Controller) : c.eoi.irr = c.irr := by
  obtain ⟨isr, eq⟩ := c.eoi_eq
  rw [eq]

theorem accept_serves (idle : c.Idle) (n : Nat) : (c.accept n).Serves n := by
  intro m
  show Function.update c.isr n true m = decide (m = n)
  by_cases same : m = n
  · rw [same, Function.update_self]
    simp
  · rw [Function.update_of_ne same, idle m]
    exact (decide_eq_false same).symm

end Controller

/-! ## A pair -/

/-- Two controllers, the second on line 2 of the first. -/
structure Pair where
  master : Controller
  slave : Controller

namespace Pair

/-- The requests that the first controller sees. -/
def requests (p : Pair) (n : Nat) : Bool :=
  if n = 2 then (p.slave.request p.slave.irr).isSome else p.master.irr n

/-- The third words name the line between the controllers. -/
def Wired (p : Pair) : Prop := p.master.cascade = 4 ∧ p.slave.cascade = 2

instance (p : Pair) : Decidable p.Wired := inferInstanceAs (Decidable (_ ∧ _))

/-- The line that an acknowledge cycle serves, and the pair behind it. -/
def next (p : Pair) : Option (Nat × Pair) :=
  match p.master.request p.requests with
  | none => none
  | some n =>
      if n = 2 ∧ p.Wired then
        match p.slave.request p.slave.irr with
        | none => none
        | some k => some (8 + k, ⟨p.master.accept 2, p.slave.accept k⟩)
      else some (n, ⟨p.master.accept n, p.slave⟩)

/-- The vector of a line. -/
def vector (p : Pair) (line : Nat) : BitVec 8 :=
  if line < 8 then p.master.offset + BitVec.ofNat 8 line
  else p.slave.offset + BitVec.ofNat 8 (line - 8)

/-- A device on a line asks for an interrupt. -/
def raise (p : Pair) (line : Nat) : Pair :=
  if line < 8 then { p with master := p.master.raise line }
  else { p with slave := p.slave.raise (line - 8) }

/-- A request on a line is latched. -/
def pending (p : Pair) (line : Nat) : Bool :=
  if line < 8 then p.master.irr line else p.slave.irr (line - 8)

/-- A line is masked. -/
def masked (p : Pair) (line : Nat) : Bool :=
  if line < 8 then p.master.imr line else p.master.imr 2 || p.slave.imr (line - 8)

/-- The priority of a line; 0 is the highest. -/
def priority (line : Nat) : Nat :=
  if line < 2 then line else if line < 8 then line + 7 else line - 6

/-- A line that a device can be on. -/
def IsLine (line : Nat) : Prop := line < 16 ∧ line ≠ 2

instance (line : Nat) : Decidable (IsLine line) := inferInstanceAs (Decidable (_ ∧ _))

variable {p q : Pair} {line : Nat}

theorem pending_raise (p : Pair) (raised line : Nat) :
    (p.raise raised).pending line = if line = raised then true else p.pending line := by
  unfold raise pending Controller.raise
  by_cases low : raised < 8
  · by_cases here : line < 8
    · simp [low, here, Function.update_apply]
    · simp [low, here, show line ≠ raised by omega]
  · by_cases here : line < 8
    · simp [low, here, show line ≠ raised by omega]
    · simp [low, here, Function.update_apply, show line - 8 = raised - 8 ↔ line = raised by omega]

/-- What an acknowledge cycle of a wired pair does. -/
theorem next_cases (wired : p.Wired) (served : p.next = some (line, q)) :
    (line < 8 ∧ line ≠ 2 ∧ p.master.irr line = true ∧ q = ⟨p.master.accept line, p.slave⟩) ∨
      ∃ k, k < 8 ∧ line = 8 + k ∧ p.slave.irr k = true ∧
        q = ⟨p.master.accept 2, p.slave.accept k⟩ := by
  unfold next at served
  split at served
  · cases served
  · rename_i n requested
    obtain ⟨small, pending, -, -⟩ := Controller.request_some requested
    split at served
    · split at served
      · cases served
      · rename_i k slave
        obtain ⟨fits, here, -, -⟩ := Controller.request_some slave
        cases served
        exact .inr ⟨k, fits, rfl, here, rfl⟩
    · rename_i other
      have first : n ≠ 2 := fun same => other ⟨same, wired⟩
      cases served
      unfold requests at pending
      rw [if_neg first] at pending
      exact .inl ⟨small, first, pending, rfl⟩

theorem next_isLine (wired : p.Wired) (served : p.next = some (line, q)) : IsLine line := by
  rcases next_cases wired served with ⟨low, first, -, -⟩ | ⟨k, fits, rfl, -, -⟩
  · exact ⟨by omega, first⟩
  · exact ⟨by omega, by omega⟩

theorem next_pending (wired : p.Wired) (served : p.next = some (line, q)) :
    p.pending line = true := by
  unfold pending
  rcases next_cases wired served with ⟨low, -, here, -⟩ | ⟨k, -, rfl, here, -⟩
  · rw [if_pos low, here]
  · rw [if_neg (by omega), Nat.add_sub_cancel_left, here]

/-- An acknowledge cycle takes the request that it serves, and no other. -/
theorem pending_next (wired : p.Wired) (served : p.next = some (line, q)) {other : Nat}
    (isLine : IsLine other) :
    q.pending other = if other = line then false else p.pending other := by
  have not_two := isLine.2
  unfold pending
  rcases next_cases wired served with ⟨low, -, -, rfl⟩ | ⟨k, -, rfl, -, rfl⟩
  · by_cases here : other < 8
    · simp [here, Controller.accept, Function.update_apply]
    · simp [here, show other ≠ line by omega]
  · by_cases here : other < 8
    · simp [here, Controller.accept, not_two, show other ≠ 8 + k by omega]
    · simp [here, Controller.accept, Function.update_apply,
        show other - 8 = k ↔ other = 8 + k by omega]

/-- A request that the first controller lets through is served, or the one of the second
controller behind it. -/
theorem next_of_request (wired : p.Wired) {n : Nat}
    (requested : p.master.request p.requests = some n) :
    ∃ first q, p.next = some (first, q) ∧ (n ≠ 2 → first = n) ∧
      (n = 2 → ∃ k, p.slave.request p.slave.irr = some k ∧ first = 8 + k) := by
  unfold next
  rw [requested]
  by_cases two : n = 2
  · have through := (Controller.request_some requested).2.1
    rw [two, requests, if_pos rfl] at through
    obtain ⟨k, asked⟩ := Option.isSome_iff_exists.mp through
    refine ⟨8 + k, ⟨p.master.accept 2, p.slave.accept k⟩, ?_, absurd two, fun _ => ⟨k, asked, rfl⟩⟩
    dsimp only
    rw [if_pos ⟨two, wired⟩, asked]
  · refine ⟨n, ⟨p.master.accept n, p.slave⟩, ?_, fun _ => rfl, fun same => absurd same two⟩
    dsimp only
    rw [if_neg fun both => two both.1]

/-- An idle pair serves a request of the highest priority. -/
theorem next_of_idle (wired : p.Wired) (master : p.master.Idle) (slave : p.slave.Idle)
    (isLine : IsLine line) (pending : p.pending line = true) (unmasked : p.masked line = false) :
    ∃ first q, p.next = some (first, q) ∧ priority first ≤ priority line := by
  obtain ⟨fits, not_two⟩ := isLine
  unfold Pair.pending at pending
  unfold masked at unmasked
  by_cases low : line < 8
  · rw [if_pos low] at pending unmasked
    obtain ⟨n, requested, before⟩ := Controller.request_of_idle master low
      (show p.requests line = true by rw [requests, if_neg not_two, pending]) unmasked
    obtain ⟨first, q, served, own, other⟩ := next_of_request wired requested
    refine ⟨first, q, served, ?_⟩
    by_cases two : n = 2
    · obtain ⟨k, asked, rfl⟩ := other two
      have inside := (Controller.request_some asked).1
      unfold priority
      split_ifs <;> omega
    · rw [own two]
      unfold priority
      split_ifs <;> omega
  · rw [if_neg low] at pending unmasked
    obtain ⟨open_two, open_slave⟩ := Bool.or_eq_false_iff.mp unmasked
    obtain ⟨k, asked, most⟩ := Controller.request_of_idle slave (show line - 8 < 8 by omega)
      pending open_slave
    obtain ⟨n, requested, before⟩ := Controller.request_of_idle master (show 2 < 8 by omega)
      (show p.requests 2 = true by rw [requests, if_pos rfl, asked]; rfl) open_two
    obtain ⟨first, q, served, own, other⟩ := next_of_request wired requested
    refine ⟨first, q, served, ?_⟩
    by_cases two : n = 2
    · obtain ⟨j, again, rfl⟩ := other two
      have same : j = k := Option.some.inj (again.symm.trans asked)
      unfold priority
      split_ifs <;> omega
    · rw [own two]
      unfold priority
      split_ifs <;> omega

end Pair

end MiniKernel.Theory
