/-
# Kernel.SharedBuffer -- threads that are preempted in printk

`buf` is static: the threads that print share it, and nothing keeps the timer from switching
between a thread that formats and one that writes to the screen.  Here the statements of `printk`
that touch the buffer are taken one at a time.  Whatever the interleaving, the threads stay inside
of the buffer, and each character that goes to the screen is the character of some text at that
position, or null (`shared_buffer_safe`): lines may be mixed, column by column, but nothing else
appears.  When no thread is switched out while it prints, the texts appear one after the other
(`unswitched_prints_texts`).

The text of a call does not depend on the buffer (`callVsprintf_run`), so a call is given by its
text.
-/
import MiniKernel.Kernel.Printk
import MiniKernel.Theory.Transition

namespace MiniKernel.Kernel

open Theory

set_option autoImplicit false

/-! ## Statements -/

/-- The statement of `printk` that a thread executes next, with its locals. -/
inductive PrintkPc where
  /-- Not in `printk`. -/
  | idle
  /-- `*str++ = c`, of character `k` of the text; the null byte is behind the last one. -/
  | store (text : List UInt8) (k : Nat)
  /-- `buf[len] = '\0'` -/
  | terminate (len : Nat)
  /-- `while (c[i])` -/
  | test (i : Nat)
  /-- `putch(c[i++])` -/
  | put (i : Nat)
  deriving DecidableEq

namespace PrintkPc

/-- One statement: the next one, the memory, and what `putch` is given with its position. -/
def exec (buf : Nat) : PrintkPc → Mem → PrintkPc × Mem × Option (Nat × UInt8)
  | .idle, m => (.idle, m, none)
  | .store text k, m =>
      (if k < text.length then .store text (k + 1) else .terminate k,
        m.setByte (add32 buf k) (text.getD k 0), none)
  | .terminate len, m => (.test 0, m.setByte (add32 buf len) 0, none)
  | .test i, m => (if m (add32 buf i) = 0 then .idle else .put i, m, none)
  | .put i, m => (.test (i + 1), m, some (i, m (add32 buf i)))

/-- The byte of the buffer that the statement accesses. -/
def position : PrintkPc → Option Nat
  | .idle => none
  | .store _ k => some k
  | .terminate len => some len
  | .test i => some i
  | .put i => some i

end PrintkPc

/-! ## A call that is left alone -/

/-- Statements one after the other, and what they give `putch`. -/
abbrev PrintkRuns (buf : Nat) : PrintkPc × Mem × List UInt8 → PrintkPc × Mem × List UInt8 → Prop :=
  Relation.ReflTransGen fun a b =>
    b = ((PrintkPc.exec buf a.1 a.2.1).1, (PrintkPc.exec buf a.1 a.2.1).2.1,
      a.2.2 ++ ((PrintkPc.exec buf a.1 a.2.1).2.2.map Prod.snd).toList)

section Alone

variable {buf : Nat} {text out : List UInt8} {m : Mem}

theorem PrintkRuns.next {pc pc' : PrintkPc} {m' : Mem} {shown : Option (Nat × UInt8)}
    {b : PrintkPc × Mem × List UInt8} (exec : PrintkPc.exec buf pc m = (pc', m', shown))
    (rest : PrintkRuns buf (pc', m', out ++ (shown.map Prod.snd).toList) b) :
    PrintkRuns buf (pc, m, out) b :=
  .head (by rw [exec]) rest

/-- A statement that shows nothing. -/
theorem PrintkRuns.quiet {pc pc' : PrintkPc} {m' : Mem} {b : PrintkPc × Mem × List UInt8}
    (exec : PrintkPc.exec buf pc m = (pc', m', none)) (rest : PrintkRuns buf (pc', m', out) b) :
    PrintkRuns buf (pc, m, out) b :=
  .next exec (by
    rw [Option.map_none, Option.toList_none, List.append_nil]
    exact rest)

theorem runs_store (room : buf + text.length < 4294967296) {d k : Nat} (left : k + d = text.length) :
    PrintkRuns buf (.store text k, m.put buf (text.take k), out)
      (.test 0, m.put buf (text ++ [0]), out) := by
  induction d generalizing k with
  | zero =>
      have all : k = text.length := by omega
      subst all
      have null : (m.put buf text).setByte (buf + text.length) 0 = m.put buf (text ++ [0]) := by
        rw [Mem.put_append]
        rfl
      have last : PrintkPc.exec buf (.store text text.length) (m.put buf text) =
          (.terminate text.length, m.put buf (text ++ [0]), none) := by
        rw [PrintkPc.exec, if_neg (Nat.lt_irrefl _), List.getD_eq_default _ _ (Nat.le_refl _),
          add32_eq room, null]
      have terminated : PrintkPc.exec buf (.terminate text.length) (m.put buf (text ++ [0])) =
          (.test 0, m.put buf (text ++ [0]), none) := by
        rw [PrintkPc.exec, add32_eq room, put_null]
      rw [List.take_length]
      exact .quiet last (.quiet terminated .refl)
  | succ d ih =>
      have inside : k < text.length := by omega
      have stored : (m.put buf (text.take k)).setByte (buf + k) text[k] =
          m.put buf (text.take (k + 1)) := by
        rw [← List.take_concat_get' _ _ inside, Mem.put_append, List.length_take,
          Nat.min_eq_left (Nat.le_of_lt inside)]
        rfl
      refine .quiet ?_ (ih (k := k + 1) (by omega))
      rw [PrintkPc.exec, if_pos inside, List.getD_eq_getElem _ _ inside, add32_eq (by omega), stored]

theorem runs_show (out : List UInt8) {shown : List UInt8} (string : m.CString buf shown)
    (room : buf + shown.length < 4294967296) {d i : Nat} (left : i + d = shown.length) :
    PrintkRuns buf (.test i, m, out ++ shown.take i) (.idle, m, out ++ shown) := by
  induction d generalizing i with
  | zero =>
      have all : i = shown.length := by omega
      subst all
      rw [List.take_length]
      refine .quiet ?_ .refl
      rw [PrintkPc.exec, add32_eq room, if_pos string.ends]
  | succ d ih =>
      have inside : i < shown.length := by omega
      have there := string.holds i inside
      have more : m (buf + i) ≠ 0 := there ▸ string.nonzero _ (List.getElem_mem inside)
      have rest := ih (i := i + 1) (by omega)
      rw [← List.take_concat_get' _ _ inside, ← List.append_assoc] at rest
      have tested : PrintkPc.exec buf (.test i) m = (.put i, m, none) := by
        rw [PrintkPc.exec, add32_eq (by omega), if_neg more]
      have put : PrintkPc.exec buf (.put i) m = (.test (i + 1), m, some (i, shown[i])) := by
        rw [PrintkPc.exec, add32_eq (by omega), there]
      exact .quiet tested (.next put rest)

/-- A call of `printk` that is left alone runs through the statements. -/
theorem runs_printk {strings : Nat → Option (List UInt8)} {size : Nat} {fmt : List UInt8}
    {args : List Nat} {s : Output} {t : Terminal} (table : StringTable strings buf size s.mem)
    (formats : FormatsTo strings fmt args text) (short : text.length < 2147483000)
    (room : buf + text.length < 4294967296) (fits : text.length < size) (shows : Shows s.screen t) :
    ∃ s' chars, printk buf fmt args s = .ok ((), s') ∧
      PrintkRuns buf (.store text 0, s.mem, []) (.idle, s'.mem, chars) ∧
      Shows s'.screen (chars.foldl Terminal.put t) := by
  obtain ⟨screen, run, shown⟩ := printk_run table formats short room fits shows
  have found := Mem.CString.of_put s.mem buf text
  have less : (text.takeWhile (· ≠ 0)).length ≤ text.length := (List.takeWhile_prefix _).length_le
  refine ⟨_, _, run, ?_, shown⟩
  have stored : PrintkRuns buf (.store text 0, s.mem, []) _ := runs_store room (Nat.zero_add _)
  exact stored.trans (runs_show [] found (by omega) (Nat.zero_add _))

end Alone

/-! ## Threads -/

/-- The memory and the threads that print; `called` and `shown` record the texts of the calls and
what `putch` was given. -/
structure Printks (T : Type) where
  mem : Mem
  pc : T → PrintkPc
  running : T
  called : List (List UInt8)
  shown : List (T × Nat × UInt8)

/-- What happens next: the running thread calls `printk` or executes a statement of it, or the
timer passes the processor on. -/
inductive PrintkEvent (T : Type) where
  | call (text : List UInt8)
  | statement
  | switch (t : T)

namespace Printks

variable {T : Type} [DecidableEq T]

def after (buf : Nat) (s : Printks T) : PrintkEvent T → Printks T
  | .call text =>
      if s.pc s.running = .idle then
        { s with pc := Function.update s.pc s.running (.store text 0), called := s.called ++ [text] }
      else s
  | .statement =>
      let next := PrintkPc.exec buf (s.pc s.running) s.mem
      { s with
        pc := Function.update s.pc s.running next.1
        mem := next.2.1
        shown := s.shown ++ (next.2.2.map fun put => (s.running, put)).toList }
  | .switch t => { s with running := t }

def Step (buf : Nat) (s : Printks T) (e : PrintkEvent T) (s' : Printks T) : Prop := s' = s.after buf e

/-- The texts have `n` characters at most. -/
def Short (n : Nat) (_ : Printks T) : PrintkEvent T → Prop
  | .call text => text.length ≤ n
  | _ => True

/-- No thread prints, and the buffer is zero, as a static buffer is. -/
structure AtStart (buf : Nat) (s : Printks T) : Prop where
  idle : ∀ t, s.pc t = .idle
  zero : ∀ i, i < 1024 → s.mem (buf + i) = 0
  called : s.called = []
  shown : s.shown = []

/-- The statements that come next access the buffer. -/
def AccessInside (s : Printks T) : Prop := ∀ t i, (s.pc t).position = some i → i < 1024

end Printks

/-! ## Whatever the interleaving -/

/-- A byte at position `i` is null or a character of one of the texts, at that position. -/
def OfTexts (texts : List (List UInt8)) (i : Nat) (c : UInt8) : Prop :=
  c = 0 ∨ ∃ text ∈ texts, text[i]? = some c

section Safe

variable {buf n i : Nat} {texts : List (List UInt8)} {c : UInt8} {m m₀ : Mem}

theorem OfTexts.mono (h : OfTexts texts i c) (text : List UInt8) :
    OfTexts (texts ++ [text]) i c := by
  rcases h with zero | ⟨t, member, there⟩
  · exact .inl zero
  · exact .inr ⟨t, List.mem_append_left _ member, there⟩

/-- Behind the longest text there are null bytes only. -/
theorem OfTexts.zero (h : OfTexts texts i c) (short : ∀ text ∈ texts, text.length ≤ n)
    (far : n ≤ i) : c = 0 := by
  rcases h with zero | ⟨t, member, there⟩
  · exact zero
  · have len := short t member
    rw [List.getElem?_eq_none (by omega)] at there
    cases there

/-- What the locals of a thread in `printk` are. -/
def PrintkPc.Fits (n : Nat) (texts : List (List UInt8)) : PrintkPc → Prop
  | .idle => True
  | .store text k => text ∈ texts ∧ k ≤ text.length
  | .terminate len => len ≤ n
  | .test i => i ≤ n
  | .put i => i < n

/-- The buffer while threads print. -/
structure Mixed (buf n : Nat) (texts : List (List UInt8)) (m₀ m : Mem) : Prop where
  cells : ∀ i, i < 1024 → OfTexts texts i (m (buf + i))
  short : ∀ text ∈ texts, text.length ≤ n
  off : Mem.AgreeOff buf (buf + 1024) m₀ m

theorem Mixed.setByte (h : Mixed buf n texts m₀ m) {k : Nat} (inside : k < 1024)
    (own : OfTexts texts k c) : Mixed buf n texts m₀ (m.setByte (buf + k) c) where
  cells i hi := by
    unfold Mem.setByte
    by_cases same : i = k
    · rw [if_pos (by omega), same]
      exact own
    · rw [if_neg (by omega)]
      exact h.cells i hi
  short := h.short
  off a out := by
    unfold Mem.setByte
    rw [if_neg (by omega)]
    exact h.off a out

theorem Mixed.called (h : Mixed buf n texts m₀ m) {text : List UInt8} (short : text.length ≤ n) :
    Mixed buf n (texts ++ [text]) m₀ m where
  cells i hi := (h.cells i hi).mono text
  short t member := by
    rcases List.mem_append.mp member with member | member
    · exact h.short t member
    · rw [List.mem_singleton.mp member]
      exact short
  off := h.off

theorem PrintkPc.Fits.mono {pc : PrintkPc} (fits : pc.Fits n texts) (text : List UInt8) :
    pc.Fits n (texts ++ [text]) := by
  cases pc with
  | store t k => exact ⟨List.mem_append_left _ fits.1, fits.2⟩
  | _ => exact fits

theorem PrintkPc.Fits.position {pc : PrintkPc} (fits : pc.Fits n texts)
    (short : ∀ text ∈ texts, text.length ≤ n) (small : n < 1024) {i : Nat}
    (access : pc.position = some i) : i < 1024 := by
  cases pc with
  | idle => cases access
  | store text k =>
      cases access
      have len := short text fits.1
      have le := fits.2
      omega
  | terminate len =>
      cases access
      exact Nat.lt_of_le_of_lt fits small
  | test j =>
      cases access
      exact Nat.lt_of_le_of_lt fits small
  | put j =>
      cases access
      exact Nat.lt_trans fits small

/-- One statement keeps all of it. -/
theorem PrintkPc.Fits.exec {pc : PrintkPc} (fits : pc.Fits n texts) (h : Mixed buf n texts m₀ m)
    (small : n < 1024) (place : buf + 1024 ≤ 4294967296) :
    (PrintkPc.exec buf pc m).1.Fits n texts ∧ Mixed buf n texts m₀ (PrintkPc.exec buf pc m).2.1 ∧
      ∀ put ∈ (PrintkPc.exec buf pc m).2.2, OfTexts texts put.1 put.2 := by
  cases pc with
  | idle => exact ⟨trivial, h, nofun⟩
  | store text k =>
      obtain ⟨member, le⟩ := fits
      have len := h.short text member
      have own : OfTexts texts k (text.getD k 0) := by
        by_cases inside : k < text.length
        · refine .inr ⟨text, member, ?_⟩
          rw [List.getElem?_eq_getElem inside, List.getD_eq_getElem _ _ inside]
        · exact .inl (List.getD_eq_default _ _ (by omega))
      refine ⟨?_, ?_, nofun⟩
      · dsimp only [PrintkPc.exec]
        split
        · rename_i inside
          exact ⟨member, inside⟩
        · exact Nat.le_trans le len
      · dsimp only [PrintkPc.exec]
        rw [add32_eq (by omega)]
        exact h.setByte (by omega) own
  | terminate len =>
      have le : len ≤ n := fits
      refine ⟨Nat.zero_le n, ?_, nofun⟩
      dsimp only [PrintkPc.exec]
      rw [add32_eq (by omega)]
      exact h.setByte (by omega) (.inl rfl)
  | test i =>
      have le : i ≤ n := fits
      have own := h.cells i (by omega)
      refine ⟨?_, h, nofun⟩
      dsimp only [PrintkPc.exec]
      rw [add32_eq (by omega)]
      split
      · trivial
      · rename_i more
        exact Nat.lt_of_not_le fun far => more (own.zero h.short far)
  | put i =>
      have less : i < n := fits
      refine ⟨less, h, ?_⟩
      dsimp only [PrintkPc.exec]
      rw [add32_eq (by omega)]
      intro put shown
      cases shown
      exact h.cells i (by omega)

namespace Printks

variable {T : Type} [DecidableEq T] {s s' : Printks T}

/-- What holds in every state. -/
structure Inv (buf n : Nat) (m₀ : Mem) (s : Printks T) : Prop where
  pcs : ∀ t, (s.pc t).Fits n s.called
  mixed : Mixed buf n s.called m₀ s.mem
  shown : ∀ e ∈ s.shown, OfTexts s.called e.2.1 e.2.2

omit [DecidableEq T] in
theorem AtStart.inv {s : Printks T} (start : AtStart buf s) : Inv buf n s.mem s where
  pcs t := by
    rw [start.idle]
    trivial
  mixed := by
    refine ⟨fun i hi => .inl (start.zero i hi), ?_, .refl _ _ _⟩
    rw [start.called]
    exact fun _ member => absurd member List.not_mem_nil
  shown := by
    rw [start.shown]
    exact fun _ member => absurd member List.not_mem_nil

/-- One step. -/
theorem Inv.step {e : PrintkEvent T} (h : Inv buf n m₀ s) (short : Short n s e)
    (taken : Step buf s e s') (small : n < 1024) (place : buf + 1024 ≤ 4294967296) :
    Inv buf n m₀ s' := by
  rw [taken]
  cases e with
  | call text =>
      dsimp only [after]
      split
      · have short : text.length ≤ n := short
        refine ⟨fun t => ?_, h.mixed.called short, fun e member => (h.shown e member).mono text⟩
        show (Function.update s.pc s.running (.store text 0) t).Fits n (s.called ++ [text])
        by_cases own : t = s.running
        · rw [own, Function.update_self]
          exact ⟨List.mem_append_right _ (List.mem_singleton.mpr rfl), Nat.zero_le _⟩
        · rw [Function.update_of_ne own]
          exact (h.pcs t).mono text
      · exact h
  | statement =>
      obtain ⟨fits, mixed, put⟩ := (h.pcs s.running).exec h.mixed small place
      refine ⟨fun t => ?_, mixed, fun e member => ?_⟩
      · show (Function.update s.pc s.running _ t).Fits n s.called
        by_cases own : t = s.running
        · rw [own, Function.update_self]
          exact fits
        · rw [Function.update_of_ne own]
          exact h.pcs t
      · rcases List.mem_append.mp member with old | new
        · exact h.shown e old
        · obtain ⟨p, given, rfl⟩ := Option.map_eq_some_iff.mp (Option.mem_toList.mp new)
          exact put p given
  | switch t => exact ⟨h.pcs, h.mixed, h.shown⟩

/-- Threads that print texts of less than 1024 characters stay in the buffer, change nothing else,
and show at each position nothing but a character of some text at that position, or a null byte. -/
theorem shared_buffer_safe {s₀ : Printks T} (start : AtStart buf s₀) (small : n < 1024)
    (place : buf + 1024 ≤ 4294967296) (reached : Reaches (Step buf) (Short n) s₀ s) :
    s.AccessInside ∧ Mem.AgreeOff buf (buf + 1024) s₀.mem s.mem ∧
      (∀ i, n ≤ i → i < 1024 → s.mem (buf + i) = 0) ∧
      ∀ e ∈ s.shown, OfTexts s.called e.2.1 e.2.2 := by
  have inv : Inv buf n s₀.mem s := reached.invariant start.inv
    fun _ _ _ h short taken => h.step short taken small place
  refine ⟨fun t i access => (inv.pcs t).position inv.mixed.short small access, inv.mixed.off,
    fun i far inside => ?_, inv.shown⟩
  exact (inv.mixed.cells i inside).zero inv.mixed.short far

end Printks

end Safe

namespace Printks

/-! ## Two threads -/

instance {T : Type} (n : Nat) (s : Printks T) (e : PrintkEvent T) : Decidable (Short n s e) := by
  unfold Short
  split <;> infer_instance

/-- A step on the condition, computed. -/
def next {T : Type} [DecidableEq T] (buf n : Nat) (s : Printks T) (e : PrintkEvent T) :
    Option (Printks T) :=
  if Short n s e then some (s.after buf e) else none

theorem next_step {T : Type} [DecidableEq T] (buf n : Nat) (s : Printks T) (e : PrintkEvent T)
    (s' : Printks T) (taken : s.next buf n e = some s') : Short n s e ∧ Step buf s e s' := by
  unfold next at taken
  split at taken
  · rename_i short
    exact ⟨short, (Option.some.inj taken).symm⟩
  · cases taken

/-- Two threads that do not print yet. -/
def resting : Printks Bool := ⟨fun _ => 0, fun _ => .idle, false, [], []⟩

theorem resting_atStart (buf : Nat) : AtStart buf resting := ⟨fun _ => rfl, fun _ _ => rfl, rfl, rfl⟩

/-- Between the formatting of `ab` and its output, the other thread stores an `x`. -/
theorem switch_before_output :
    ∃ s, Reaches (Step 8192) (Short 2) resting s ∧ s.called = [cstr "ab", cstr "xy"] ∧
      s.shown = [(false, 0, ch 'x'), (false, 1, ch 'b')] ∧
      s.AccessInside ∧ Mem.AgreeOff 8192 9216 resting.mem s.mem ∧
      (∀ i, 2 ≤ i → i < 1024 → s.mem (8192 + i) = 0) ∧
      ∀ e ∈ s.shown, OfTexts s.called e.2.1 e.2.2 := by
  have ran : ((.call (cstr "ab") :: List.replicate 4 .statement ++ [.switch true, .call (cstr "xy"),
      .statement, .switch false] ++ List.replicate 5 .statement : List (PrintkEvent Bool)).foldlM
        (next 8192 2) resting).map (fun s => decide (s.called = [cstr "ab", cstr "xy"] ∧
          s.shown = [(false, 0, ch 'x'), (false, 1, ch 'b')])) = some true := by
    decide +kernel
  obtain ⟨s, taken, shape⟩ := Option.map_eq_some_iff.mp ran
  obtain ⟨called, shown⟩ := of_decide_eq_true shape
  have reached := Reaches.of_foldlM (next_step 8192 2) _ taken
  exact ⟨s, reached, called, shown,
    shared_buffer_safe (resting_atStart 8192) (by decide) (by decide) reached⟩

end Printks

/-! ## When no thread is switched out while it prints -/

namespace Printks

variable {T : Type} [DecidableEq T] {s s' s₀ : Printks T} {buf n : Nat}

/-- The texts are short and have no null bytes, and a switch finds the running thread outside of
`printk`. -/
def Undisturbed (n : Nat) (s : Printks T) : PrintkEvent T → Prop
  | .call text => text.length ≤ n ∧ ∀ c ∈ text, c ≠ 0
  | .statement => True
  | .switch _ => s.pc s.running = .idle

/-- The characters that have been shown. -/
def chars (s : Printks T) : List UInt8 := s.shown.map fun e => e.2.2

/-- `text` is printed: the texts before it have been shown, and `part` of it. -/
structure Printing (n : Nat) (s : Printks T) (text part : List UInt8) : Prop where
  shown : ∃ before, s.called = before ++ [text] ∧ s.chars = before.flatten ++ part
  short : text.length ≤ n
  nonzero : ∀ c ∈ text, c ≠ 0

/-- How far the running thread is. -/
def Doing (buf n : Nat) (s : Printks T) : PrintkPc → Prop
  | .idle => s.chars = s.called.flatten
  | .store text k => s.Printing n text [] ∧ k ≤ text.length ∧ s.mem.Holds buf (text.take k)
  | .terminate len => ∃ text, s.Printing n text [] ∧ len = text.length ∧ s.mem.CString buf text
  | .test i =>
      ∃ text, s.Printing n text (text.take i) ∧ i ≤ text.length ∧ s.mem.CString buf text
  | .put i =>
      ∃ text, s.Printing n text (text.take i) ∧ i < text.length ∧ s.mem.CString buf text

/-- What holds while no thread is switched out. -/
structure Alone (buf n : Nat) (s : Printks T) : Prop where
  others : ∀ t, t ≠ s.running → s.pc t = .idle
  doing : s.Doing buf n (s.pc s.running)

omit [DecidableEq T] in
theorem Printing.next {text part more : List UInt8} (h : s.Printing n text part)
    (called : s'.called = s.called) (chars : s'.chars = s.chars ++ more) :
    s'.Printing n text (part ++ more) where
  shown := by
    obtain ⟨before, texts, shown⟩ := h.shown
    refine ⟨before, called.trans texts, ?_⟩
    rw [chars, shown, List.append_assoc]
  short := h.short
  nonzero := h.nonzero

omit [DecidableEq T] in
/-- The statement of the running thread, on the texts. -/
theorem Doing.exec {pc : PrintkPc} (doing : s.Doing buf n pc) (place : buf + n < 4294967296)
    (mem : s'.mem = (PrintkPc.exec buf pc s.mem).2.1) (called : s'.called = s.called)
    (chars : s'.chars = s.chars ++ ((PrintkPc.exec buf pc s.mem).2.2.map Prod.snd).toList) :
    s'.Doing buf n (PrintkPc.exec buf pc s.mem).1 := by
  cases pc with
  | idle =>
      have shown : s.chars = s.called.flatten := doing
      have chars : s'.chars = s.chars ++ [] := chars
      show s'.chars = s'.called.flatten
      rw [chars, List.append_nil, shown, called]
  | store text k =>
      obtain ⟨printing, le, holds⟩ := doing
      have short := printing.short
      have printing' := printing.next called chars
      have length : (text.take k).length = k := by
        rw [List.length_take]
        omega
      dsimp only [PrintkPc.exec] at mem ⊢
      rw [add32_eq (by omega)] at mem
      split
      · rename_i inside
        refine ⟨printing', inside, ?_⟩
        have more := holds.snoc (text.getD k 0)
        rw [length, List.getD_eq_getElem _ _ inside, List.take_concat_get' _ _ inside] at more
        rw [mem, List.getD_eq_getElem _ _ inside]
        exact more
      · have all : k = text.length := by omega
        subst all
        refine ⟨text, printing', rfl, ?_⟩
        rw [List.take_length] at holds
        rw [mem, List.getD_eq_default _ _ (Nat.le_refl _)]
        exact .of_holds holds printing.nonzero
  | terminate len =>
      obtain ⟨text, printing, rfl, string⟩ := doing
      have short := printing.short
      dsimp only [PrintkPc.exec] at mem
      rw [add32_eq (by omega)] at mem
      refine ⟨text, printing.next called chars, Nat.zero_le _, ?_⟩
      rw [mem]
      exact .of_holds string.holds printing.nonzero
  | test i =>
      obtain ⟨text, printing, le, string⟩ := doing
      have short := printing.short
      have chars : s'.chars = s.chars ++ [] := chars
      have printing' := printing.next called chars
      rw [List.append_nil] at printing'
      have mem : s'.mem = s.mem := mem
      dsimp only [PrintkPc.exec]
      rw [add32_eq (by omega)]
      split
      · rename_i null
        have all : i = text.length := by
          by_contra other
          have inside : i < text.length := by omega
          have there := string.holds i inside
          exact printing.nonzero _ (List.getElem_mem inside) (there.symm.trans null)
        subst all
        rw [List.take_length] at printing'
        obtain ⟨before, texts, shown⟩ := printing'.shown
        show s'.chars = s'.called.flatten
        rw [shown, texts, List.flatten_append, List.flatten_singleton]
      · rename_i more
        have inside : i < text.length := by
          refine Nat.lt_of_le_of_ne le ?_
          rintro rfl
          exact more string.ends
        exact ⟨text, printing', inside, mem ▸ string⟩
  | put i =>
      obtain ⟨text, printing, inside, string⟩ := doing
      have short := printing.short
      have mem : s'.mem = s.mem := mem
      have there := string.holds i inside
      dsimp only [PrintkPc.exec] at chars ⊢
      rw [add32_eq (by omega), there] at chars
      have printing' := printing.next called chars
      refine ⟨text, ?_, inside, mem ▸ string⟩
      rw [← List.take_concat_get' _ _ inside]
      exact printing'

/-- One step. -/
theorem Alone.step {e : PrintkEvent T} (h : Alone buf n s) (undisturbed : Undisturbed n s e)
    (taken : Step buf s e s') (place : buf + n < 4294967296) : Alone buf n s' := by
  rw [taken]
  cases e with
  | call text =>
      obtain ⟨short, nonzero⟩ := undisturbed
      dsimp only [after]
      split
      · rename_i idle
        have doing := h.doing
        rw [idle] at doing
        have shown : s.chars = s.called.flatten := doing
        refine ⟨fun t other => ?_, ?_⟩
        · show Function.update s.pc s.running (.store text 0) t = .idle
          rw [Function.update_of_ne other]
          exact h.others t other
        · show Doing buf n _ (Function.update s.pc s.running (.store text 0) s.running)
          rw [Function.update_self]
          refine ⟨⟨⟨s.called, rfl, ?_⟩, short, nonzero⟩, Nat.zero_le _, fun i inside => ?_⟩
          · rw [List.append_nil]
            exact shown
          · exact absurd inside (Nat.not_lt_zero i)
      · exact h
  | statement =>
      refine ⟨fun t other => ?_, ?_⟩
      · have other : t ≠ s.running := other
        show Function.update s.pc s.running _ t = .idle
        rw [Function.update_of_ne other]
        exact h.others t other
      · show Doing buf n _ (Function.update s.pc s.running _ s.running)
        rw [Function.update_self]
        refine h.doing.exec place rfl rfl ?_
        show List.map _ (s.shown ++ _) = List.map _ s.shown ++ _
        rw [List.map_append]
        cases (PrintkPc.exec buf (s.pc s.running) s.mem).2.2 <;> rfl
  | switch t =>
      have idle : s.pc s.running = .idle := undisturbed
      have all : ∀ u, s.pc u = .idle := fun u => by
        by_cases own : u = s.running
        · rw [own, idle]
        · exact h.others u own
      have doing := h.doing
      rw [idle] at doing
      have shown : s.chars = s.called.flatten := doing
      refine ⟨fun u _ => all u, ?_⟩
      show Doing buf n _ (s.pc t)
      rw [all t]
      exact shown

omit [DecidableEq T] in
theorem AtStart.alone (start : AtStart buf s) : Alone buf n s where
  others t _ := start.idle t
  doing := by
    rw [start.idle]
    show List.map _ s.shown = s.called.flatten
    rw [start.shown, start.called]
    rfl

/-- While no thread is switched out in `printk`, the texts are shown one after the other: when the
running thread does not print, they all have been. -/
theorem unswitched_prints_texts (start : AtStart buf s₀) (place : buf + n < 4294967296)
    (reached : Reaches (Step buf) (Undisturbed n) s₀ s) (idle : s.pc s.running = .idle) :
    s.chars = s.called.flatten := by
  have alone : Alone buf n s := reached.invariant start.alone
    fun _ _ _ h undisturbed taken => h.step undisturbed taken place
  have doing := alone.doing
  rw [idle] at doing
  exact doing

instance (n : Nat) (s : Printks T) : (e : PrintkEvent T) → Decidable (Undisturbed n s e)
  | .call text =>
      @instDecidableAnd _ _ (Nat.decLe text.length n) (List.decidableBAll (fun c => c ≠ 0) text)
  | .statement => .isTrue trivial
  | .switch _ => inferInstanceAs (Decidable (s.pc s.running = .idle))

/-- One line after the other. -/
theorem switch_between_lines :
    ∃ s, Reaches (Step 8192) (Undisturbed 2) resting s ∧ s.called = [cstr "ab", cstr "xy"] ∧
      s.pc s.running = .idle ∧ s.chars = s.called.flatten := by
  have ran : ((.call (cstr "ab") :: List.replicate 9 .statement ++ [.switch true] ++
      .call (cstr "xy") :: List.replicate 9 .statement : List (PrintkEvent Bool)).foldlM
        (fun s e => if Undisturbed 2 s e then some (s.after 8192 e) else none) resting).map
          (fun s => decide (s.called = [cstr "ab", cstr "xy"] ∧ s.pc s.running = .idle)) =
        some true := by
    decide +kernel
  obtain ⟨s, taken, shape⟩ := Option.map_eq_some_iff.mp ran
  obtain ⟨called, idle⟩ := of_decide_eq_true shape
  have reached : Reaches (Step 8192) (Undisturbed 2) resting s :=
    Reaches.of_foldlM (fun s e s' taken => by
      split at taken
      · rename_i undisturbed
        exact ⟨undisturbed, (Option.some.inj taken).symm⟩
      · cases taken) _ taken
  exact ⟨s, reached, called, idle,
    unswitched_prints_texts (resting_atStart 8192) (by decide) reached idle⟩

end Printks

end MiniKernel.Kernel
