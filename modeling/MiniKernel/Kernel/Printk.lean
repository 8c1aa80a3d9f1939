/-
# Kernel.Printk -- printk and _panic

`printk` formats into its static buffer of 1024 bytes at `buf`, and writes what it finds there to
the screen.  Over any number of calls the screen stays the end of one terminal that gets the
texts of the calls, one after the other (`printAll_shows`); and a call leaves the buffer exactly
when its text has 1024 characters or more (`printk_overruns`).

The kernel's data lies apart from the text memory of the screen, which is a part of its own here.
-/
import MiniKernel.Kernel.Console
import MiniKernel.Kernel.VsprintfRun

namespace MiniKernel.Kernel

open Theory

set_option autoImplicit false

/-- The memory and the screen. -/
structure Output where
  mem : Mem
  screen : Screen

/-- Why a call does not return. -/
inductive OutputStop where
  | sprint (e : SprintStop)
  /-- `putch` writes a cell that does not exist. -/
  | cell (i : Nat)
  /-- `screen_write` of a string without a null byte -/
  | noEnd

abbrev OutputM := Program Output OutputStop

/-- A call of a function of screen.c. -/
def onScreen (x : ScreenM Unit) : OutputM Unit := fun s =>
  match x s.screen with
  | .ok (_, screen) => .ok ((), { s with screen := screen })
  | .error i => .error (.cell i)

/-- A call of `vsprintf`. -/
def callVsprintf (buf : Nat) (fmt : List UInt8) (args : List Nat) : OutputM Nat := fun s =>
  match vsprintf buf fmt ⟨s.mem, buf, args⟩ with
  | .ok (len, t) => .ok (len, { s with mem := t.mem })
  | .error e => .error (.sprint e)

/-- The loop of `screen_write(c)`, with `n` bytes of the address space left. -/
def screenWriteFrom : Nat → Nat → OutputM Unit
  | 0, _ => Program.stop .noEnd
  | n + 1, c => do
      let s ← get
      if s.mem c = 0 then pure ()
      else do
        onScreen (putch (s.mem c))
        screenWriteFrom n (add32 c 1)

/-- `screen_write` of a string in memory. -/
def screenWriteAt (c : Nat) : OutputM Unit := screenWriteFrom 4294967296 c

/-- `printk` -/
def printk (buf : Nat) (fmt : List UInt8) (args : List Nat) : OutputM Unit := do
  let len ← callVsprintf buf fmt args
  modify fun s => { s with mem := s.mem.setByte (add32 buf len) 0 }
  screenWriteAt buf

/-- The footer of `_panic`. -/
def panicRule : List UInt8 := cstr "\n--------------------------\n"

/-- The header of `_panic`. -/
def panicHead : List UInt8 := cstr "\nKernel panic!\n--------------------------\n"

/-- `_panic`, up to the loop that it stays in; it has a buffer of its own. -/
def panicAt (buf : Nat) (fmt : List UInt8) (args : List Nat) : OutputM Unit := do
  onScreen (screenWrite panicHead)
  let _ ← callVsprintf buf fmt args
  screenWriteAt buf
  onScreen (screenWrite panicRule)

/-! ## One call -/

section Rules

variable {s : Output} {t : Terminal} {strings : Nat → Option (List UInt8)} {buf size : Nat}
variable {fmt text : List UInt8} {args args' : List Nat}

/-- What a call of `screen.c` shows. -/
theorem onScreen_run {x : ScreenM Unit} {Q : Screen → Prop}
    (runs : Program.wp x (fun _ s' => Q s') (fun _ => False) s.screen) :
    ∃ screen, onScreen x s = .ok ((), { s with screen := screen }) ∧ Q screen := by
  obtain ⟨screen, run, shows⟩ := Program.wp_returns runs
  refine ⟨screen, ?_, shows⟩
  unfold onScreen
  rw [run]

theorem screenWriteFrom_run {n c : Nat} (string : s.mem.CString c text)
    (inside : c + text.length < 4294967296) (enough : text.length < n) (shows : Shows s.screen t) :
    ∃ screen, screenWriteFrom n c s = .ok ((), { s with screen := screen }) ∧
      Shows screen (text.foldl Terminal.put t) := by
  induction text generalizing s t n c with
  | nil =>
      obtain ⟨n, rfl⟩ := Nat.exists_eq_succ_of_ne_zero (by omega : n ≠ 0)
      have ends : s.mem c = 0 := string.ends
      refine ⟨s.screen, ?_, shows⟩
      rw [screenWriteFrom]
      refine (Program.get_bind_run _ s).trans ?_
      rw [if_pos ends]
      rfl
  | cons x text ih =>
      obtain ⟨n, rfl⟩ := Nat.exists_eq_succ_of_ne_zero (by omega : n ≠ 0)
      rw [List.length_cons] at inside enough
      have first : s.mem c = x := (Mem.holds_cons.mp string.holds).1
      have more : x ≠ 0 := string.nonzero x List.mem_cons_self
      obtain ⟨screen, put, shown⟩ := onScreen_run (wp_putch shows x)
      obtain ⟨last, rest, shown⟩ := ih (s := { s with screen := screen }) (n := n) (c := c + 1)
        string.tail (by omega) (by omega) shown
      refine ⟨last, ?_, shown⟩
      rw [screenWriteFrom]
      refine (Program.get_bind_run _ s).trans ?_
      rw [first, if_neg more, Program.bind_run_ok put, add32_eq (by omega), rest]

/-- `screen_write` of a text that has been stored shows it up to its first null byte. -/
theorem screenWriteAt_run {m : Mem} (stored : s.mem = m.put buf (text ++ [0]))
    (room : buf + text.length < 4294967296) (shows : Shows s.screen t) :
    ∃ screen, screenWriteAt buf s = .ok ((), { s with screen := screen }) ∧
      Shows screen ((text.takeWhile (· ≠ 0)).foldl Terminal.put t) := by
  have less : (text.takeWhile (· ≠ 0)).length ≤ text.length :=
    (List.takeWhile_prefix _).length_le
  have found : s.mem.CString buf (text.takeWhile (· ≠ 0)) := stored ▸ Mem.CString.of_put m buf text
  unfold screenWriteAt
  exact screenWriteFrom_run found (by omega) (by omega) shows

/-- The strings for `%s` are in memory, apart from `[buf, buf + size)`. -/
structure StringTable (strings : Nat → Option (List UInt8)) (buf size : Nat) (m : Mem) : Prop where
  there : ∀ p text, strings p = some text → m.CString p text
  apart : ∀ p text, strings p = some text → p + text.length < buf ∨ buf + size ≤ p
  inside : ∀ p text, strings p = some text → p + text.length < 4294967296
  short : ∀ p text, strings p = some text → text.length < 2147483648

/-- Nothing is printed with `%s`. -/
theorem StringTable.empty (buf size : Nat) (m : Mem) : StringTable (fun _ => none) buf size m where
  there := nofun
  apart := nofun
  inside := nofun
  short := nofun

theorem StringTable.ready {m : Mem} (table : StringTable strings buf size m) {n : Nat}
    (fits : n < size) (args : List Nat) : Ready strings buf (buf + n + 1) ⟨m, buf, args⟩ where
  low := Nat.le_refl _
  there := table.there
  apart p text entry := by
    have apart := table.apart p text entry
    omega
  inside := table.inside
  short := table.short

theorem StringTable.congr {m m' : Mem} (table : StringTable strings buf size m)
    (off : Mem.AgreeOff buf (buf + size) m m') : StringTable strings buf size m' where
  there p text entry := by
    have apart := table.apart p text entry
    exact (table.there p text entry).congr fun b h1 h2 => off b (by omega)
  apart := table.apart
  inside := table.inside
  short := table.short

/-- The arguments of `printk`, and the text that they stand for. -/
structure FormatsTo (strings : Nat → Option (List UInt8)) (fmt : List UInt8) (args : List Nat)
    (text : List UInt8) : Prop where
  text : ∃ args', formatted strings (directives fmt) args = some (text, args')
  fits : ∀ d ∈ directives fmt, d.Fits
  words : ∀ a ∈ args, a < 4294967296

theorem callVsprintf_run (table : StringTable strings buf size s.mem)
    (formats : FormatsTo strings fmt args text) (short : text.length < 2147483000)
    (room : buf + text.length < 4294967296) (fits : text.length < size) :
    callVsprintf buf fmt args s =
      .ok (text.length, { s with mem := s.mem.put buf (text ++ [0]) }) := by
  obtain ⟨args', stands⟩ := formats.text
  have ready := table.ready fits args
  have loop := vsprintfLoop_prints buf fmt.length (Nat.le_refl _) stands formats.fits formats.words
    short ready.short (by omega) ⟨s.mem, buf, args⟩ rfl ready (Nat.lt_succ_self _)
  unfold callVsprintf
  rw [vsprintf_of_loop loop room buf]

/-- The null byte that is there already. -/
theorem put_null (m : Mem) (a : Nat) (text : List UInt8) :
    (m.put a (text ++ [0])).setByte (a + text.length) 0 = m.put a (text ++ [0]) := by
  rw [Mem.put_append]
  funext b
  unfold Mem.put Mem.put Mem.setByte
  split <;> rfl

/-- What `printk` does with the text, for a string table apart from what it writes. -/
theorem printk_run (table : StringTable strings buf size s.mem)
    (formats : FormatsTo strings fmt args text) (short : text.length < 2147483000)
    (room : buf + text.length < 4294967296) (fits : text.length < size) (shows : Shows s.screen t) :
    ∃ screen, printk buf fmt args s =
        .ok ((), { mem := s.mem.put buf (text ++ [0]), screen := screen }) ∧
      Shows screen ((text.takeWhile (· ≠ 0)).foldl Terminal.put t) := by
  obtain ⟨screen, run, shown⟩ := screenWriteAt_run (s := { s with mem := s.mem.put buf (text ++ [0]) })
    rfl room shows
  refine ⟨screen, ?_, shown⟩
  have null : (modify fun s => { s with mem := s.mem.setByte (buf + text.length) 0 } : OutputM Unit)
      { s with mem := s.mem.put buf (text ++ [0]) } =
      .ok ((), { s with mem := s.mem.put buf (text ++ [0]) }) := by
    show Except.ok ((), ({ s with
      mem := (s.mem.put buf (text ++ [0])).setByte (buf + text.length) 0 } : Output)) = _
    rw [put_null]
  unfold printk
  rw [Program.bind_run_ok (callVsprintf_run table formats short room fits), add32_eq room,
    Program.bind_run_ok null]
  exact run

/-- `printk` writes behind its buffer exactly when its text has 1024 characters or more. -/
theorem printk_overruns (table : StringTable strings buf size s.mem)
    (formats : FormatsTo strings fmt args text) (short : text.length < 2147483000)
    (room : buf + text.length < 4294967296) (fits : text.length < size) (shows : Shows s.screen t) :
    ∃ s', printk buf fmt args s = .ok ((), s') ∧
      (text.length < 1024 → Mem.AgreeOff buf (buf + 1024) s.mem s'.mem) ∧
      (1024 ≤ text.length → s'.mem (buf + 1024) = (text ++ [0]).getD 1024 0) := by
  obtain ⟨screen, run, -⟩ := printk_run table formats short room fits shows
  refine ⟨_, run, fun inside => ?_, fun outside => ?_⟩
  · refine (Mem.agreeOff_put s.mem buf (text ++ [0])).mono (Nat.le_refl _) ?_
    rw [List.length_append, List.length_singleton]
    omega
  · have there : 1024 < (text ++ [0]).length := by
      rw [List.length_append, List.length_singleton]
      omega
    rw [List.getD_eq_getElem _ _ there]
    exact Mem.put_apply s.mem buf there

/-- What `cls` leaves. -/
def clearedScreen : Screen := ⟨fun _ => monBlankChar, 0, 0, 0, fun _ => 0⟩

theorem shows_clearedScreen : Shows clearedScreen .blank where
  cursorX := by decide
  cursorY := by decide
  column := rfl
  fits := Nat.le_refl _
  cells _ _ _ _ := rfl
  below _ _ _ _ := rfl
  csr := by decide

/-- The field of 1030 characters for 5 is longer than the buffer. -/
theorem wide_number_overruns :
    ∃ s', printk 8192 (cstr "%1030d") [5] ⟨fun _ => 0, clearedScreen⟩ = .ok ((), s') ∧
      ((numberText { NumFlags.none with sign := true } 10 1030 0 5).length < 1024 →
        Mem.AgreeOff 8192 9216 (fun _ => 0) s'.mem) ∧
      (1024 ≤ (numberText { NumFlags.none with sign := true } 10 1030 0 5).length → s'.mem 9216 =
        (numberText { NumFlags.none with sign := true } 10 1030 0 5 ++ [0]).getD 1024 0) := by
  have length : (numberText { NumFlags.none with sign := true } 10 1030 0 5).length = 1030 := by
    rw [length_numberText, length_digitText]
    decide
  have parsed : directives (cstr "%1030d") =
      [.conversion ⟨.none, some 1030, none, false, .number 10 true false⟩] := by decide
  have stands : formatted (fun _ => none) (directives (cstr "%1030d")) [5] =
      some (numberText { NumFlags.none with sign := true } 10 1030 0 5, []) := by
    rw [parsed]
    exact congrArg (fun text => some (text, [])) (List.append_nil _)
  exact printk_overruns (StringTable.empty 8192 4096 _) ⟨⟨[], stands⟩, by decide, by decide⟩
    (by omega) (by omega) (by omega)
    shows_clearedScreen

/-! ## Any number of calls -/

/-- `printk` for each format and its arguments. -/
def printAll (buf : Nat) : List (List UInt8 × List Nat) → OutputM Unit
  | [] => pure ()
  | (fmt, args) :: calls => do
      printk buf fmt args
      printAll buf calls

/-- The memory behind the calls, when the texts fit. -/
theorem agreeOff_printed {texts : List (List UInt8)} (short : ∀ text ∈ texts, text.length < 1024)
    (m : Mem) : Mem.AgreeOff buf (buf + 1024) m
      (texts.foldl (fun m text => Mem.put m buf (text ++ [0])) m) := by
  induction texts generalizing m with
  | nil => exact .refl _ _ _
  | cons text texts ih =>
      have first : Mem.AgreeOff buf (buf + 1024) m (m.put buf (text ++ [0])) := by
        have small := short text List.mem_cons_self
        refine (Mem.agreeOff_put m buf (text ++ [0])).mono (Nat.le_refl _) ?_
        rw [List.length_append, List.length_singleton]
        omega
      exact first.trans (ih (fun text member => short text (List.mem_cons_of_mem _ member)) _)

/-- What the calls leave in the buffer and on the screen. -/
theorem printAll_run {calls : List (List UInt8 × List Nat)} {texts : List (List UInt8)}
    (formats : List.Forall₂ (fun call text => FormatsTo strings call.1 call.2 text) calls texts)
    (short : ∀ text ∈ texts, text.length < 1024) (place : buf + 1024 ≤ 4294967296)
    (table : StringTable strings buf 1024 s.mem) (shows : Shows s.screen t) :
    ∃ screen, printAll buf calls s = .ok ((),
        { mem := texts.foldl (fun m text => Mem.put m buf (text ++ [0])) s.mem, screen }) ∧
      Shows screen ((texts.flatMap (List.takeWhile (· ≠ 0))).foldl Terminal.put t) := by
  induction formats generalizing s t with
  | nil => exact ⟨s.screen, rfl, shows⟩
  | @cons call text calls texts first _ ih =>
      have small := short text List.mem_cons_self
      obtain ⟨screen, run, shown⟩ := printk_run table first (by omega) (by omega) small shows
      have one : ∀ only ∈ [text], only.length < 1024 :=
        fun _ member => List.mem_singleton.mp member ▸ small
      have off : Mem.AgreeOff buf (buf + 1024) s.mem (s.mem.put buf (text ++ [0])) :=
        agreeOff_printed one s.mem
      obtain ⟨screen', rest, shown'⟩ := ih (s := ⟨s.mem.put buf (text ++ [0]), screen⟩)
        (fun text member => short text (List.mem_cons_of_mem _ member)) (table.congr off) shown
      refine ⟨screen', ?_, ?_⟩
      · rw [printAll, Program.bind_run_ok run]
        exact rest
      · rw [List.flatMap_cons, List.foldl_append]
        exact shown'

/-- The calls print their texts one after the other on the terminal, and change nothing in memory
but the buffer. -/
theorem printAll_shows {calls : List (List UInt8 × List Nat)} {texts : List (List UInt8)}
    (formats : List.Forall₂ (fun call text => FormatsTo strings call.1 call.2 text) calls texts)
    (short : ∀ text ∈ texts, text.length < 1024) (place : buf + 1024 ≤ 4294967296)
    (table : StringTable strings buf 1024 s.mem) (shows : Shows s.screen t) :
    ∃ s', printAll buf calls s = .ok ((), s') ∧
      Mem.AgreeOff buf (buf + 1024) s.mem s'.mem ∧
      Shows s'.screen ((texts.flatMap (List.takeWhile (· ≠ 0))).foldl Terminal.put t) := by
  obtain ⟨screen, run, shown⟩ := printAll_run formats short place table shows
  exact ⟨_, run, agreeOff_printed short s.mem, shown⟩

theorem two_calls_shown :
    ∃ s', printAll 8192 [(cstr "a = %d\n", [5]), (cstr "b = %d\n", [7])]
        ⟨fun _ => 0, clearedScreen⟩ = .ok ((), s') ∧
      Mem.AgreeOff 8192 9216 (fun _ => 0) s'.mem ∧
      Shows s'.screen (([cstr "a = 5\n", cstr "b = 7\n"].flatMap
        (List.takeWhile (· ≠ 0))).foldl Terminal.put .blank) :=
  @printAll_shows _ _ (fun _ => none) _ _ _
    (.cons ⟨⟨[], by decide⟩, by decide, by decide⟩
      (.cons ⟨⟨[], by decide⟩, by decide, by decide⟩ .nil))
    (by decide) (by decide) (.empty _ _ _) shows_clearedScreen

end Rules

end MiniKernel.Kernel
