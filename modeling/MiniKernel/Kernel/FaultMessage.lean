/-
# Kernel.FaultMessage -- the message of a page fault

`page_fault_handler` prints what the error code and the address say and panics.  The message
appears whole on the terminal (`pageFaultHandler_shows`), and the four bits and the address can be
read back from it (`readFault_faultText`).

The bit for a page that is not there is printed as "present ", by a variable of that name that is
set when the bit is clear.
-/
import MiniKernel.Kernel.KernelMessages
import MiniKernel.Kernel.NumberText

namespace MiniKernel.Kernel

open Theory

set_option autoImplicit false

/-- `panic(s, ...)` up to its last loop; the names of the file and the function are pointers. -/
def panic (buf file line func : Nat) (fmt : List UInt8) (args : List Nat) : OutputM Unit :=
  panicAt buf (cstr "%s:%u in %s: " ++ fmt) (file :: line :: func :: args)

/-- `if (b) printk(text);` -/
def printkIf (buf : Nat) (b : Bool) (text : String) : OutputM Unit :=
  if b then printk buf (cstr text) [] else pure ()

/-- `page_fault_handler`, for an error code and `cr2`. -/
def pageFaultHandler (printkBuf panicBuf file func errCode cr2 : Nat) : OutputM Unit := do
  let present := !errCode.testBit 0
  let rw := errCode.testBit 1
  let us := errCode.testBit 2
  let reserved := errCode.testBit 3
  printk printkBuf (cstr "Page fault (") []
  printkIf printkBuf present "present "
  printkIf printkBuf rw "read-only "
  printkIf printkBuf us "user-mode "
  printkIf printkBuf reserved "reserved "
  printk printkBuf (cstr ") at %x\n") [cr2]
  panic panicBuf file 234 func (cstr "Page fault") []

/-! ## The text -/

/-- The flags of `%x`. -/
def hexFlags : NumFlags := { NumFlags.none with small := true }

/-- The words for the bits of an error code. -/
def faultWords (present rw us reserved : Bool) : List UInt8 :=
  (if present then cstr "present " else []) ++ ((if rw then cstr "read-only " else []) ++
    ((if us then cstr "user-mode " else []) ++ (if reserved then cstr "reserved " else [])))

/-- What `page_fault_handler` prints before it panics. -/
def faultText (errCode cr2 : Nat) : List UInt8 :=
  cstr "Page fault (" ++ (faultWords (!errCode.testBit 0) (errCode.testBit 1) (errCode.testBit 2)
    (errCode.testBit 3) ++ (cstr ") at " ++ (numberText hexFlags 16 0 0 cr2 ++ cstr "\n")))

/-- What `panic` formats. -/
def panicLine (fileName : List UInt8) (line : Nat) (funcName text : List UInt8) : List UInt8 :=
  fileName ++ (cstr ":" ++ (numberText .none 10 0 0 line ++ (cstr " in " ++
    (funcName ++ (cstr ": " ++ text)))))

/-- What `panic` prints. -/
def panicText (fileName : List UInt8) (line : Nat) (funcName text : List UInt8) : List UInt8 :=
  panicHead ++ (panicLine fileName line funcName text ++ panicRule)

/-- A word at the front of a text, and the rest. -/
def takeWord (word text : List UInt8) : Bool × List UInt8 :=
  if word.isPrefixOf text then (true, text.drop word.length) else (false, text)

/-- The bits of the error code and the address in a message. -/
def readFault (text : List UInt8) : (Bool × Bool × Bool × Bool) × Nat :=
  let present := takeWord (cstr "present ") (text.drop 12)
  let rw := takeWord (cstr "read-only ") present.2
  let us := takeWord (cstr "user-mode ") rw.2
  let reserved := takeWord (cstr "reserved ") us.2
  ((!present.1, rw.1, us.1, reserved.1),
    readNumber hexFlags 16 (reserved.2.drop 5).dropLast)

/-- The message determines the fault. -/
theorem readFault_faultText (errCode : Nat) {cr2 : Nat} (word : cr2 < 4294967296) :
    readFault (faultText errCode cr2) =
      ((errCode.testBit 0, errCode.testBit 1, errCode.testBit 2, errCode.testBit 3), cr2) := by
  have address : readNumber hexFlags 16 (numberText hexFlags 16 0 0 cr2 ++ cstr "\n").dropLast =
      cr2 := by
    rw [show cstr "\n" = [ch '\n'] from rfl, List.dropLast_concat]
    exact readNumber_numberText (by decide) (by decide) word 0 0
  unfold faultText
  generalize numberText hexFlags 16 0 0 cr2 ++ cstr "\n" = rest at address
  cases errCode.testBit 0 <;> cases errCode.testBit 1 <;> cases errCode.testBit 2 <;>
    cases errCode.testBit 3 <;> exact congrArg (Prod.mk _) address

theorem user_write_readBack :
    readFault (faultText 6 0xA0000000) = ((false, true, true, false), 0xA0000000) :=
  readFault_faultText 6 (by decide)

/-! ## What is shown -/

section Displays

variable {strings : Nat → Option (List UInt8)} {b₁ b₂ : Nat} {fmt text rest : List UInt8}
variable {args : List Nat} {x y : OutputM Unit}

/-- The strings for `%s` lie apart from both buffers. -/
structure BothApart (strings : Nat → Option (List UInt8)) (b₁ b₂ : Nat) (m : Mem) : Prop where
  first : StringTable strings b₁ 1024 m
  second : StringTable strings b₂ 1024 m

/-- Only the two buffers change. -/
def OffBoth (b₁ b₂ : Nat) (m m' : Mem) : Prop :=
  ∀ a, a < b₁ ∨ b₁ + 1024 ≤ a → a < b₂ ∨ b₂ + 1024 ≤ a → m' a = m a

theorem BothApart.congr {m m' : Mem} (apart : BothApart strings b₁ b₂ m)
    (off : OffBoth b₁ b₂ m m') : BothApart strings b₁ b₂ m' := by
  have there : ∀ p text, strings p = some text → m'.CString p text := by
    intro p text entry
    have first := apart.first.apart p text entry
    have second := apart.second.apart p text entry
    exact (apart.first.there p text entry).congr fun b h1 h2 => off b (by omega) (by omega)
  exact ⟨{ apart.first with there := there }, { apart.second with there := there }⟩

/-- `x` returns, has shown `text`, and has changed no more than the buffers. -/
def Displays (strings : Nat → Option (List UInt8)) (b₁ b₂ : Nat) (x : OutputM Unit)
    (text : List UInt8) : Prop :=
  ∀ (s : Output) (t : Terminal), BothApart strings b₁ b₂ s.mem → Shows s.screen t →
    ∃ s', x s = .ok ((), s') ∧ OffBoth b₁ b₂ s.mem s'.mem ∧
      Shows s'.screen (text.foldl Terminal.put t)

namespace Displays

theorem pure : Displays strings b₁ b₂ (Pure.pure ()) [] :=
  fun s _ _ shows => ⟨s, rfl, fun _ _ _ => rfl, shows⟩

theorem bind (first : Displays strings b₁ b₂ x text) (second : Displays strings b₁ b₂ y rest) :
    Displays strings b₁ b₂ (x >>= fun _ => y) (text ++ rest) := by
  intro s t apart shows
  obtain ⟨s₁, run, off, shown⟩ := first s t apart shows
  obtain ⟨s₂, run', off', shown'⟩ := second s₁ _ (apart.congr off) shown
  refine ⟨s₂, (Program.bind_run_ok run).trans run', fun a h1 h2 => ?_, ?_⟩
  · rw [off' a h1 h2, off a h1 h2]
  · rw [List.foldl_append]
    exact shown'

end Displays

theorem displays_screenWrite (nonzero : ∀ c ∈ text, c ≠ 0) :
    Displays strings b₁ b₂ (onScreen (screenWrite text)) text := by
  intro s t apart shows
  obtain ⟨screen, run, shown⟩ := onScreen_run (wp_screenWrite shows text)
  rw [List.takeWhile_eq_self_iff.mpr fun c member => decide_eq_true (nonzero c member)] at shown
  exact ⟨_, run, fun _ _ _ => rfl, shown⟩

theorem BothApart.whole {m : Mem} (apart : BothApart strings b₁ b₂ m)
    (formats : FormatsTo strings fmt args text) (safe : ∀ d ∈ directives fmt, d.NonNull) :
    text.takeWhile (· ≠ 0) = text :=
  formats.takeWhile safe fun p t entry => (apart.first.there p t entry).nonzero

theorem displays_printk (formats : FormatsTo strings fmt args text) (short : text.length < 1024)
    (safe : ∀ d ∈ directives fmt, d.NonNull) (place : b₁ + 1024 ≤ 4294967296) :
    Displays strings b₁ b₂ (printk b₁ fmt args) text := by
  intro s t apart shows
  have whole := apart.whole formats safe
  obtain ⟨screen, run, shown⟩ := printk_run apart.first formats (by omega) (by omega) short shows
  rw [whole] at shown
  refine ⟨_, run, fun a h1 _ => Mem.put_apply_of_apart ?_, shown⟩
  rw [List.length_append, List.length_singleton]
  omega

theorem displays_panicAt (formats : FormatsTo strings fmt args text) (short : text.length < 1024)
    (safe : ∀ d ∈ directives fmt, d.NonNull) (place : b₂ + 1024 ≤ 4294967296) :
    Displays strings b₁ b₂ (panicAt b₂ fmt args) (panicHead ++ (text ++ panicRule)) := by
  have formatted : Displays strings b₁ b₂
      (callVsprintf b₂ fmt args >>= fun _ => screenWriteAt b₂) text := by
    intro s t apart shows
    have whole := apart.whole formats safe
    obtain ⟨screen, run, shown⟩ := screenWriteAt_run
      (s := { s with mem := s.mem.put b₂ (text ++ [0]) }) rfl (by omega) shows
    rw [whole] at shown
    refine ⟨_, (Program.bind_run_ok (callVsprintf_run apart.second formats (by omega) (by omega)
      short)).trans run, fun a _ h2 => Mem.put_apply_of_apart ?_, shown⟩
    rw [List.length_append, List.length_singleton]
    omega
  have parts : panicAt b₂ fmt args = (onScreen (screenWrite panicHead) >>= fun _ =>
      (callVsprintf b₂ fmt args >>= fun _ => screenWriteAt b₂) >>= fun _ =>
        onScreen (screenWrite panicRule)) := by
    simp only [panicAt, bind_assoc]
  rw [parts]
  exact .bind (displays_screenWrite (Mem.nonzero_of_all rfl))
    (.bind formatted (displays_screenWrite (Mem.nonzero_of_all rfl)))

theorem displays_printkIf (b : Bool) {word : String}
    (stands : formatted strings (directives (cstr word)) [] = some (cstr word, []))
    (fits : ∀ d ∈ directives (cstr word), d.Fits) (short : (cstr word).length < 1024)
    (safe : ∀ d ∈ directives (cstr word), d.NonNull) (place : b₁ + 1024 ≤ 4294967296) :
    Displays strings b₁ b₂ (printkIf b₁ b word) (if b then cstr word else []) := by
  cases b with
  | true => exact displays_printk ⟨⟨[], stands⟩, fits, nofun⟩ short safe place
  | false => exact .pure

theorem displays_address {cr2 : Nat} (word : cr2 < 4294967296) (place : b₁ + 1024 ≤ 4294967296) :
    Displays strings b₁ b₂ (printk b₁ (cstr ") at %x\n") [cr2])
      (cstr ") at " ++ (numberText hexFlags 16 0 0 cr2 ++ cstr "\n")) := by
  have formats : FormatsTo strings (cstr ") at %x\n") [cr2]
      (cstr ") at " ++ (numberText hexFlags 16 0 0 cr2 ++ cstr "\n")) :=
    ⟨⟨[], rfl⟩, by decide, fun a member => List.mem_singleton.mp member ▸ word⟩
  have most := length_numberText_le hexFlags (show 1 < 16 by decide) word 0 0
  have bound : numberMost hexFlags 16 0 0 = 9 := by decide
  refine displays_printk formats ?_ (by decide) place
  rw [List.length_append, List.length_append]
  have l1 : (cstr ") at ").length = 5 := rfl
  have l2 : (cstr "\n").length = 1 := rfl
  omega

/-! ## The panic -/

theorem formatted_plain {ds : List Directive} {args args' : List Nat} (text : List UInt8)
    (behind : formatted strings ds args = some (rest, args')) :
    formatted strings (text.map .plain ++ ds) args = some (text ++ rest, args') := by
  induction text with
  | nil => exact behind
  | cons c text ih =>
      rw [List.map_cons, List.cons_append, formatted]
      show ((formatted strings (text.map .plain ++ ds) args).bind fun r => _) = _
      rw [ih]
      rfl

theorem formatted_string {ds : List Directive} {p : Nat} {args args' : List Nat}
    (entry : strings p = some text) (behind : formatted strings ds args = some (rest, args')) :
    formatted strings (.conversion ⟨.none, none, none, false, .string⟩ :: ds) (p :: args) =
      some (text ++ rest, args') := by
  have here : (Directive.conversion ⟨.none, none, none, false, .string⟩).text strings (p :: args) =
      some (text, args) := by
    show ((strings p).map _).map _ = _
    rw [entry]
    simp [padded]
  rw [formatted, here]
  show ((formatted strings ds args).bind fun r => _) = _
  rw [behind]
  rfl

theorem formatted_unsigned {ds : List Directive} {a : Nat} {args args' : List Nat}
    (behind : formatted strings ds args = some (rest, args')) :
    formatted strings (.conversion ⟨.none, none, none, false, .number 10 false false⟩ :: ds)
      (a :: args) = some (numberText .none 10 0 0 a ++ rest, args') := by
  rw [formatted]
  show ((formatted strings ds args).bind fun r => _) = _
  rw [behind]
  rfl

end Displays

theorem panic_formats {strings : Nat → Option (List UInt8)} {file line func : Nat}
    {fileName funcName : List UInt8} (hfile : strings file = some fileName)
    (hfunc : strings func = some funcName)
    (words : file < 4294967296 ∧ line < 4294967296 ∧ func < 4294967296) :
    FormatsTo strings (cstr "%s:%u in %s: " ++ cstr "Page fault") [file, line, func]
      (panicLine fileName line funcName (cstr "Page fault")) where
  text := by
    have parsed : directives (cstr "%s:%u in %s: " ++ cstr "Page fault") =
        .conversion ⟨.none, none, none, false, .string⟩ :: ((cstr ":").map .plain ++
          .conversion ⟨.none, none, none, false, .number 10 false false⟩ ::
          ((cstr " in ").map .plain ++ .conversion ⟨.none, none, none, false, .string⟩ ::
          ((cstr ": ").map .plain ++ ((cstr "Page fault").map .plain ++ [])))) := by decide
    rw [parsed]
    refine ⟨[], formatted_string hfile (formatted_plain _ (formatted_unsigned (formatted_plain _
      (formatted_string hfunc (formatted_plain _ ?_)))))⟩
    have last := formatted_plain (cstr "Page fault")
      (show formatted strings [] [] = some ([], []) from rfl)
    rw [List.append_nil (cstr "Page fault")] at last
    exact last
  fits := by decide
  words a member := by
    simp only [List.mem_cons, List.not_mem_nil, or_false] at member
    omega

/-- The fault is shown, and the panic behind it. -/
theorem pageFaultHandler_shows {strings : Nat → Option (List UInt8)} {b₁ b₂ file func : Nat}
    {fileName funcName : List UInt8} (hfile : strings file = some fileName)
    (hfunc : strings func = some funcName) (names : fileName.length + funcName.length < 512)
    (words : file < 4294967296 ∧ func < 4294967296)
    (place : b₁ + 1024 ≤ 4294967296 ∧ b₂ + 1024 ≤ 4294967296) (errCode : Nat) {cr2 : Nat}
    (word : cr2 < 4294967296) {s : Output} {t : Terminal} (apart : BothApart strings b₁ b₂ s.mem)
    (shows : Shows s.screen t) :
    ∃ s', pageFaultHandler b₁ b₂ file func errCode cr2 s = .ok ((), s') ∧
      OffBoth b₁ b₂ s.mem s'.mem ∧
      Shows s'.screen ((faultText errCode cr2 ++
        panicText fileName 234 funcName (cstr "Page fault")).foldl Terminal.put t) := by
  have panics : Displays strings b₁ b₂ (panic b₂ file 234 func (cstr "Page fault") [])
      (panicHead ++ (panicLine fileName 234 funcName (cstr "Page fault") ++ panicRule)) := by
    refine displays_panicAt (panic_formats hfile hfunc ⟨words.1, by decide, words.2⟩) ?_ (by decide)
      place.2
    have digits : (numberText .none 10 0 0 234).length = 3 := by decide
    have l1 : (cstr ":").length = 1 := rfl
    have l2 : (cstr " in ").length = 4 := rfl
    have l3 : (cstr ": ").length = 2 := rfl
    have l4 : (cstr "Page fault").length = 10 := rfl
    unfold panicLine
    simp only [List.length_append, digits, l1, l2, l3, l4]
    omega
  have all : Displays strings b₁ b₂ (pageFaultHandler b₁ b₂ file func errCode cr2) _ :=
    .bind (displays_printk ⟨⟨[], rfl⟩, by decide, nofun⟩ (by decide) (by decide) place.1)
      (.bind (displays_printkIf _ rfl (by decide) (by decide) (by decide) place.1)
        (.bind (displays_printkIf _ rfl (by decide) (by decide) (by decide) place.1)
          (.bind (displays_printkIf _ rfl (by decide) (by decide) (by decide) place.1)
            (.bind (displays_printkIf _ rfl (by decide) (by decide) (by decide) place.1)
              (.bind (displays_address word place.1) panics)))))
  obtain ⟨s', run, off, shown⟩ := all s t apart shows
  refine ⟨s', run, off, ?_⟩
  unfold faultText faultWords panicText
  simp only [List.append_assoc] at shown ⊢
  exact shown

/-- The names of the file and the function. -/
def faultNames (p : Nat) : Option (List UInt8) :=
  if p = 4096 then some (cstr "paging.c")
  else if p = 4352 then some (cstr "page_fault_handler")
  else none

theorem faultNames_eq {p : Nat} {text : List UInt8} (entry : faultNames p = some text) :
    p = 4096 ∧ text = cstr "paging.c" ∨ p = 4352 ∧ text = cstr "page_fault_handler" := by
  unfold faultNames at entry
  split_ifs at entry with file func
  · exact .inl ⟨file, (Option.some.inj entry).symm⟩
  · exact .inr ⟨func, (Option.some.inj entry).symm⟩

def faultMem : Mem :=
  (Mem.put (fun _ => 0) 4096 (cstr "paging.c" ++ [0])).put 4352 (cstr "page_fault_handler" ++ [0])

theorem faultMem_strings (p : Nat) (text : List UInt8) (entry : faultNames p = some text) :
    faultMem.CString p text := by
  obtain ⟨rfl, rfl⟩ | ⟨rfl, rfl⟩ := faultNames_eq entry
  · refine (Mem.CString.put _ 4096 (Mem.nonzero_of_all rfl)).congr fun b h1 h2 =>
      Mem.put_apply_of_apart (.inl ?_)
    have length : (cstr "paging.c").length = 8 := rfl
    omega
  · exact Mem.CString.put _ 4352 (Mem.nonzero_of_all rfl)

theorem bothApart_faultMem : BothApart faultNames 8192 12288 faultMem := by
  have below (p : Nat) (text : List UInt8) (entry : faultNames p = some text) :
      p + text.length < 8192 := by
    obtain ⟨rfl, rfl⟩ | ⟨rfl, rfl⟩ := faultNames_eq entry <;> decide
  refine ⟨⟨faultMem_strings, fun p text entry => ?_, fun p text entry => ?_, fun p text entry => ?_⟩,
    ⟨faultMem_strings, fun p text entry => ?_, fun p text entry => ?_, fun p text entry => ?_⟩⟩ <;>
  · have low := below p text entry
    omega

theorem user_write_shown :
    ∃ s', pageFaultHandler 8192 12288 4096 4352 6 0xA0000000 ⟨faultMem, clearedScreen⟩ =
        .ok ((), s') ∧
      OffBoth 8192 12288 faultMem s'.mem ∧
      Shows s'.screen ((faultText 6 0xA0000000 ++ panicText (cstr "paging.c") 234
        (cstr "page_fault_handler") (cstr "Page fault")).foldl Terminal.put .blank) :=
  pageFaultHandler_shows (show faultNames 4096 = some (cstr "paging.c") from rfl)
    (show faultNames 4352 = some (cstr "page_fault_handler") from rfl) (by decide) (by decide)
    (by decide) 6 (by decide) bothApart_faultMem shows_clearedScreen

end MiniKernel.Kernel
