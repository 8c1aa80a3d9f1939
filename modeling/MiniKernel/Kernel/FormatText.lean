/-
# Kernel.FormatText -- what a format says

A format is read as a list of directives: characters that stand for themselves, and conversions
with their flags, field width and precision.  `formatted` is the text that the directives and
their arguments stand for; it knows no buffer and no pointers, and takes the strings that `%s`
refers to from a table.

The `*` of a width or a precision takes an argument, as it should.  But `vsprintf` does not step
over the `*`, so it becomes the conversion character, one that is not known: `%*d` stands for
these three characters.
-/
import MiniKernel.Kernel.Vsprintf
import MiniKernel.Theory.Numeral

namespace MiniKernel.Kernel

open Theory

set_option autoImplicit false

/-! ## Fields -/

/-- A text in a field of `width` characters at least. -/
def padded (left : Bool) (width : Nat) (text : List UInt8) : List UInt8 :=
  if left then text ++ List.replicate (width - text.length) (ch ' ')
  else List.replicate (width - text.length) (ch ' ') ++ text

theorem length_padded (left : Bool) (width : Nat) (text : List UInt8) :
    (padded left width text).length = max width text.length := by
  unfold padded
  split
  · rw [List.length_append, List.length_replicate]
    omega
  · rw [List.length_append, List.length_replicate]
    omega

/-- A word is printed with a minus sign. -/
def Negative (flags : NumFlags) (v : Nat) : Prop := flags.sign = true ∧ 2147483648 ≤ v

instance (flags : NumFlags) (v : Nat) : Decidable (Negative flags v) :=
  inferInstanceAs (Decidable (_ ∧ _))

/-- The number behind the sign. -/
def magnitude (flags : NumFlags) (v : Nat) : Nat :=
  if Negative flags v then 4294967296 - v else v

/-- The sign, when there is one. -/
def signText (flags : NumFlags) (v : Nat) : List UInt8 :=
  if Negative flags v then [ch '-']
  else if flags.plus then [ch '+']
  else if flags.space then [ch ' ']
  else []

/-- What `#` puts in front of the digits. -/
def baseText (flags : NumFlags) (base : Nat) : List UInt8 :=
  if flags.special then
    if base = 8 then [ch '0']
    else if base = 16 then [ch '0', if flags.small then ch 'x' else ch 'X']
    else []
  else []

/-- The digits, `precision` of them at least. -/
def digitText (flags : NumFlags) (base precision v : Nat) : List UInt8 :=
  let digits := numeral (digitChar flags.small) base (magnitude flags v)
  List.replicate (precision - digits.length) (ch '0') ++ digits

/-- The text of a number; zeros fill the field between the sign and the digits. -/
def numberText (flags : NumFlags) (base width precision v : Nat) : List UInt8 :=
  let front := signText flags v ++ baseText flags base
  let digits := digitText flags base precision v
  if flags.zeropad ∧ ¬flags.left then
    front ++ List.replicate (width - (front ++ digits).length) (ch '0') ++ digits
  else padded flags.left width (front ++ digits)

/-! ## Directives -/

/-- The conversions. -/
inductive Conv where
  | char
  | string
  | number (base : Nat) (sign small : Bool)
  | pointer
  | count
  /-- A character that is no conversion, or the end of the format. -/
  | other (c : Option UInt8)
  deriving DecidableEq, Repr

/-- The conversion that a character asks for. -/
def convOf (c : Option UInt8) : Conv :=
  if c = some (ch 'c') then .char
  else if c = some (ch 's') then .string
  else if c = some (ch 'o') then .number 8 false false
  else if c = some (ch 'p') then .pointer
  else if c = some (ch 'x') then .number 16 false true
  else if c = some (ch 'X') then .number 16 false false
  else if c = some (ch 'd') ∨ c = some (ch 'i') then .number 10 true false
  else if c = some (ch 'u') then .number 10 false false
  else if c = some (ch 'b') then .number 2 false false
  else if c = some (ch 'n') then .count
  else .other c

/-- A conversion with what stands before it; `star` when it has a `*`. -/
structure Conversion where
  flags : NumFlags
  width : Option Nat
  precision : Option Nat
  star : Bool
  conv : Conv
  deriving DecidableEq, Repr

inductive Directive where
  | plain (c : UInt8)
  | conversion (d : Conversion)
  deriving DecidableEq, Repr

/-- The number that a text of decimal digits stands for. -/
def decimal (ds : List UInt8) : Nat := numeralValue (fun c => c.toNat - 48) 10 ds

/-- The field width, whether it is a `*`, and the rest. -/
def parseWidth (fmt : List UInt8) : Option Nat × Bool × List UInt8 :=
  match fmt.takeWhile isDigit with
  | [] => (none, fmt.head? = some (ch '*'), fmt)
  | ds => (some (decimal ds), false, fmt.dropWhile isDigit)

/-- The precision, whether it is a `*`, and the rest. -/
def parsePrecision : List UInt8 → Option Nat × Bool × List UInt8
  | [] => (none, false, [])
  | c :: fmt =>
      if c = ch '.' then
        (some (decimal (fmt.takeWhile isDigit)), fmt.head? = some (ch '*'), fmt.dropWhile isDigit)
      else (none, false, c :: fmt)

/-- The conversion behind a `%`, and the rest of the format. -/
def parseConversion (fmt : List UInt8) : Conversion × List UInt8 :=
  let flags := flagLoop .none fmt
  let width := parseWidth flags.2
  let precision := parsePrecision width.2.2
  let rest := skipQualifier precision.2.2
  ({ flags := flags.1, width := width.1, precision := precision.1
     star := width.2.1 || precision.2.1, conv := convOf rest.head? }, rest.tail)

/-- The directives of a format of `n` characters at most. -/
def parse : Nat → List UInt8 → List Directive
  | _, [] => []
  | 0, _ :: _ => []
  | n + 1, c :: fmt =>
      if c ≠ ch '%' then .plain c :: parse n fmt
      else .conversion (parseConversion fmt).1 :: parse n (parseConversion fmt).2

/-- The directives of a format. -/
def directives (fmt : List UInt8) : List Directive := parse fmt.length fmt

/-! ## The text -/

/-- The field for an argument. -/
def Conversion.field (strings : Nat → Option (List UInt8)) (d : Conversion) (a : Nat) :
    Option (List UInt8) :=
  let width := d.width.getD 0
  let precision := d.precision.getD 0
  match d.conv with
  | .char => some (padded d.flags.left width [UInt8.ofNat a])
  | .string => (strings a).map fun text =>
      padded d.flags.left width (text.take (d.precision.getD text.length))
  | .number base sign small =>
      some (numberText { d.flags with sign := sign, small := small } base width precision a)
  | .pointer =>
      let flags := { d.flags with zeropad := d.flags.zeropad || d.width.isNone }
      some (numberText flags 16 (d.width.getD 8) precision a)
  | .count => none
  | .other _ => none

/-- The characters of a conversion that is not known. -/
def otherText (c : Option UInt8) : List UInt8 :=
  if c = some (ch '%') then [ch '%'] else ch '%' :: c.toList

/-- The text of a conversion behind its `*`, and the arguments that it leaves. -/
def Conversion.text (strings : Nat → Option (List UInt8)) (d : Conversion) (args : List Nat) :
    Option (List UInt8 × List Nat) :=
  match d.conv, args with
  | .other c, args => some (otherText c, args)
  | _, [] => none
  | _, a :: args => (d.field strings a).map (·, args)

/-- The text of a directive, and the arguments that it leaves. -/
def Directive.text (strings : Nat → Option (List UInt8)) :
    Directive → List Nat → Option (List UInt8 × List Nat)
  | .plain c, args => some ([c], args)
  | .conversion d, args => do
      let args ← if d.star then args.tail? else some args
      d.text strings args

section Arguments

variable {strings : Nat → Option (List UInt8)} {d : Conversion} {args args' : List Nat}
variable {text : List UInt8}

theorem Conversion.text_other {c : Option UInt8} (other : d.conv = .other c) (args : List Nat) :
    d.text strings args = some (otherText c, args) := by
  unfold Conversion.text
  rw [other]

/-- A conversion is not known, or takes one argument. -/
theorem Conversion.text_cases (stands : d.text strings args = some (text, args')) :
    (∃ c, d.conv = .other c ∧ text = otherText c ∧ args' = args) ∨
      ∃ a, args = a :: args' ∧ d.field strings a = some text := by
  unfold Conversion.text at stands
  split at stands
  · rename_i c other
    cases stands
    exact .inl ⟨c, other, rfl, rfl⟩
  · cases stands
  · obtain ⟨t, field, same⟩ := Option.map_eq_some_iff.mp stands
    cases same
    exact .inr ⟨_, rfl, field⟩

/-- The `*` takes an argument first. -/
theorem Directive.text_cases (stands : (Directive.conversion d).text strings args =
    some (text, args')) :
    (d.star = false ∧ d.text strings args = some (text, args')) ∨
      ∃ a rest, d.star = true ∧ args = a :: rest ∧ d.text strings rest = some (text, args') := by
  dsimp only [Directive.text] at stands
  cases star : d.star with
  | false =>
      rw [star] at stands
      exact .inl ⟨rfl, stands⟩
  | true =>
      rw [star, if_pos rfl] at stands
      cases args with
      | nil => cases stands
      | cons a rest => exact .inr ⟨a, rest, rfl, rfl, stands⟩

/-- The arguments are taken one after the other. -/
theorem Directive.text_suffix {d : Directive} (stands : d.text strings args = some (text, args')) :
    args' <:+ args := by
  have behind {d : Conversion} {args : List Nat} (stands : d.text strings args =
      some (text, args')) : args' <:+ args := by
    obtain ⟨_, -, -, rfl⟩ | ⟨a, rfl, -⟩ := Conversion.text_cases stands
    · exact List.suffix_rfl
    · exact List.suffix_cons a args'
  cases d with
  | plain c =>
      cases stands
      exact List.suffix_rfl
  | conversion d =>
      obtain ⟨-, said⟩ | ⟨a, rest, -, rfl, said⟩ := Directive.text_cases stands
      · exact behind said
      · exact (behind said).trans (List.suffix_cons a rest)

end Arguments

/-- The text of the directives, and the arguments that they leave. -/
def formatted (strings : Nat → Option (List UInt8)) :
    List Directive → List Nat → Option (List UInt8 × List Nat)
  | [], args => some ([], args)
  | d :: ds, args => do
      let (text, args) ← d.text strings args
      let (rest, args) ← formatted strings ds args
      some (text ++ rest, args)

end MiniKernel.Kernel
