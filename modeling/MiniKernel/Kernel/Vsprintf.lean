/-
# Kernel.Vsprintf -- vsprintf.c, and the strings of system.c

`vsprintf` writes where `str` points to, one character after the other, and takes its arguments
from a list of words, one for each `va_arg`.  The format is the list of its characters, without
the null byte; the strings that `%s` prints are read from the memory, which is also the memory
that is written.

An `int` is a Lean integer, brought back into its range after each operation that may leave it
(`wrapInt`).  A loop `while (n-- > 0)` is a repetition, and the value it leaves `n` with.
-/
import MiniKernel.Theory.Program
import MiniKernel.Theory.Text
import MiniKernel.Theory.Word

namespace MiniKernel.Kernel

open Theory

set_option autoImplicit false

/-- A character of the source. -/
def ch (c : Char) : UInt8 := c.toUInt8

/-- The characters of a string literal. -/
def cstr (s : String) : List UInt8 := s.toList.map ch

/-- The value of an `int` operation. -/
def wrapInt (x : Int) : Int := x.bmod 4294967296

/-- The flags to `number`. -/
structure NumFlags where
  /-- `ZEROPAD` -/
  zeropad : Bool
  /-- `SIGN` -/
  sign : Bool
  /-- `PLUS` -/
  plus : Bool
  /-- `SPACE` -/
  space : Bool
  /-- `LEFT` -/
  left : Bool
  /-- `SPECIAL` -/
  special : Bool
  /-- `SMALL` -/
  small : Bool
  deriving DecidableEq, Repr

/-- `flags = 0` -/
def NumFlags.none : NumFlags := ⟨false, false, false, false, false, false, false⟩

/-- The variables of `vsprintf` that its output goes through. -/
structure Sprint where
  mem : Mem
  str : Nat
  args : List Nat

/-- Why a call does not return. -/
inductive SprintStop where
  /-- `va_arg` after the last argument -/
  | noArgument
  /-- `strlen` of a string without a null byte -/
  | noEnd
  | fuel
  deriving DecidableEq, Repr

abbrev SprintM := Program Sprint SprintStop

/-- `*str++ = c` -/
def putChar (c : UInt8) : SprintM Unit :=
  modify fun s => { s with mem := s.mem.setByte s.str c, str := add32 s.str 1 }

/-- `n` times `*str++ = c` -/
def putChars (c : UInt8) : Nat → SprintM Unit
  | 0 => pure ()
  | n + 1 => do
      putChar c
      putChars c n

/-- `va_arg(args, ...)`, a word -/
def vaArg : SprintM Nat := do
  let s ← get
  match s.args with
  | [] => Program.stop .noArgument
  | a :: args => do
      modify fun s => { s with args := args }
      pure a

/-! ## Strings -/

/-- The loop of `strlen`, with `n` bytes of the address space left. -/
def strlenFrom (m : Mem) : Nat → Nat → Option Nat
  | 0, _ => none
  | n + 1, src => if m src = 0 then some 0 else (strlenFrom m n (add32 src 1)).map (· + 1)

/-- `strlen` -/
def strlen (src : Nat) : SprintM Int := do
  let s ← get
  match strlenFrom s.mem 4294967296 src with
  | none => Program.stop .noEnd
  | some len => pure (wrapInt len)

/-- `for (i = 0; i < n; ++i) *str++ = *s++;` -/
def copyChars : Nat → Nat → SprintM Unit
  | 0, _ => pure ()
  | n + 1, s => do
      let K ← get
      putChar (K.mem s)
      copyChars n (add32 s 1)

/-! ## number -/

/-- `is_digit` -/
def isDigit (c : UInt8) : Bool := ch '0' ≤ c && c ≤ ch '9'

/-- `skip_atoi`, from `i` on: the number, and the rest of the string. -/
def skipAtoi (i : Int) : List UInt8 → Int × List UInt8
  | [] => (i, [])
  | c :: s => if isDigit c then skipAtoi (wrapInt (i * 10 + c.toNat - 48)) s else (i, c :: s)

/-- `digits[d]` -/
def digitChar (small : Bool) (d : Nat) : UInt8 :=
  if d < 10 then UInt8.ofNat (48 + d)
  else if small then UInt8.ofNat (97 + (d - 10))
  else UInt8.ofNat (65 + (d - 10))

/-- `while (num!=0) tmp[i++]=digits[do_div(num,base)];`, for at most `n` digits. -/
def digitLoop (small : Bool) (base : Nat) : Nat → Nat → List UInt8
  | 0, _ => []
  | n + 1, num =>
      if num = 0 then [] else digitChar small (num % base) :: digitLoop small base n (num / base)

/-- `while (size-- > 0) *str++ = c;`, and `size` after it. -/
def padLoop (c : UInt8) (size : Int) : SprintM Int := do
  putChars c size.toNat
  pure (wrapInt (min size 0 - 1))

/-- `while (i-- > 0) *str++ = tmp[i];`, on the characters in this order. -/
def putAll : List UInt8 → SprintM Unit
  | [] => pure ()
  | c :: text => do
      putChar c
      putAll text

/-- `if (sign) *str++ = sign;` -/
def putSign (sign : UInt8) : SprintM Unit := if sign ≠ 0 then putChar sign else pure ()

/-- What `number` writes for `SPECIAL`. -/
def putSpecial (type : NumFlags) (base : Nat) : SprintM Unit :=
  if type.special then
    if base = 8 then putChar (ch '0')
    else if base = 16 then do
      putChar (ch '0')
      putChar (digitChar type.small 33)
    else pure ()
  else pure ()

/-- The part of `number` that writes, with `size` characters of the field left. -/
def numberWrite (type : NumFlags) (base : Nat) (sign : UInt8) (size precision : Int)
    (tmp : List UInt8) : SprintM Unit := do
  let c := if type.zeropad then ch '0' else ch ' '
  let size ← if !type.zeropad && !type.left then padLoop (ch ' ') size else pure size
  putSign sign
  putSpecial type base
  let size ← if !type.left then padLoop c size else pure size
  putChars (ch '0') (precision - tmp.length).toNat
  putAll tmp.reverse
  let _ ← padLoop (ch ' ') size

/-- `number(str, num, base, size, precision, type)`.  The null pointer that it returns for a base
it does not know goes to `str`. -/
def number (num base : Nat) (size precision : Int) (type : NumFlags) : SprintM Unit :=
  let type := if type.left then { type with zeropad := false } else type
  if base < 2 ∨ 36 < base then modify fun s => { s with str := 0 }
  else
    let negative := type.sign = true ∧ 2147483648 ≤ num
    let sign :=
      if negative then ch '-' else if type.plus then ch '+' else if type.space then ch ' ' else 0
    let num := if negative then sub32 0 num else num
    let size := if sign ≠ 0 then wrapInt (size - 1) else size
    let size :=
      if type.special then
        if base = 16 then wrapInt (size - 2) else if base = 8 then wrapInt (size - 1) else size
      else size
    let tmp := if num = 0 then [ch '0'] else digitLoop type.small base 32 num
    let precision := max (tmp.length : Int) precision
    numberWrite type base sign (wrapInt (size - precision)) precision tmp

/-! ## vsprintf -/

/-- The flag that a character stands for. -/
def flagOf (c : UInt8) (flags : NumFlags) : Option NumFlags :=
  if c = ch '-' then some { flags with left := true }
  else if c = ch '+' then some { flags with plus := true }
  else if c = ch ' ' then some { flags with space := true }
  else if c = ch '#' then some { flags with special := true }
  else if c = ch '0' then some { flags with zeropad := true }
  else none

/-- The flags, from `repeat` on. -/
def flagLoop (flags : NumFlags) : List UInt8 → NumFlags × List UInt8
  | [] => (flags, [])
  | c :: fmt =>
      match flagOf c flags with
      | some flags => flagLoop flags fmt
      | none => (flags, c :: fmt)

/-- The field width; the `*` is left in the format. -/
def fieldWidth (flags : NumFlags) : List UInt8 → SprintM (Int × NumFlags × List UInt8)
  | [] => pure (-1, flags, [])
  | c :: fmt =>
      if isDigit c then
        let read := skipAtoi 0 (c :: fmt)
        pure (read.1, flags, read.2)
      else if c = ch '*' then do
        let width := int32 (← vaArg)
        if width < 0 then pure (wrapInt (-width), { flags with left := true }, c :: fmt)
        else pure (width, flags, c :: fmt)
      else pure (-1, flags, c :: fmt)

/-- The precision; the `*` is left in the format. -/
def precisionOf : List UInt8 → SprintM (Int × List UInt8)
  | [] => pure (-1, [])
  | c :: fmt =>
      if c = ch '.' then do
        let (precision, fmt) ←
          match fmt with
          | [] => pure ((-1 : Int), [])
          | d :: rest =>
              if isDigit d then pure (skipAtoi 0 (d :: rest))
              else if d = ch '*' then do
                let precision := int32 (← vaArg)
                pure (precision, d :: rest)
              else pure (-1, d :: rest)
        pure (if precision < 0 then 0 else precision, fmt)
      else pure (-1, c :: fmt)

/-- The conversion qualifier, which is not used. -/
def skipQualifier : List UInt8 → List UInt8
  | [] => []
  | c :: fmt => if c = ch 'h' ∨ c = ch 'l' ∨ c = ch 'L' then fmt else c :: fmt

/-- `case 'c'`: the loops are `while (--field_width > 0)`. -/
def convertChar (flags : NumFlags) (fieldWidth : Int) : SprintM Unit := do
  let fieldWidth ←
    if flags.left then pure fieldWidth
    else do
      putChars (ch ' ') (wrapInt (fieldWidth - 1)).toNat
      pure (wrapInt (min fieldWidth 1 - 1))
  putChar (UInt8.ofNat (← vaArg))
  putChars (ch ' ') (wrapInt (fieldWidth - 1)).toNat

/-- `case 's'`: the loops are `while (len < field_width--)`. -/
def convertString (flags : NumFlags) (fieldWidth precision : Int) : SprintM Unit := do
  let s ← vaArg
  let len ← strlen s
  let len := if precision < 0 then len else if precision < len then precision else len
  let fieldWidth ←
    if flags.left then pure fieldWidth
    else do
      putChars (ch ' ') (fieldWidth - len).toNat
      pure (wrapInt (min fieldWidth len - 1))
  copyChars len.toNat s
  putChars (ch ' ') (fieldWidth - len).toNat

/-- The cases of the switch over the conversion. -/
def convertCase (buf : Nat) (flags : NumFlags) (fieldWidth precision : Int) (c : UInt8) :
    SprintM Unit :=
  if c = ch 'c' then convertChar flags fieldWidth
  else if c = ch 's' then convertString flags fieldWidth precision
  else if c = ch 'o' then do number (← vaArg) 8 fieldWidth precision flags
  else if c = ch 'p' then
    if fieldWidth = -1 then do
      number (← vaArg) 16 8 precision { flags with zeropad := true }
    else do number (← vaArg) 16 fieldWidth precision flags
  else if c = ch 'x' then do
    number (← vaArg) 16 fieldWidth precision { flags with small := true }
  else if c = ch 'X' then do number (← vaArg) 16 fieldWidth precision flags
  else if c = ch 'd' ∨ c = ch 'i' then do
    number (← vaArg) 10 fieldWidth precision { flags with sign := true }
  else if c = ch 'u' then do number (← vaArg) 10 fieldWidth precision flags
  else if c = ch 'b' then do number (← vaArg) 2 fieldWidth precision flags
  else if c = ch 'n' then do
    let ip ← vaArg
    modify fun s => { s with mem := s.mem.setWord ip (sub32 s.str buf) }
  else if c = ch '%' then putChar c
  else do
    putChar (ch '%')
    putChar c

/-- The conversion, and what is left of the format behind it. -/
def convert (buf : Nat) (flags : NumFlags) (fieldWidth precision : Int) :
    List UInt8 → SprintM (List UInt8)
  -- the `%` at the end of the format
  | [] => do
      putChar (ch '%')
      pure []
  | c :: fmt => do
      convertCase buf flags fieldWidth precision c
      pure fmt

/-- A turn of the loop from behind a `%`, and what is left of the format. -/
def conversion (buf : Nat) (fmt : List UInt8) : SprintM (List UInt8) := do
  let (flags, fmt) := flagLoop .none fmt
  let (width, flags, fmt) ← fieldWidth flags fmt
  let (precision, fmt) ← precisionOf fmt
  convert buf flags width precision (skipQualifier fmt)

/-- The loop over the format; each turn takes a character of it at least. -/
def vsprintfLoop (buf : Nat) : Nat → List UInt8 → SprintM Unit
  | _, [] => pure ()
  | 0, _ :: _ => Program.stop .fuel
  | n + 1, c :: fmt =>
      if c ≠ ch '%' then do
        putChar c
        vsprintfLoop buf n fmt
      else do
        let fmt ← conversion buf fmt
        vsprintfLoop buf n fmt

/-- `vsprintf(buf, fmt, args)` -/
def vsprintf (buf : Nat) (fmt : List UInt8) : SprintM Nat := do
  modify fun s => { s with str := buf }
  vsprintfLoop buf fmt.length fmt
  let s ← get
  modify fun s => { s with mem := s.mem.setByte s.str 0 }
  pure (sub32 s.str buf)

end MiniKernel.Kernel
