/-
# Kernel.VsprintfWrites -- vsprintf writes what the format says

`s.after text` is the state after `text` has been written.  Each part of `vsprintf` takes `s` to
`s.after text` for the text that `Kernel.FormatText` gives it, from the loops of `number` up to
the loop over the format (`vsprintfLoop_run`).
-/
import MiniKernel.Kernel.FormatText

namespace MiniKernel.Kernel

open Theory Program

set_option autoImplicit false

/-! ## Texts, one after the other -/

/-- The state after `text` has been written. -/
def Sprint.after (s : Sprint) (text : List UInt8) : Sprint :=
  { s with mem := s.mem.put s.str text, str := s.str + text.length }

@[simp] theorem Sprint.after_nil (s : Sprint) : s.after [] = s := rfl

@[simp] theorem Sprint.after_after (s : Sprint) (text rest : List UInt8) :
    (s.after text).after rest = s.after (text ++ rest) := by
  simp only [Sprint.after, Mem.put_append, List.length_append, Nat.add_assoc]

@[simp] theorem Sprint.after_str (s : Sprint) (text : List UInt8) :
    (s.after text).str = s.str + text.length := rfl

/-- Wherever there is room for it, `x` writes `text` and returns `a`. -/
def Puts {α : Type} (x : SprintM α) (a : α) (text : List UInt8) : Prop :=
  ∀ s : Sprint, s.str + text.length < 4294967296 → x s = .ok (a, s.after text)

namespace Puts

variable {α β : Type} {x : SprintM α} {f : α → SprintM β} {a : α} {b : β} {text rest : List UInt8}

theorem pure (a : α) : Puts (Pure.pure a) a [] := fun _ _ => rfl

theorem bind (first : Puts x a text) (second : Puts (f a) b rest) :
    Puts (x >>= f) b (text ++ rest) := by
  intro s room
  rw [List.length_append] at room
  rw [bind_run_ok (first s (by omega)), second _ (by rw [Sprint.after_str]; omega),
    Sprint.after_after]

theorem of_eq (h : Puts x a text) (same : text = rest) : Puts x a rest := same ▸ h

theorem ite {c : Prop} [Decidable c] {y : SprintM α} (yes : Puts x a text) (no : Puts y a rest) :
    Puts (if c then x else y) a (if c then text else rest) := by
  split
  · exact yes
  · exact no

end Puts

theorem puts_putChar (c : UInt8) : Puts (putChar c) () [c] := by
  intro s room
  have next : add32 s.str 1 = s.str + 1 := add32_eq room
  show Except.ok ((), { s with mem := s.mem.setByte s.str c, str := add32 s.str 1 }) = _
  rw [next]
  rfl

theorem puts_putChars (c : UInt8) (n : Nat) : Puts (putChars c n) () (List.replicate n c) := by
  induction n with
  | zero => exact .pure ()
  | succ n ih => exact (puts_putChar c).bind ih

theorem puts_putAll (text : List UInt8) : Puts (putAll text) () text := by
  induction text with
  | nil => exact .pure ()
  | cons c text ih => exact (puts_putChar c).bind ih

theorem puts_padLoop (c : UInt8) (size : Int) :
    Puts (padLoop c size) (wrapInt (min size 0 - 1)) (List.replicate size.toNat c) := by
  refine Puts.of_eq (Puts.bind (puts_putChars c size.toNat) ?_) (List.append_nil _)
  exact .pure _

/-! ## number -/

section Number

variable {s : Sprint} {type : NumFlags} {base num : Nat}

theorem wrapInt_eq {x : Int} (low : -2147483648 ≤ x) (high : x < 2147483648) : wrapInt x = x := by
  unfold wrapInt
  exact Int.bmod_eq_of_le (by omega) (by omega)

theorem digitLoop_eq (small : Bool) (large : 1 < base) (n num : Nat) (fits : num < base ^ n) :
    digitLoop small base n num = (Nat.digits base num).map (digitChar small) := by
  induction n generalizing num with
  | zero =>
      have zero : num = 0 := by simpa using fits
      rw [zero, Nat.digits_zero]
      rfl
  | succ n ih =>
      rw [digitLoop]
      split
      · rename_i zero
        rw [zero, Nat.digits_zero]
        rfl
      · rename_i more
        have rest : num / base < base ^ n :=
          Nat.div_lt_of_lt_mul (by rw [Nat.mul_comm, ← Nat.pow_succ]; exact fits)
        rw [ih _ rest, Nat.digits_def' large (Nat.pos_of_ne_zero more), List.map_cons]

/-- The digits in `tmp`, from the last to the first. -/
theorem tmp_reverse (small : Bool) (large : 1 < base) (word : num < 4294967296) :
    (if num = 0 then [ch '0'] else digitLoop small base 32 num).reverse =
      numeral (digitChar small) base num := by
  have fits : num < base ^ 32 :=
    Nat.lt_of_lt_of_le word (Nat.pow_le_pow_left large 32)
  unfold numeral
  split
  · cases small <;> rfl
  · rw [digitLoop_eq small large 32 num fits]

theorem puts_putSign (sign : UInt8) :
    Puts (putSign sign) () (if sign ≠ 0 then [sign] else []) :=
  .ite (puts_putChar sign) (.pure ())

theorem digitChar_x (small : Bool) : digitChar small 33 = if small then ch 'x' else ch 'X' := by
  cases small <;> rfl

theorem puts_putSpecial (type : NumFlags) (base : Nat) :
    Puts (putSpecial type base) () (baseText type base) := by
  refine .ite (.ite (puts_putChar _) (.ite ?_ (.pure ()))) (.pure ())
  rw [← digitChar_x]
  exact .bind (puts_putChar _) (puts_putChar _)

/-- The parts of a number's text, with `n` characters that fill the field. -/
def laidOut (type : NumFlags) (n : Nat) (front digits : List UInt8) : List UInt8 :=
  if type.left then front ++ digits ++ List.replicate n (ch ' ')
  else if type.zeropad then front ++ List.replicate n (ch '0') ++ digits
  else List.replicate n (ch ' ') ++ (front ++ digits)

theorem puts_numberWrite {sign : UInt8} {size precision : Int} {tmp : List UInt8}
    (exclusive : type.left = true → type.zeropad = false) (low : -2147483600 ≤ size) :
    Puts (numberWrite type base sign size precision tmp) () (laidOut type size.toNat
      ((if sign ≠ 0 then [sign] else []) ++ baseText type base)
      (List.replicate (precision - tmp.length).toNat (ch '0') ++ tmp.reverse)) := by
  -- after a loop over `size`, nothing of it is left for the next one
  have once : wrapInt (min size 0 - 1) = min size 0 - 1 := wrapInt_eq (by omega) (by omega)
  have negative : (wrapInt (min size 0 - 1)).toNat = 0 := by
    rw [once]
    omega
  have negative' : (wrapInt (min (wrapInt (min size 0 - 1)) 0 - 1)).toNat = 0 := by
    rw [once, wrapInt_eq (by omega) (by omega)]
    omega
  unfold numberWrite laidOut
  cases left : type.left with
  | true =>
      simp only [exclusive left, Bool.not_true, Bool.and_false, Bool.false_eq_true, if_false, if_true]
      refine Puts.of_eq (Puts.bind (.pure _) (.bind (puts_putSign sign) (.bind
        (puts_putSpecial type base) (.bind (.pure _) (.bind (puts_putChars _ _) (.bind
          (puts_putAll _) (.bind (puts_padLoop _ _) (.pure ())))))))) ?_
      simp
  | false =>
      cases zeropad : type.zeropad with
      | true =>
          simp only [Bool.not_false, Bool.not_true, Bool.false_and, Bool.false_eq_true, if_false,
            if_true]
          refine Puts.of_eq (Puts.bind (.pure _) (.bind (puts_putSign sign) (.bind
            (puts_putSpecial type base) (.bind (puts_padLoop _ _) (.bind (puts_putChars _ _) (.bind
              (puts_putAll _) (.bind (puts_padLoop _ _) (.pure ())))))))) ?_
          simp [negative]
      | false =>
          simp only [Bool.not_false, Bool.and_true, Bool.false_eq_true, if_false, if_true]
          refine Puts.of_eq (Puts.bind (puts_padLoop _ _) (.bind (puts_putSign sign) (.bind
            (puts_putSpecial type base) (.bind (puts_padLoop _ _) (.bind (puts_putChars _ _) (.bind
              (puts_putAll _) (.bind (puts_padLoop _ _) (.pure ())))))))) ?_
          simp [negative, negative']

/-- The lengths of the parts. -/
theorem length_digitText (type : NumFlags) (base precision v : Nat) :
    (digitText type base precision v).length =
      max precision (numeral (digitChar type.small) base (magnitude type v)).length := by
  unfold digitText
  rw [List.length_append, List.length_replicate]
  omega

theorem length_numberText (type : NumFlags) (base width precision v : Nat) :
    (numberText type base width precision v).length =
      max width ((signText type v).length + (baseText type base).length +
        (digitText type base precision v).length) := by
  unfold numberText
  split
  · simp only [List.length_append, List.length_replicate]
    omega
  · rw [length_padded, List.length_append, List.length_append]

theorem numberText_eq (type : NumFlags) (exclusive : type.left = true → type.zeropad = false)
    (base width precision v : Nat) :
    numberText type base width precision v = laidOut type
      (width - (signText type v ++ baseText type base ++ digitText type base precision v).length)
      (signText type v ++ baseText type base) (digitText type base precision v) := by
  unfold numberText laidOut padded
  cases left : type.left with
  | true => simp [exclusive left]
  | false => cases zeropad : type.zeropad <;> simp

/-- `LEFT` takes `ZEROPAD` away. -/
def NumFlags.norm (type : NumFlags) : NumFlags :=
  if type.left then { type with zeropad := false } else type

theorem NumFlags.norm_exclusive (type : NumFlags) :
    type.norm.left = true → type.norm.zeropad = false := by
  unfold norm
  cases left : type.left with
  | true => exact fun _ => rfl
  | false =>
      intro left'
      rw [if_neg (by decide), left] at left'
      cases left'

theorem numberText_norm (type : NumFlags) (base width precision v : Nat) :
    numberText type.norm base width precision v = numberText type base width precision v := by
  obtain ⟨zeropad, sign, plus, space, left, special, small⟩ := type
  cases left with
  | true =>
      rw [NumFlags.norm, if_pos rfl, numberText, numberText, if_neg (by simp), if_neg (by simp)]
      rfl
  | false => rfl

theorem magnitude_lt {type : NumFlags} (word : num < 4294967296) :
    magnitude type num < 4294967296 := by
  unfold magnitude
  by_cases negative : Negative type num
  · have large := negative.2
    rw [if_pos negative]
    omega
  · rw [if_neg negative]
    exact word

theorem number_norm (num base : Nat) (size precision : Int) (type : NumFlags) :
    number num base size precision type.norm = number num base size precision type := by
  unfold NumFlags.norm
  cases left : type.left with
  | true => simp [number, left]
  | false => rfl

theorem length_signText_le (type : NumFlags) (v : Nat) : (signText type v).length ≤ 1 := by
  unfold signText
  split_ifs <;> decide

theorem length_baseText_le (type : NumFlags) (base : Nat) : (baseText type base).length ≤ 2 := by
  unfold baseText
  split_ifs <;> decide

/-- `num` after the sign is taken off. -/
theorem abs_eq (type : NumFlags) (word : num < 4294967296) :
    (if type.sign = true ∧ 2147483648 ≤ num then sub32 0 num else num) = magnitude type num := by
  unfold magnitude
  by_cases negative : Negative type num
  · have both : type.sign = true ∧ 2147483648 ≤ num := negative
    rw [if_pos both, if_pos negative, sub32]
    omega
  · have neither : ¬(type.sign = true ∧ 2147483648 ≤ num) := negative
    rw [if_neg neither, if_neg negative]

/-- The variable `sign` of `number`. -/
def signChar (type : NumFlags) (num : Nat) : UInt8 :=
  if type.sign = true ∧ 2147483648 ≤ num then ch '-'
  else if type.plus then ch '+' else if type.space then ch ' ' else 0

theorem signChar_text (type : NumFlags) (num : Nat) :
    (if signChar type num ≠ 0 then [signChar type num] else []) = signText type num := by
  unfold signChar signText
  by_cases negative : Negative type num
  · have both : type.sign = true ∧ 2147483648 ≤ num := negative
    rw [if_pos both, if_pos negative]
    rfl
  · have neither : ¬(type.sign = true ∧ 2147483648 ≤ num) := negative
    rw [if_neg neither, if_neg negative]
    cases type.plus <;> cases type.space <;> rfl

/-- `size` without the sign. -/
theorem size_sign (type : NumFlags) (num : Nat) {size : Int} (low : -1 ≤ size)
    (high : size < 2147483648) :
    (if signChar type num ≠ 0 then wrapInt (size - 1) else size) =
      size - (signText type num).length := by
  rw [← signChar_text]
  split
  · rw [wrapInt_eq (by omega) (by omega)]
    rfl
  · simp

/-- `size` without the base. -/
theorem size_base (type : NumFlags) (base : Nat) {size : Int} (low : -2 ≤ size)
    (high : size < 2147483648) :
    (if type.special = true then
      if base = 16 then wrapInt (size - 2) else if base = 8 then wrapInt (size - 1) else size
    else size) = size - (baseText type base).length := by
  unfold baseText
  split
  · split
    · rename_i hex
      rw [wrapInt_eq (by omega) (by omega), hex]
      rfl
    · split
      · rw [wrapInt_eq (by omega) (by omega)]
        rfl
      · simp
  · simp

/-- What is left of the field. -/
theorem size_room {width precision sign front digits : Nat} {size prec : Int}
    (size_eq : size = width ∨ size = -1 ∧ width = 0)
    (prec_eq : prec = precision ∨ prec = -1 ∧ precision = 0) (one : sign ≤ 1) (two : front ≤ 2)
    (short : max width (sign + front + max precision digits) < 2147483000) :
    wrapInt (size - sign - front - max (digits : Int) prec) =
        size - sign - front - max (digits : Int) prec ∧
      (size - sign - front - max (digits : Int) prec).toNat =
        width - (sign + front + max precision digits) ∧
      (max (digits : Int) prec - digits).toNat = precision - digits := by
  refine ⟨wrapInt_eq (by omega) (by omega), by omega, by omega⟩

/-- `number` up to its writing part. -/
theorem number_eq (exclusive : type.left = true → type.zeropad = false) (large : 2 ≤ base)
    (known : base ≤ 36) (word : num < 4294967296) {size prec : Int} (low : -1 ≤ size)
    (high : size < 2147483648) :
    ∃ tmp : List UInt8,
      tmp.reverse = numeral (digitChar type.small) base (magnitude type num) ∧
      number num base size prec type = numberWrite type base (signChar type num)
        (wrapInt (size - (signText type num).length - (baseText type base).length -
          max (tmp.length : Int) prec)) (max (tmp.length : Int) prec) tmp := by
  have normal : (if type.left = true then { type with zeropad := false } else type) = type := by
    split
    · rename_i left
      rw [← exclusive left]
    · rfl
  have sign := length_signText_le type num
  refine ⟨_, tmp_reverse type.small large (magnitude_lt word), ?_⟩
  unfold number
  rw [normal, if_neg (by omega : ¬(base < 2 ∨ 36 < base))]
  dsimp only
  rw [abs_eq type word, ← size_base type base (by omega) (by omega), ← size_sign type num low high]
  rfl

/-- `number` writes the text of the number. -/
theorem puts_number {width precision : Nat} {size prec : Int} (large : 2 ≤ base) (known : base ≤ 36)
    (word : num < 4294967296) (size_eq : size = width ∨ size = -1 ∧ width = 0)
    (prec_eq : prec = precision ∨ prec = -1 ∧ precision = 0)
    (short : (numberText type base width precision num).length < 2147483000) :
    Puts (number num base size prec type) () (numberText type base width precision num) := by
  rw [← number_norm, ← numberText_norm] at *
  have exclusive := type.norm_exclusive
  generalize type.norm = type at *
  rw [length_numberText, length_digitText] at short
  obtain ⟨tmp, reversed, eq⟩ : ∃ tmp : List UInt8, _ ∧ number num base size prec type = _ :=
    number_eq exclusive large known word (by omega) (by omega)
  have length : tmp.length = (numeral (digitChar type.small) base (magnitude type num)).length := by
    rw [← reversed, List.length_reverse]
  rw [← length] at short
  obtain ⟨exact_, room, zeros⟩ := size_room size_eq prec_eq (length_signText_le type num)
    (length_baseText_le type base) short
  have written : Puts (numberWrite type base (signChar type num) _ (max (tmp.length : Int) prec)
      tmp) () _ := puts_numberWrite exclusive
    (show -2147483600 ≤ wrapInt (size - (signText type num).length - (baseText type base).length -
      max (tmp.length : Int) prec) by rw [exact_]; omega)
  rw [eq]
  refine written.of_eq ?_
  rw [numberText_eq type exclusive, exact_, room, zeros, signChar_text, reversed]
  rw [List.length_append, List.length_append, length_digitText, ← length]
  rw [digitText, ← length]

end Number

end MiniKernel.Kernel
