/-
# Kernel.VsprintfRun -- vsprintf agrees with the text of its directives

The strings that `%s` prints are a table `strings` from pointers to texts, and lie apart from the
part of the memory that `vsprintf` writes (`Ready`).  `Prints` follows a part of `vsprintf` through
its arguments and its output: the conversions, the loop over the format, and then the call
(`vsprintf_writes`).
-/
import MiniKernel.Kernel.VsprintfWrites

namespace MiniKernel.Kernel

open Theory Program

set_option autoImplicit false

/-- The state with other arguments. -/
def Sprint.took (s : Sprint) (args : List Nat) : Sprint := { s with args := args }

/-- The strings of the table are in memory, apart from `[lo, hi)`, and the next character goes to
`lo` or behind it. -/
structure Ready (strings : Nat → Option (List UInt8)) (lo hi : Nat) (s : Sprint) : Prop where
  low : lo ≤ s.str
  there : ∀ p text, strings p = some text → s.mem.CString p text
  apart : ∀ p text, strings p = some text → p + text.length < lo ∨ hi ≤ p
  inside : ∀ p text, strings p = some text → p + text.length < 4294967296
  short : ∀ p text, strings p = some text → text.length < 2147483648

section Prints

variable {strings : Nat → Option (List UInt8)} {lo hi : Nat} {s : Sprint}
variable {args args' args'' : List Nat} {text rest : List UInt8}

theorem Ready.after (h : Ready strings lo hi s) (room : s.str + text.length < hi) :
    Ready strings lo hi (s.after text) where
  low := Nat.le_trans h.low (Nat.le_add_right _ _)
  there p t entry := by
    have low := h.low
    have apart := h.apart p t entry
    refine (h.there p t entry).congr fun b h1 h2 => Mem.put_apply_of_apart ?_
    omega
  apart := h.apart
  inside := h.inside
  short := h.short

theorem Ready.took (h : Ready strings lo hi s) (args : List Nat) :
    Ready strings lo hi (s.took args) where
  low := h.low
  there := h.there
  apart := h.apart
  inside := h.inside
  short := h.short

/-- `x` takes `args` to `args'`, writes `text` and returns `a`. -/
def Prints {α : Type} (strings : Nat → Option (List UInt8)) (lo hi : Nat) (x : SprintM α)
    (args : List Nat) (a : α) (args' : List Nat) (text : List UInt8) : Prop :=
  ∀ s : Sprint, s.args = args → Ready strings lo hi s → s.str + text.length < hi →
    x s = .ok (a, (s.took args').after text)

namespace Prints

variable {α β : Type} {x : SprintM α} {f : α → SprintM β} {a : α} {b : β}

theorem of_puts (h : Puts x a text) (top : hi ≤ 4294967296) (args : List Nat) :
    Prints strings lo hi x args a args text := by
  rintro s rfl - room
  exact h s (by omega)

theorem pure (a : α) (args : List Nat) :
    Prints strings lo hi (Pure.pure a) args a args [] := by
  rintro s rfl - -
  rfl

theorem bind (first : Prints strings lo hi x args a args' text)
    (second : Prints strings lo hi (f a) args' b args'' rest) :
    Prints strings lo hi (x >>= f) args b args'' (text ++ rest) := by
  intro s taken ready room
  rw [List.length_append] at room
  rw [bind_run_ok (first s taken ready (by omega)), second ((s.took args').after text) rfl
    ((ready.took args').after (by show s.str + _ < _; omega))
    (by show s.str + text.length + _ < _; omega)]
  show Except.ok (b, (Sprint.after ((s.took args'').after text) rest)) = _
  rw [Sprint.after_after]

theorem of_eq (h : Prints strings lo hi x args a args' text) (same : text = rest) :
    Prints strings lo hi x args a args' rest := same ▸ h

end Prints

theorem prints_vaArg (a : Nat) (args : List Nat) :
    Prints strings lo hi vaArg (a :: args) a args [] := by
  intro s taken _ _
  unfold vaArg
  refine (get_bind_run _ s).trans ?_
  rw [taken]
  rfl

/-! ## Strings -/

theorem strlenFrom_eq {m : Mem} {p n : Nat} (string : m.CString p text)
    (inside : p + text.length < 4294967296) (enough : text.length < n) :
    strlenFrom m n p = some text.length := by
  induction text generalizing p n with
  | nil =>
      obtain ⟨n, rfl⟩ := Nat.exists_eq_succ_of_ne_zero (by omega : n ≠ 0)
      have ends : m p = 0 := string.ends
      rw [strlenFrom, if_pos ends]
      rfl
  | cons c text ih =>
      obtain ⟨n, rfl⟩ := Nat.exists_eq_succ_of_ne_zero (by omega : n ≠ 0)
      rw [List.length_cons] at inside enough
      have first : m p = c := (Mem.holds_cons.mp string.holds).1
      have more : m p ≠ 0 := by
        rw [first]
        exact string.nonzero c List.mem_cons_self
      rw [strlenFrom, if_neg more, add32_eq (by omega),
        ih string.tail (by omega) (by omega)]
      rfl

theorem prints_strlen {p : Nat} (entry : strings p = some text) (args : List Nat) :
    Prints strings lo hi (strlen p) args (text.length : Int) args [] := by
  rintro s rfl ready -
  have short := ready.short p text entry
  have length := strlenFrom_eq (ready.there p text entry) (ready.inside p text entry)
    (by omega : text.length < 4294967296)
  unfold strlen
  refine (get_bind_run _ s).trans ?_
  rw [length]
  show Except.ok (wrapInt text.length, s) = _
  rw [wrapInt_eq (by omega) (by omega)]
  rfl

/-- The string is copied while it is read. -/
theorem copyChars_run {q : Nat} (holds : s.mem.Holds q text)
    (apart : q + text.length ≤ lo ∨ hi ≤ q) (inside : q + text.length < 4294967296)
    (low : lo ≤ s.str) (room : s.str + text.length < hi) (top : hi ≤ 4294967296) :
    copyChars text.length q s = .ok ((), s.after text) := by
  induction text generalizing q s with
  | nil => rfl
  | cons c text ih =>
      rw [List.length_cons] at apart inside room
      obtain ⟨first, later⟩ := Mem.holds_cons.mp holds
      rw [List.length_cons, copyChars]
      refine (get_bind_run _ s).trans ?_
      rw [first, bind_run_ok (puts_putChar c s (by rw [List.length_singleton]; omega)),
        add32_eq (by omega), ih (s := s.after [c]) (later.congr fun b h1 h2 =>
          Mem.put_apply_of_apart (by rw [List.length_singleton]; omega)) (by omega) (by omega)
          (by rw [Sprint.after_str]; omega)
          (by rw [Sprint.after_str, List.length_singleton]; omega), Sprint.after_after]
      rfl

theorem prints_copyChars {p n : Nat} (entry : strings p = some text) (le : n ≤ text.length)
    (top : hi ≤ 4294967296) (args : List Nat) :
    Prints strings lo hi (copyChars n p) args () args (text.take n) := by
  rintro s rfl ready room
  have length : (text.take n).length = n := by
    rw [List.length_take]
    omega
  have apart := ready.apart p text entry
  have inside := ready.inside p text entry
  have holds : s.mem.Holds p (text.take n) := fun i small => by
    rw [List.getElem_take]
    exact (ready.there p text entry).holds i (by omega)
  have copied := copyChars_run holds (by omega) (by omega) ready.low room top
  rw [length] at copied
  exact copied

/-! ## Conversions -/

theorem prints_convertChar {flags : NumFlags} {width : Nat} {size : Int}
    (size_eq : size = width ∨ size = -1 ∧ width = 0) (short : width < 2147483000)
    (top : hi ≤ 4294967296) (a : Nat) (args : List Nat) :
    Prints strings lo hi (convertChar flags size) (a :: args) () args
      (padded flags.left width [UInt8.ofNat a]) := by
  have before : wrapInt (size - 1) = size - 1 := wrapInt_eq (by omega) (by omega)
  have behind : (wrapInt (wrapInt (min size 1 - 1) - 1)).toNat = 0 := by
    rw [wrapInt_eq (x := min size 1 - 1) (by omega) (by omega), wrapInt_eq (by omega) (by omega)]
    omega
  have room : (size - 1).toNat = width - [UInt8.ofNat a].length := by
    rw [List.length_singleton]
    omega
  unfold convertChar padded
  cases flags.left with
  | true =>
      simp only [if_true]
      refine (Prints.bind (.pure _ _) (.bind (prints_vaArg a args) (.bind
        (.of_puts (puts_putChar _) top _) (.of_puts (puts_putChars _ _) top _)))).of_eq ?_
      rw [before, room]
      rfl
  | false =>
      simp only [Bool.false_eq_true, if_false]
      refine Prints.of_eq (.bind (.of_puts (puts_putChars _ _) top _) (.bind (.pure _ _) (.bind
        (prints_vaArg a args) (.bind (.of_puts (puts_putChar _) top _)
          (.of_puts (puts_putChars _ _) top _))))) ?_
      rw [before, behind, room]
      simp

theorem prints_convertString {flags : NumFlags} {width : Nat} {precision : Option Nat}
    {size prec : Int} {p : Nat} (entry : strings p = some text)
    (size_eq : size = width ∨ size = -1 ∧ width = 0) (short : width < 2147483000)
    (prec_eq : prec = precision.elim (-1) fun n => (n : Int)) (length : text.length < 2147483648)
    (top : hi ≤ 4294967296) (args : List Nat) :
    Prints strings lo hi (convertString flags size prec) (p :: args) () args
      (padded flags.left width (text.take (precision.getD text.length))) := by
  -- `len` is the number of characters that are printed
  have len : (if prec < 0 then (text.length : Int)
      else if prec < text.length then prec else text.length) =
      (min (precision.getD text.length) text.length : Nat) := by
    cases precision with
    | none => simp [prec_eq]
    | some n =>
        simp only [prec_eq, Option.elim_some, Option.getD_some]
        split_ifs <;> omega
  have taken : (text.take (precision.getD text.length)).length =
      min (precision.getD text.length) text.length := List.length_take
  generalize count : min (precision.getD text.length) text.length = n at *
  have le : n ≤ text.length := by omega
  have start : text.take (precision.getD text.length) = text.take n := by
    rw [← count, List.take_eq_take_iff]
    omega
  rw [start] at taken ⊢
  have copied : Prints strings lo hi _ _ _ _ _ := prints_copyChars entry le top args
  have behind : (wrapInt (min size n - 1) - n).toNat = 0 := by
    rw [wrapInt_eq (by omega) (by omega)]
    omega
  have room : (size - n).toNat = width - n := by omega
  unfold convertString padded
  cases flags.left with
  | true =>
      simp only [if_true]
      refine (Prints.bind (prints_vaArg p args) (.bind (prints_strlen entry args) ?_)).of_eq
        (List.nil_append _)
      simp only [len, Int.toNat_natCast]
      refine (Prints.bind (.pure _ _) (.bind copied (.of_puts (puts_putChars _ _) top _))).of_eq ?_
      rw [room, taken]
      rfl
  | false =>
      simp only [Bool.false_eq_true, if_false]
      refine (Prints.bind (prints_vaArg p args) (.bind (prints_strlen entry args) ?_)).of_eq
        (List.nil_append _)
      simp only [len, Int.toNat_natCast]
      refine Prints.of_eq (.bind (.of_puts (puts_putChars _ _) top _) (.bind (.pure _ _) (.bind
        copied (.of_puts (puts_putChars _ _) top _)))) ?_
      rw [behind, room, taken]
      simp

theorem prints_number {type : NumFlags} {base width precision : Nat} {size prec : Int} {a : Nat}
    (large : 2 ≤ base) (known : base ≤ 36) (word : a < 4294967296)
    (size_eq : size = width ∨ size = -1 ∧ width = 0)
    (prec_eq : prec = precision ∨ prec = -1 ∧ precision = 0)
    (short : (numberText type base width precision a).length < 2147483000)
    (top : hi ≤ 4294967296) (args : List Nat) :
    Prints strings lo hi (do number (← vaArg) base size prec type) (a :: args) () args
      (numberText type base width precision a) :=
  .bind (prints_vaArg a args)
    (.of_puts (puts_number large known word size_eq prec_eq short) top args)

/-- The switch of `convert`, by the conversion. -/
def convertAs (buf : Nat) (flags : NumFlags) (size prec : Int) : Conv → SprintM Unit
  | .char => convertChar flags size
  | .string => convertString flags size prec
  | .number base sign small => do
      number (← vaArg) base size prec { flags with sign := sign, small := small }
  | .pointer =>
      if size = -1 then do number (← vaArg) 16 8 prec { flags with zeropad := true }
      else do number (← vaArg) 16 size prec flags
  | .count => do
      let ip ← vaArg
      modify fun s => { s with mem := s.mem.setWord ip (sub32 s.str buf) }
  | .other c => putAll (otherText c)

/-- The flags that a format sets; the conversion sets the others. -/
structure NumFlags.Plain (flags : NumFlags) : Prop where
  sign : flags.sign = false
  small : flags.small = false

theorem flagLoop_plain {flags : NumFlags} (plain : flags.Plain) (fmt : List UInt8) :
    (flagLoop flags fmt).1.Plain := by
  induction fmt generalizing flags with
  | nil => exact plain
  | cons c fmt ih =>
      rw [flagLoop]
      split
      · rename_i next found
        refine ih ?_
        unfold flagOf at found
        split_ifs at found <;> cases found <;> exact ⟨plain.sign, plain.small⟩
      · exact plain

theorem putAll_otherText (c : UInt8) :
    putAll (otherText (some c)) =
      if c = ch '%' then putChar c else putChar (ch '%') >>= fun _ => putChar c := by
  unfold otherText
  simp only [Option.some.injEq]
  split
  · rename_i percent
    rw [percent]
    rfl
  · rfl

theorem convertCase_eq {flags : NumFlags} (plain : flags.Plain) (buf : Nat) (size prec : Int)
    (c : UInt8) :
    convertCase buf flags size prec c = convertAs buf flags size prec (convOf (some c)) := by
  obtain ⟨zeropad, sign, plus, space, left, special, small⟩ := flags
  obtain ⟨rfl, rfl⟩ := plain
  unfold convertCase convOf
  simp only [Option.some.injEq, apply_ite (convertAs buf _ size prec)]
  simp only [convertAs, putAll_otherText]

theorem convOf_base {c : Option UInt8} {base : Nat} {sign small : Bool}
    (number : convOf c = .number base sign small) : 2 ≤ base ∧ base ≤ 36 := by
  unfold convOf at number
  split_ifs at number <;> cases number <;> decide

/-- The variable for a width or a precision. -/
def asInt (n : Option Nat) : Int := n.elim (-1) fun n => (n : Int)

theorem asInt_eq (n : Option Nat) :
    asInt n = (n.getD 0 : Nat) ∨ asInt n = -1 ∧ n.getD 0 = 0 := by
  cases n with
  | none => exact .inr ⟨rfl, rfl⟩
  | some n => exact .inl rfl

theorem prints_field {d : Conversion} {a : Nat} (buf : Nat)
    (field : d.field strings a = some text)
    (known : ∀ base sign small, d.conv = .number base sign small → 2 ≤ base ∧ base ≤ 36)
    (word : a < 4294967296) (short : text.length < 2147483000)
    (strings_short : ∀ p t, strings p = some t → t.length < 2147483648) (top : hi ≤ 4294967296)
    (args : List Nat) :
    Prints strings lo hi (convertAs buf d.flags (asInt d.width) (asInt d.precision) d.conv)
      (a :: args) () args text := by
  obtain ⟨flags, width, precision, star, conv⟩ := d
  cases conv with
  | char =>
      cases field
      rw [length_padded] at short
      exact prints_convertChar (asInt_eq width)
        (Nat.lt_of_le_of_lt (Nat.le_max_left _ _) short) top a args
  | string =>
      obtain ⟨t, entry, rfl⟩ := Option.map_eq_some_iff.mp field
      rw [length_padded] at short
      exact prints_convertString entry (asInt_eq width)
        (Nat.lt_of_le_of_lt (Nat.le_max_left _ _) short) rfl (strings_short a t entry) top args
  | number base sign small =>
      cases field
      obtain ⟨large, most⟩ := known base sign small rfl
      exact prints_number large most word (asInt_eq width) (asInt_eq precision) short top args
  | pointer =>
      cases field
      cases width with
      | none =>
          rw [Option.isNone_none, Bool.or_true] at short ⊢
          exact prints_number (by omega) (by omega) word (.inl rfl) (asInt_eq precision) short top
            args
      | some w =>
          rw [Option.isNone_some, Bool.or_false] at short ⊢
          have given : asInt (some w) ≠ -1 := by
            unfold asInt
            rw [Option.elim_some]
            omega
          dsimp only [convertAs]
          rw [if_neg given]
          exact prints_number (by omega) (by omega) word (.inl rfl) (asInt_eq precision) short top
            args
  | count => cases field
  | other c => cases field

/-! ## What stands before the conversion -/

/-- `skip_atoi` reads a decimal number that an `int` can hold. -/
theorem skipAtoi_eq (n : Nat) (s : List UInt8)
    (small : (s.takeWhile isDigit).foldl (fun n c => n * 10 + (c.toNat - 48)) n < 2147483648) :
    skipAtoi n s =
      (Int.ofNat ((s.takeWhile isDigit).foldl (fun n c => n * 10 + (c.toNat - 48)) n),
        s.dropWhile isDigit) := by
  induction s generalizing n with
  | nil => rfl
  | cons c s ih =>
      cases digit : isDigit c with
      | false =>
          rw [skipAtoi, digit, List.takeWhile_cons_of_neg (by rw [digit]; decide),
            List.dropWhile_cons_of_neg (by rw [digit]; decide)]
          rfl
      | true =>
          rw [List.takeWhile_cons_of_pos digit, List.foldl_cons] at small ⊢
          have least : 48 ≤ c.toNat := by
            unfold isDigit at digit
            have low := (Bool.and_eq_true_iff.mp digit).1
            exact of_decide_eq_true low
          have next : n * 10 + (c.toNat - 48) < 2147483648 := by
            refine Nat.lt_of_le_of_lt ?_ small
            rw [foldl_numeralValue]
            exact Nat.le_trans (Nat.le_mul_of_pos_right _ (Nat.pow_pos (by decide)))
              (Nat.le_add_right _ _)
          have value : wrapInt (n * 10 + c.toNat - 48) = (n * 10 + (c.toNat - 48) : Nat) := by
            rw [wrapInt_eq (by omega) (by omega)]
            omega
          rw [skipAtoi, if_pos digit, value, ih _ small, List.dropWhile_cons_of_pos digit]

theorem skipAtoi_decimal {s : List UInt8} (small : decimal (s.takeWhile isDigit) < 2147483648) :
    skipAtoi 0 s = (Int.ofNat (decimal (s.takeWhile isDigit)), s.dropWhile isDigit) :=
  skipAtoi_eq 0 s small

theorem takeWhile_head {c : UInt8} (digit : isDigit c = false) (fmt : List UInt8) :
    (c :: fmt).takeWhile isDigit = [] :=
  List.takeWhile_cons_of_neg (by rw [digit]; decide)

theorem parseWidth_digit {c : UInt8} (digit : isDigit c = true) (fmt : List UInt8) :
    parseWidth (c :: fmt) =
      (some (decimal ((c :: fmt).takeWhile isDigit)), false, (c :: fmt).dropWhile isDigit) := by
  unfold parseWidth
  rw [List.takeWhile_cons_of_pos digit]

theorem parseWidth_other {c : UInt8} (digit : isDigit c = false) (fmt : List UInt8) :
    parseWidth (c :: fmt) = (none, decide (c = ch '*'), c :: fmt) := by
  unfold parseWidth
  rw [takeWhile_head digit, List.head?_cons]
  simp only [Option.some.injEq]

/-- A width that is not a `*`. -/
theorem prints_fieldWidth (flags : NumFlags) {fmt : List UInt8}
    (literal : (parseWidth fmt).2.1 = false) (fits : (parseWidth fmt).1.getD 0 < 2147483648)
    (args : List Nat) :
    Prints strings lo hi (fieldWidth flags fmt) args
      (asInt (parseWidth fmt).1, flags, (parseWidth fmt).2.2) args [] := by
  cases fmt with
  | nil => exact .pure _ _
  | cons c fmt =>
      cases digit : isDigit c with
      | true =>
          rw [parseWidth_digit digit] at fits ⊢
          rw [fieldWidth, if_pos digit]
          dsimp only
          rw [skipAtoi_decimal fits]
          exact .pure _ _
      | false =>
          rw [parseWidth_other digit] at literal ⊢
          rw [fieldWidth, digit, if_neg (by decide), if_neg (of_decide_eq_false literal)]
          exact .pure _ _

/-- The `*` stays where it is. -/
theorem prints_fieldWidth_star {flags : NumFlags} (plain : flags.Plain) {fmt : List UInt8}
    (star : (parseWidth fmt).2.1 = true) (a : Nat) (args : List Nat) :
    ∃ size flags', (parseWidth fmt).2.2 = fmt ∧ fmt.head? = some (ch '*') ∧
      NumFlags.Plain flags' ∧
      Prints strings lo hi (fieldWidth flags fmt) (a :: args) (size, flags', fmt) args [] := by
  cases fmt with
  | nil => cases star
  | cons c fmt =>
      cases digit : isDigit c with
      | true =>
          rw [parseWidth_digit digit] at star
          cases star
      | false =>
          rw [parseWidth_other digit] at star ⊢
          have is : c = ch '*' := of_decide_eq_true star
          rw [fieldWidth, digit, if_neg (by decide), if_pos is, is]
          by_cases negative : int32 a < 0
          · refine ⟨wrapInt (-int32 a), { flags with left := true }, rfl, rfl,
              ⟨plain.sign, plain.small⟩, .bind (prints_vaArg a args) ?_⟩
            rw [if_pos negative]
            exact .pure _ _
          · refine ⟨int32 a, flags, rfl, rfl, plain, .bind (prints_vaArg a args) ?_⟩
            rw [if_neg negative]
            exact .pure _ _

/-- A precision that is not a `*`. -/
theorem prints_precisionOf {fmt : List UInt8} (literal : (parsePrecision fmt).2.1 = false)
    (fits : (parsePrecision fmt).1.getD 0 < 2147483648) (args : List Nat) :
    Prints strings lo hi (precisionOf fmt) args
      (asInt (parsePrecision fmt).1, (parsePrecision fmt).2.2) args [] := by
  cases fmt with
  | nil => exact .pure _ _
  | cons c fmt =>
      unfold parsePrecision at literal fits ⊢
      unfold precisionOf
      dsimp only at literal fits ⊢
      by_cases dot : c = ch '.'
      · rw [if_pos dot] at literal fits ⊢
        rw [if_pos dot]
        cases fmt with
        | nil => exact .bind (.pure _ _) (.pure _ _)
        | cons d fmt =>
            cases digit : isDigit d with
            | true =>
                dsimp only
                rw [if_pos digit, skipAtoi_decimal fits]
                exact .bind (.pure _ _) (.pure _ _)
            | false =>
                have other : d ≠ ch '*' := fun is => by
                  rw [is] at literal
                  cases literal
                dsimp only
                rw [digit, if_neg (by decide), if_neg other, takeWhile_head digit,
                  List.dropWhile_cons_of_neg (by rw [digit]; decide)]
                exact .bind (.pure _ _) (.pure _ _)
      · rw [if_neg dot] at literal fits ⊢
        rw [if_neg dot]
        exact .pure _ _

theorem prints_precisionOf_star {fmt : List UInt8} (star : (parsePrecision fmt).2.1 = true)
    (a : Nat) (args : List Nat) :
    ∃ prec, (parsePrecision fmt).2.2.head? = some (ch '*') ∧
      Prints strings lo hi (precisionOf fmt) (a :: args) (prec, (parsePrecision fmt).2.2) args
        [] := by
  cases fmt with
  | nil => cases star
  | cons c fmt =>
      unfold parsePrecision at star ⊢
      unfold precisionOf
      dsimp only at star ⊢
      by_cases dot : c = ch '.'
      · rw [if_pos dot] at star ⊢
        rw [if_pos dot]
        cases fmt with
        | nil => cases star
        | cons d fmt =>
            have is : d = ch '*' := Option.some.inj (of_decide_eq_true star)
            subst is
            exact ⟨_, rfl, .bind (prints_vaArg a args) (.bind (.pure _ _) (.pure _ _))⟩
      · rw [if_neg dot] at star
        cases star

theorem convOf_other {c c' : Option UInt8} (other : convOf c = .other c') : c' = c := by
  unfold convOf at other
  split_ifs at other
  cases other
  rfl

theorem prints_convert_other {flags : NumFlags} (plain : flags.Plain) (buf : Nat) (size prec : Int)
    {fmt : List UInt8} {c : Option UInt8} (other : convOf fmt.head? = .other c)
    (top : hi ≤ 4294967296) (args : List Nat) :
    Prints strings lo hi (convert buf flags size prec fmt) args fmt.tail args (otherText c) := by
  obtain rfl := convOf_other other
  cases fmt with
  | nil =>
      refine Prints.of_eq (.bind (.of_puts (puts_putChar _) top _) (.pure _ _)) ?_
      rfl
  | cons c fmt =>
      rw [List.head?_cons] at other
      rw [convert, convertCase_eq plain, other]
      exact Prints.of_eq (.bind (.of_puts (puts_putAll _) top _) (.pure _ _)) (List.append_nil _)

theorem prints_convert_field {d : Conversion} (plain : d.flags.Plain) (buf : Nat)
    {fmt : List UInt8} (conv : d.conv = convOf fmt.head?) {a : Nat}
    (field : d.field strings a = some text) (word : a < 4294967296)
    (short : text.length < 2147483000)
    (strings_short : ∀ p t, strings p = some t → t.length < 2147483648) (top : hi ≤ 4294967296)
    (args : List Nat) :
    Prints strings lo hi (convert buf d.flags (asInt d.width) (asInt d.precision) fmt) (a :: args)
      fmt.tail args text := by
  cases fmt with
  | nil =>
      obtain ⟨flags, width, precision, star, conv'⟩ := d
      cases conv
      cases field
  | cons c fmt =>
      rw [List.head?_cons] at conv
      rw [convert, convertCase_eq plain, ← conv]
      refine Prints.of_eq (.bind (prints_field buf field (fun base sign small number => ?_) word
        short strings_short top args) (.pure _ _)) (List.append_nil _)
      exact convOf_base (conv.symm.trans number)

theorem skipQualifier_star {fmt : List UInt8} (star : fmt.head? = some (ch '*')) :
    skipQualifier fmt = fmt := by
  cases fmt with
  | nil => rfl
  | cons c fmt =>
      cases star
      rfl

theorem parsePrecision_star {fmt : List UInt8} (star : fmt.head? = some (ch '*')) :
    parsePrecision fmt = (none, false, fmt) := by
  cases fmt with
  | nil => rfl
  | cons c fmt =>
      cases star
      rfl

theorem convOf_star {fmt : List UInt8} (star : fmt.head? = some (ch '*')) :
    convOf fmt.head? = .other (some (ch '*')) := by
  rw [star]
  rfl

/-- The `*` is left for the conversion. -/
theorem prints_convert_star {flags : NumFlags} (plain : flags.Plain) (buf : Nat) (size prec : Int)
    {fmt : List UInt8} (star : fmt.head? = some (ch '*')) {d : Conversion}
    (conv : d.conv = convOf fmt.head?) (stands : d.text strings args = some (text, args'))
    (top : hi ≤ 4294967296) :
    Prints strings lo hi (convert buf flags size prec fmt) args fmt.tail args' text := by
  rw [convOf_star star] at conv
  rw [Conversion.text_other conv] at stands
  cases stands
  exact prints_convert_other plain buf size prec (convOf_star star) top args

/-- The literal widths and precisions are values of an `int`. -/
def Conversion.Fits (d : Conversion) : Prop :=
  d.width.getD 0 < 2147483648 ∧ d.precision.getD 0 < 2147483648

theorem prints_conversion (buf : Nat) {fmt : List UInt8}
    (stands : (Directive.conversion (parseConversion fmt).1).text strings args = some (text, args'))
    (fits : (parseConversion fmt).1.Fits) (words : ∀ a ∈ args, a < 4294967296)
    (short : text.length < 2147483000)
    (strings_short : ∀ p t, strings p = some t → t.length < 2147483648) (top : hi ≤ 4294967296) :
    Prints strings lo hi (conversion buf fmt) args (parseConversion fmt).2 args' text := by
  have plain : (flagLoop .none fmt).1.Plain := flagLoop_plain ⟨rfl, rfl⟩ fmt
  unfold conversion
  unfold parseConversion at stands fits ⊢
  generalize flagLoop .none fmt = read at *
  obtain ⟨flags, fmt⟩ := read
  dsimp only at stands fits plain ⊢
  obtain ⟨starless, said⟩ | ⟨a, rest, starred, rfl, said⟩ := Directive.text_cases stands
  · obtain ⟨star, star'⟩ := Bool.or_eq_false_iff.mp starless
    refine Prints.of_eq (.bind (prints_fieldWidth flags star fits.1 args) (.bind
      (prints_precisionOf star' fits.2 args) ?_)) (List.nil_append _)
    obtain ⟨c, other, rfl, rfl⟩ | ⟨a, rfl, field⟩ := Conversion.text_cases said
    · exact prints_convert_other plain buf _ _ other top args'
    · exact prints_convert_field (d := ⟨flags, _, _, _, _⟩) plain buf rfl field
        (words a List.mem_cons_self) short strings_short top args'
  · -- the `*` is the conversion
    cases star : (parseWidth fmt).2.1 with
    | true =>
        obtain ⟨size, flags', same, head, plain', width⟩ := prints_fieldWidth_star plain star a rest
        have none : parsePrecision fmt = (none, false, fmt) := parsePrecision_star head
        have precision : Prints strings lo hi (precisionOf fmt) rest
            (asInt (parsePrecision fmt).1, (parsePrecision fmt).2.2) rest [] :=
          prints_precisionOf (by rw [none]) (by rw [none]; exact Nat.two_pow_pos 31) rest
        rw [none] at precision
        rw [same, none, skipQualifier_star head] at said ⊢
        refine Prints.of_eq (.bind width (.bind precision ?_)) (List.nil_append _)
        dsimp only
        rw [skipQualifier_star head]
        exact prints_convert_star plain' buf _ _ head rfl said top
    | false =>
        have star' : (parsePrecision (parseWidth fmt).2.2).2.1 = true := by
          rw [star, Bool.false_or] at starred
          exact starred
        obtain ⟨prec, head, precision⟩ := prints_precisionOf_star star' a rest
        rw [skipQualifier_star head] at said ⊢
        refine Prints.of_eq (.bind (prints_fieldWidth flags star fits.1 _) (.bind precision ?_))
          (List.nil_append _)
        dsimp only
        rw [skipQualifier_star head]
        exact prints_convert_star plain buf _ _ head rfl said top

/-! ## The loop over the format -/

theorem length_skipQualifier (fmt : List UInt8) : (skipQualifier fmt).length ≤ fmt.length := by
  cases fmt with
  | nil => exact Nat.le_refl _
  | cons c fmt =>
      rw [skipQualifier]
      split
      · exact Nat.le_succ _
      · exact Nat.le_refl _

theorem length_flagLoop (flags : NumFlags) (fmt : List UInt8) :
    (flagLoop flags fmt).2.length ≤ fmt.length := by
  induction fmt generalizing flags with
  | nil => exact Nat.le_refl _
  | cons c fmt ih =>
      rw [flagLoop]
      split
      · exact Nat.le_trans (ih _) (Nat.le_succ _)
      · exact Nat.le_refl _

theorem length_dropWhile (p : UInt8 → Bool) (fmt : List UInt8) :
    (fmt.dropWhile p).length ≤ fmt.length :=
  (List.dropWhile_suffix p).length_le

theorem length_parseWidth (fmt : List UInt8) : (parseWidth fmt).2.2.length ≤ fmt.length := by
  unfold parseWidth
  split
  · exact Nat.le_refl _
  · exact length_dropWhile isDigit fmt

theorem length_parsePrecision (fmt : List UInt8) :
    (parsePrecision fmt).2.2.length ≤ fmt.length := by
  cases fmt with
  | nil => exact Nat.le_refl _
  | cons c fmt =>
      rw [parsePrecision]
      split
      · exact Nat.le_trans (length_dropWhile isDigit fmt) (Nat.le_succ _)
      · exact Nat.le_refl _

theorem length_parseConversion (fmt : List UInt8) :
    (parseConversion fmt).2.length ≤ fmt.length := by
  unfold parseConversion
  dsimp only
  rw [List.length_tail]
  have flags := length_flagLoop .none fmt
  have width := length_parseWidth (flagLoop .none fmt).2
  have precision := length_parsePrecision (parseWidth (flagLoop .none fmt).2).2.2
  have qualifier := length_skipQualifier (parsePrecision (parseWidth (flagLoop .none fmt).2).2.2).2.2
  omega

/-- The literals of the conversions are values of an `int`. -/
def Directive.Fits : Directive → Prop
  | .plain _ => True
  | .conversion d => d.Fits

instance (d : Directive) : Decidable d.Fits := by
  unfold Directive.Fits Conversion.Fits
  cases d <;> infer_instance

theorem formatted_cons {d : Directive} {ds : List Directive}
    (stands : formatted strings (d :: ds) args = some (text, args')) :
    ∃ first args'' more, text = first ++ more ∧ d.text strings args = some (first, args'') ∧
      formatted strings ds args'' = some (more, args') := by
  unfold formatted at stands
  obtain ⟨⟨first, args''⟩, here, stands⟩ := Option.bind_eq_some_iff.mp stands
  obtain ⟨⟨more, left⟩, behind, stands⟩ := Option.bind_eq_some_iff.mp stands
  cases stands
  exact ⟨first, args'', more, rfl, here, behind⟩

theorem vsprintfLoop_prints (buf n : Nat) {fmt : List UInt8} (enough : fmt.length ≤ n)
    (stands : formatted strings (parse n fmt) args = some (text, args'))
    (fits : ∀ d ∈ parse n fmt, d.Fits) (words : ∀ a ∈ args, a < 4294967296)
    (short : text.length < 2147483000)
    (strings_short : ∀ p t, strings p = some t → t.length < 2147483648) (top : hi ≤ 4294967296) :
    Prints strings lo hi (vsprintfLoop buf n fmt) args () args' text := by
  induction n generalizing fmt args text with
  | zero =>
      obtain rfl := List.eq_nil_of_length_eq_zero (Nat.le_zero.mp enough)
      cases stands
      exact .pure _ _
  | succ n ih =>
      cases fmt with
      | nil =>
          cases stands
          exact .pure _ _
      | cons c fmt =>
          rw [List.length_cons] at enough
          rw [parse] at stands fits
          rw [vsprintfLoop]
          split at stands
          · rename_i plain
            rw [if_pos plain] at fits ⊢
            obtain ⟨first, args'', more, rfl, here, behind⟩ := formatted_cons stands
            cases here
            rw [List.length_append] at short
            exact .bind (.of_puts (puts_putChar c) top args) (ih (by omega) behind
              (fun d member => fits d (List.mem_cons_of_mem _ member)) words (by omega))
          · rename_i percent
            rw [if_neg percent] at fits ⊢
            obtain ⟨first, args'', more, rfl, here, behind⟩ := formatted_cons stands
            rw [List.length_append] at short
            have less := length_parseConversion fmt
            exact .bind (prints_conversion buf here (fits _ List.mem_cons_self) words (by omega)
              strings_short top) (ih (by omega) behind
                (fun d member => fits d (List.mem_cons_of_mem _ member))
                (fun a member => words a ((Directive.text_suffix here).subset member)) (by omega))

end Prints

/-! ## The call -/

/-- The null byte behind what the loop wrote, and the length. -/
theorem vsprintf_of_loop {fmt text : List UInt8} {args args' : List Nat} {m : Mem} {buf : Nat}
    (loop : vsprintfLoop buf fmt.length fmt ⟨m, buf, args⟩ =
      .ok ((), (Sprint.took ⟨m, buf, args⟩ args').after text))
    (room : buf + text.length < 4294967296) (str : Nat) :
    vsprintf buf fmt ⟨m, str, args⟩ =
      .ok (text.length, ⟨m.put buf (text ++ [0]), buf + text.length, args'⟩) := by
  have returned : sub32 (buf + text.length) buf = text.length := by
    unfold sub32
    omega
  unfold vsprintf
  rw [bind_run_ok (show (modify fun s => { s with str := buf } : SprintM Unit) ⟨m, str, args⟩ =
    .ok ((), ⟨m, buf, args⟩) from rfl), bind_run_ok loop]
  show Except.ok (sub32 (buf + text.length) buf,
    (⟨(m.put buf text).setByte (buf + text.length) 0, buf + text.length, args'⟩ : Sprint)) = _
  rw [returned, Mem.put_append]
  rfl

/-- `vsprintf` writes the text of the format and a null byte behind it, returns how long the text
is, and changes nothing else in memory. -/
theorem vsprintf_writes {strings : Nat → Option (List UInt8)} {fmt text : List UInt8}
    {args args' : List Nat} {m : Mem} {buf : Nat}
    (stands : formatted strings (directives fmt) args = some (text, args'))
    (fits : ∀ d ∈ directives fmt, d.Fits) (words : ∀ a ∈ args, a < 4294967296)
    (short : text.length < 2147483000) (room : buf + text.length < 4294967296)
    (ready : Ready strings buf (buf + text.length + 1) ⟨m, buf, args⟩) (str : Nat) :
    vsprintf buf fmt ⟨m, str, args⟩ =
      .ok (text.length, ⟨m.put buf (text ++ [0]), buf + text.length, args'⟩) := by
  have loop := vsprintfLoop_prints buf fmt.length (Nat.le_refl _) stands fits words short
    ready.short (by omega) ⟨m, buf, args⟩ rfl ready (Nat.lt_succ_self _)
  exact vsprintf_of_loop loop room str

/-- A table with one string. -/
def oneString (p : Nat) : Option (List UInt8) := if p = 4096 then some (cstr "abc") else none

theorem oneString_eq {p : Nat} {text : List UInt8} (entry : oneString p = some text) :
    p = 4096 ∧ text = cstr "abc" := by
  unfold oneString at entry
  split at entry
  · rename_i here
    exact ⟨here, (Option.some.inj entry).symm⟩
  · cases entry

theorem string_and_numbers_written :
    vsprintf 8192 (cstr "%s=%5d|%-4x|%c%%")
        ⟨Mem.put (fun _ => 0) 4096 (cstr "abc" ++ [0]), 0, [4096, 4294967254, 255, 66]⟩ =
      .ok (17, ⟨(Mem.put (fun _ => 0) 4096 (cstr "abc" ++ [0])).put 8192
        (cstr "abc=  -42|ff  |B%" ++ [0]), 8209, []⟩) := by
  have stands : formatted oneString (directives (cstr "%s=%5d|%-4x|%c%%"))
      [4096, 4294967254, 255, 66] = some (cstr "abc=  -42|ff  |B%", []) := by decide
  refine vsprintf_writes stands (by decide) (by decide) (by decide) (by decide) ?_ 0
  refine ⟨Nat.le_refl _, fun p text entry => ?_, fun p text entry => ?_, fun p text entry => ?_,
    fun p text entry => ?_⟩ <;> obtain ⟨rfl, rfl⟩ := oneString_eq entry
  · exact Mem.CString.put _ 4096 (Mem.nonzero_of_all rfl)
  · decide
  · decide
  · decide

end MiniKernel.Kernel
