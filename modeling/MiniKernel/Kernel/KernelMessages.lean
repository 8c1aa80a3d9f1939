/-
# Kernel.KernelMessages -- what the kernel prints fits the buffer

The text of a directive has a length that its arguments do not change much: a number is at most as
long as the numeral of the largest word, with its sign and its prefix, and a string as long as
the longest string there is.  The formats that the kernel itself passes to `printk` and `_panic`
are short enough for the 1024 bytes of the static buffers whatever their arguments are
(`printAll_kernel`).
-/
import MiniKernel.Kernel.NumberText
import MiniKernel.Kernel.Printk
import Mathlib.Data.List.TakeWhile

namespace MiniKernel.Kernel

open Theory

set_option autoImplicit false

/-! ## How long a text can be -/

/-- The number of digits of the largest word. -/
def digitsMost (base : Nat) : Nat := (Nat.digits base 4294967295).length

/-- The length of the text of a number at most. -/
def numberMost (flags : NumFlags) (base width precision : Nat) : Nat :=
  max width (1 + (baseText flags base).length + max precision (digitsMost base))

/-- The length of the field of a conversion at most, with strings of `longest` characters. -/
def Conversion.most (longest : Nat) (d : Conversion) : Nat :=
  match d.conv with
  | .char => max (d.width.getD 0) 1
  | .string => max (d.width.getD 0) (min (d.precision.getD longest) longest)
  | .number base sign small =>
      numberMost { d.flags with sign := sign, small := small } base (d.width.getD 0)
        (d.precision.getD 0)
  | .pointer => numberMost d.flags 16 (d.width.getD 8) (d.precision.getD 0)
  | .count => 0
  | .other c => (otherText c).length

def Directive.most (longest : Nat) : Directive → Nat
  | .plain _ => 1
  | .conversion d => d.most longest

section Length

variable {strings : Nat → Option (List UInt8)} {longest : Nat} {text : List UInt8}
variable {args args' : List Nat}

theorem length_numberText_le (flags : NumFlags) {base v : Nat} (large : 1 < base)
    (word : v < 4294967296) (width precision : Nat) :
    (numberText flags base width precision v).length ≤ numberMost flags base width precision := by
  have sign := length_signText_le flags v
  have value : magnitude flags v < base ^ digitsMost base :=
    Nat.lt_of_le_of_lt (Nat.le_of_lt_succ (magnitude_lt word))
      (Nat.lt_base_pow_length_digits large)
  have some : 0 < digitsMost base :=
    List.length_pos_iff.mpr (Nat.digits_ne_nil_iff_ne_zero.mpr (by decide))
  have digits : (numeral (digitChar flags.small) base (magnitude flags v)).length ≤ digitsMost base :=
    numeral_length_le large some value
  rw [length_numberText, length_digitText]
  unfold numberMost
  omega

theorem Conversion.length_field_le {d : Conversion} {a : Nat}
    (field : d.field strings a = some text) (word : a < 4294967296)
    (known : ∀ base sign small, d.conv = .number base sign small → 2 ≤ base ∧ base ≤ 36)
    (long : ∀ p t, strings p = some t → t.length ≤ longest) : text.length ≤ d.most longest := by
  obtain ⟨flags, width, precision, star, conv⟩ := d
  cases conv with
  | char =>
      cases field
      rw [length_padded]
      exact Nat.le_refl _
  | string =>
      obtain ⟨t, entry, rfl⟩ := Option.map_eq_some_iff.mp field
      have few := long a t entry
      rw [length_padded, List.length_take]
      unfold Conversion.most
      cases precision with
      | none =>
          simp only [Option.getD_none]
          omega
      | some n =>
          simp only [Option.getD_some]
          omega
  | number base sign small =>
      cases field
      exact length_numberText_le _ (known base sign small rfl).1 word _ _
  | pointer =>
      cases field
      exact length_numberText_le _ (by decide) word _ _
  | count => cases field
  | other c => cases field

theorem Directive.length_text_le {d : Directive} (stands : d.text strings args = some (text, args'))
    (words : ∀ a ∈ args, a < 4294967296)
    (known : ∀ d', d = .conversion d' →
      ∀ base sign small, d'.conv = .number base sign small → 2 ≤ base ∧ base ≤ 36)
    (long : ∀ p t, strings p = some t → t.length ≤ longest) : text.length ≤ d.most longest := by
  have behind {d : Conversion} {args : List Nat} (stands : d.text strings args =
      some (text, args')) (words : ∀ a ∈ args, a < 4294967296)
      (known : ∀ base sign small, d.conv = .number base sign small → 2 ≤ base ∧ base ≤ 36) :
      text.length ≤ d.most longest := by
    obtain ⟨c, other, rfl, -⟩ | ⟨a, rfl, field⟩ := Conversion.text_cases stands
    · unfold Conversion.most
      rw [other]
    · exact Conversion.length_field_le field (words a List.mem_cons_self) known long
  cases d with
  | plain c =>
      cases stands
      exact Nat.le_refl _
  | conversion d =>
      obtain ⟨-, said⟩ | ⟨a, rest, -, rfl, said⟩ := Directive.text_cases stands
      · exact behind said words (known d rfl)
      · exact behind said (fun b member => words b (List.mem_cons_of_mem _ member)) (known d rfl)

/-- The conversions of a format have a base that `number` knows. -/
theorem parse_known {n : Nat} {fmt : List UInt8} {d : Conversion}
    (member : Directive.conversion d ∈ parse n fmt) {base : Nat} {sign small : Bool}
    (number : d.conv = .number base sign small) : 2 ≤ base ∧ base ≤ 36 := by
  induction n generalizing fmt with
  | zero => cases fmt <;> cases member
  | succ n ih =>
      cases fmt with
      | nil => cases member
      | cons c fmt =>
          rw [parse] at member
          split at member
          · rcases List.mem_cons.mp member with same | member
            · cases same
            · exact ih member
          · rcases List.mem_cons.mp member with same | member
            · cases same
              exact convOf_base number
            · exact ih member

theorem length_formatted_le {ds : List Directive}
    (stands : formatted strings ds args = some (text, args'))
    (words : ∀ a ∈ args, a < 4294967296)
    (known : ∀ d', Directive.conversion d' ∈ ds →
      ∀ base sign small, d'.conv = .number base sign small → 2 ≤ base ∧ base ≤ 36)
    (long : ∀ p t, strings p = some t → t.length ≤ longest) :
    text.length ≤ (ds.map (Directive.most longest)).sum := by
  induction ds generalizing args text with
  | nil =>
      cases stands
      exact Nat.le_refl _
  | cons d ds ih =>
      obtain ⟨first, args'', more, rfl, here, behind⟩ := formatted_cons stands
      have head := Directive.length_text_le here words
        (fun d' same => known d' (same ▸ List.mem_cons_self)) long
      have tail := ih behind (fun a member => words a ((Directive.text_suffix here).subset member))
        fun d' member => known d' (List.mem_cons_of_mem _ member)
      rw [List.length_append, List.map_cons, List.sum_cons]
      omega

/-- The length of the text of a format at most. -/
def textMost (longest : Nat) (fmt : List UInt8) : Nat :=
  ((directives fmt).map (Directive.most longest)).sum

theorem FormatsTo.length_le {fmt : List UInt8} (formats : FormatsTo strings fmt args text)
    (long : ∀ p t, strings p = some t → t.length ≤ longest) : text.length ≤ textMost longest fmt := by
  obtain ⟨args', stands⟩ := formats.text
  exact length_formatted_le stands formats.words
    (fun _ member _ _ _ number => parse_known member number) long

end Length

/-! ## Which formats have a text -/

section Takes

variable (strings : Nat → Option (List UInt8))

/-- How many arguments a directive takes. -/
def Directive.takes : Directive → Nat
  | .plain _ => 0
  | .conversion d =>
      (if d.star then 1 else 0) +
        match d.conv with
        | .other _ => 0
        | _ => 1

/-- A directive that asks neither for a string nor for the count. -/
def Directive.Numeric : Directive → Prop
  | .plain _ => True
  | .conversion d => d.conv ≠ .string ∧ d.conv ≠ .count

instance : (d : Directive) → Decidable d.Numeric
  | .plain _ => .isTrue trivial
  | .conversion _ => @instDecidableAnd _ _ instDecidableNot instDecidableNot

theorem Conversion.text_some {d : Conversion} {args : List Nat}
    (numeric : d.conv ≠ .string ∧ d.conv ≠ .count)
    (enough : (match d.conv with | .other _ => 0 | _ => 1) ≤ args.length) :
    ∃ text args', d.text strings args = some (text, args') ∧
      args.length ≤ args'.length + (match d.conv with | .other _ => 0 | _ => 1) := by
  obtain ⟨flags, width, precision, star, conv⟩ := d
  cases conv with
  | string => exact absurd rfl numeric.1
  | count => exact absurd rfl numeric.2
  | other c => exact ⟨_, args, Conversion.text_other rfl args, Nat.le_refl _⟩
  | _ =>
      obtain ⟨a, args, rfl⟩ := List.exists_cons_of_length_pos enough
      exact ⟨_, args, rfl, Nat.le_refl _⟩

theorem Directive.text_some {d : Directive} {args : List Nat} (numeric : d.Numeric)
    (enough : d.takes ≤ args.length) :
    ∃ text args', d.text strings args = some (text, args') ∧
      args.length ≤ args'.length + d.takes := by
  cases d with
  | plain c => exact ⟨_, args, rfl, Nat.le_refl _⟩
  | conversion d =>
      unfold Directive.takes at enough ⊢
      dsimp only [Directive.text] at enough ⊢
      cases star : d.star with
      | false =>
          rw [star, if_neg (by decide), Nat.zero_add] at enough
          rw [if_neg (by decide), if_neg (by decide), Nat.zero_add]
          exact Conversion.text_some strings numeric enough
      | true =>
          rw [star, if_pos rfl] at enough
          rw [if_pos rfl, if_pos rfl]
          obtain ⟨a, args, rfl⟩ := List.exists_cons_of_length_pos
            (Nat.lt_of_lt_of_le (Nat.lt_of_lt_of_le Nat.one_pos (Nat.le_add_right 1 _)) enough)
          rw [List.length_cons] at enough ⊢
          have behind : (match d.conv with | .other _ => 0 | _ => 1) ≤ args.length := by omega
          obtain ⟨text, args', stands, left⟩ := Conversion.text_some strings numeric behind
          exact ⟨text, args', stands, by omega⟩

theorem formatted_some {ds : List Directive} {args : List Nat} (numeric : ∀ d ∈ ds, d.Numeric)
    (enough : (ds.map Directive.takes).sum ≤ args.length) :
    ∃ text args', formatted strings ds args = some (text, args') := by
  induction ds generalizing args with
  | nil => exact ⟨[], args, rfl⟩
  | cons d ds ih =>
      rw [List.map_cons, List.sum_cons] at enough
      obtain ⟨first, args'', here, left⟩ := Directive.text_some strings
        (numeric d List.mem_cons_self) (Nat.le_trans (Nat.le_add_right _ _) enough)
      have few : (ds.map Directive.takes).sum ≤ args''.length := by omega
      obtain ⟨more, args', behind⟩ :=
        ih (fun d member => numeric d (List.mem_cons_of_mem _ member)) few
      refine ⟨first ++ more, args', ?_⟩
      rw [formatted, here]
      dsimp only [Option.bind_eq_bind, Option.bind_some]
      rw [behind]
      rfl

end Takes

/-! ## Null bytes -/

section NonNull

variable {strings : Nat → Option (List UInt8)} {text : List UInt8} {args args' : List Nat}

/-- A directive that cannot print a null byte. -/
def Directive.NonNull : Directive → Prop
  | .plain c => c ≠ 0
  | .conversion d => d.conv ≠ .char ∧ d.conv ≠ .other (some 0)

instance : (d : Directive) → Decidable d.NonNull
  | .plain c => @instDecidableNot _ (instDecidableEqUInt8 c 0)
  | .conversion _ => @instDecidableAnd _ _ instDecidableNot instDecidableNot

theorem replicate_nonzero {n : Nat} {x c : UInt8} (nonzero : x ≠ 0)
    (member : c ∈ List.replicate n x) : c ≠ 0 :=
  List.eq_of_mem_replicate member ▸ nonzero

theorem padded_nonzero {left : Bool} {width : Nat} (nonzero : ∀ c ∈ text, c ≠ 0) :
    ∀ c ∈ padded left width text, c ≠ 0 := by
  intro c member
  unfold padded at member
  split at member <;> rcases List.mem_append.mp member with member | member
  · exact nonzero c member
  · exact replicate_nonzero (by decide) member
  · exact replicate_nonzero (by decide) member
  · exact nonzero c member

theorem numberText_nonzero {flags : NumFlags} {base : Nat} (large : 1 < base) (known : base ≤ 36)
    (width precision v : Nat) : ∀ c ∈ numberText flags base width precision v, c ≠ 0 := by
  intro c member
  obtain ⟨a, z, b, parts⟩ := numberText_parts flags base width precision v
  rw [parts] at member
  rcases List.mem_append.mp member with spaces | member
  · exact replicate_nonzero (by decide) spaces
  rcases List.mem_append.mp member with sign | member
  · unfold signText at sign
    split_ifs at sign
    · exact List.mem_singleton.mp sign ▸ by decide
    · exact List.mem_singleton.mp sign ▸ by decide
    · exact List.mem_singleton.mp sign ▸ by decide
    · cases sign
  rcases List.mem_append.mp member with body | spaces
  · rintro rfl
    exact absurd (body_high large known body) (by decide)
  · exact replicate_nonzero (by decide) spaces

theorem Conversion.field_nonzero {d : Conversion} {a : Nat} (chars : d.conv ≠ .char)
    (field : d.field strings a = some text)
    (known : ∀ base sign small, d.conv = .number base sign small → 2 ≤ base ∧ base ≤ 36)
    (nonzero : ∀ p t, strings p = some t → ∀ c ∈ t, c ≠ 0) : ∀ c ∈ text, c ≠ 0 := by
  obtain ⟨flags, width, precision, star, conv⟩ := d
  cases conv with
  | char => exact absurd rfl chars
  | string =>
      obtain ⟨t, entry, rfl⟩ := Option.map_eq_some_iff.mp field
      exact padded_nonzero fun c member => nonzero a t entry c (List.mem_of_mem_take member)
  | number base sign small =>
      cases field
      obtain ⟨large, most⟩ := known base sign small rfl
      exact numberText_nonzero large most _ _ _
  | pointer =>
      cases field
      exact numberText_nonzero (by decide) (by decide) _ _ _
  | count => cases field
  | other c => cases field

theorem Directive.text_nonzero {d : Directive} (stands : d.text strings args = some (text, args'))
    (safe : d.NonNull)
    (known : ∀ d', d = .conversion d' →
      ∀ base sign small, d'.conv = .number base sign small → 2 ≤ base ∧ base ≤ 36)
    (nonzero : ∀ p t, strings p = some t → ∀ c ∈ t, c ≠ 0) : ∀ c ∈ text, c ≠ 0 := by
  have behind {d : Conversion} {args : List Nat} (stands : d.text strings args =
      some (text, args')) (safe : d.conv ≠ .char ∧ d.conv ≠ .other (some 0))
      (known : ∀ base sign small, d.conv = .number base sign small → 2 ≤ base ∧ base ≤ 36) :
      ∀ c ∈ text, c ≠ 0 := by
    obtain ⟨c, other, rfl, -⟩ | ⟨a, rfl, field⟩ := Conversion.text_cases stands
    · intro x member
      unfold otherText at member
      split at member
      · exact List.mem_singleton.mp member ▸ by decide
      · rcases List.mem_cons.mp member with rfl | member
        · decide
        · rintro rfl
          exact safe.2 (Option.mem_toList.mp member ▸ other)
    · exact Conversion.field_nonzero safe.1 field known nonzero
  cases d with
  | plain c =>
      cases stands
      intro x member
      rw [List.mem_singleton.mp member]
      exact safe
  | conversion d =>
      obtain ⟨-, said⟩ | ⟨a, rest, -, rfl, said⟩ := Directive.text_cases stands
      · exact behind said safe (known d rfl)
      · exact behind said safe (known d rfl)

theorem formatted_nonzero {ds : List Directive}
    (stands : formatted strings ds args = some (text, args')) (safe : ∀ d ∈ ds, d.NonNull)
    (known : ∀ d', Directive.conversion d' ∈ ds →
      ∀ base sign small, d'.conv = .number base sign small → 2 ≤ base ∧ base ≤ 36)
    (nonzero : ∀ p t, strings p = some t → ∀ c ∈ t, c ≠ 0) : ∀ c ∈ text, c ≠ 0 := by
  induction ds generalizing args text with
  | nil =>
      cases stands
      exact fun _ member => absurd member List.not_mem_nil
  | cons d ds ih =>
      obtain ⟨first, args'', more, rfl, here, behind⟩ := formatted_cons stands
      intro c member
      rcases List.mem_append.mp member with member | member
      · exact Directive.text_nonzero here (safe d List.mem_cons_self)
          (fun d' same => known d' (same ▸ List.mem_cons_self)) nonzero c member
      · exact ih behind (fun d member => safe d (List.mem_cons_of_mem _ member))
          (fun d' member => known d' (List.mem_cons_of_mem _ member)) c member

/-- The text of such a format is shown whole. -/
theorem FormatsTo.takeWhile {fmt : List UInt8} (formats : FormatsTo strings fmt args text)
    (safe : ∀ d ∈ directives fmt, d.NonNull)
    (nonzero : ∀ p t, strings p = some t → ∀ c ∈ t, c ≠ 0) : text.takeWhile (· ≠ 0) = text := by
  obtain ⟨args', stands⟩ := formats.text
  have all := formatted_nonzero stands safe
    (fun _ member _ _ _ number => parse_known member number) nonzero
  exact List.takeWhile_eq_self_iff.mpr fun c member => decide_eq_true (all c member)

end NonNull

/-! ## The formats of the kernel -/

/-- The formats that the kernel passes to `printk`. -/
def printkFormats : List (List UInt8) :=
  [cstr "Unhandled interrupt: %d\n", cstr "Page fault (", cstr "present ", cstr "read-only ",
    cstr "user-mode ", cstr "reserved ", cstr ") at %x\n", cstr "Thread exited with value %d\n",
    cstr "a = %d\n", cstr "b = %d\n"]

/-- They have at most one conversion, for a number, and no text of theirs is longer than the
buffer. -/
theorem printkFormats_small : ∀ fmt ∈ printkFormats,
    (∀ d ∈ directives fmt, d.Numeric ∧ d.Fits ∧ d.NonNull) ∧
      ((directives fmt).map Directive.takes).sum ≤ 1 ∧ textMost 0 fmt < 1024 := by
  decide

theorem printk_formats {fmt : List UInt8} (own : fmt ∈ printkFormats) {a : Nat}
    (word : a < 4294967296) :
    ∃ text, FormatsTo (fun _ => none) fmt [a] text ∧ text.length < 1024 ∧
      text.takeWhile (· ≠ 0) = text := by
  obtain ⟨small, takes, most⟩ := printkFormats_small fmt own
  obtain ⟨text, args', stands⟩ := formatted_some (fun _ => none)
    (fun d member => (small d member).1) (show _ ≤ [a].length from takes)
  have formats : FormatsTo (fun _ => none) fmt [a] text :=
    ⟨⟨args', stands⟩, fun d member => (small d member).2.1, fun b member => by
      rw [List.mem_singleton.mp member]
      exact word⟩
  exact ⟨text, formats, Nat.lt_of_le_of_lt (formats.length_le nofun) most,
    formats.takeWhile (fun d member => (small d member).2.2) nofun⟩

/-- The calls that the kernel makes print their texts one after the other, whatever their
arguments are, and change nothing in memory but the buffer. -/
theorem printAll_kernel {calls : List (List UInt8 × Nat)}
    (own : ∀ call ∈ calls, call.1 ∈ printkFormats ∧ call.2 < 4294967296) {s : Output} {t : Terminal}
    {buf : Nat} (place : buf + 1024 ≤ 4294967296) (shows : Shows s.screen t) :
    ∃ texts s',
      List.Forall₂ (fun call text => FormatsTo (fun _ => none) call.1 [call.2] text) calls texts ∧
      printAll buf (calls.map fun call => (call.1, [call.2])) s = .ok ((), s') ∧
      Mem.AgreeOff buf (buf + 1024) s.mem s'.mem ∧
      Shows s'.screen (texts.flatten.foldl Terminal.put t) := by
  have texts : ∃ texts : List (List UInt8), (∀ text ∈ texts, text.length < 1024) ∧
      texts.flatMap (List.takeWhile (· ≠ 0)) = texts.flatten ∧
      List.Forall₂ (fun call text => FormatsTo (fun _ => none) call.1 [call.2] text) calls texts := by
    induction calls with
    | nil => exact ⟨[], fun _ member => absurd member List.not_mem_nil, rfl, .nil⟩
    | cons call calls ih =>
        obtain ⟨member, word⟩ := own call List.mem_cons_self
        obtain ⟨text, formats, short, whole⟩ := printk_formats member word
        obtain ⟨texts, shorts, wholes, all⟩ :=
          ih fun call member => own call (List.mem_cons_of_mem _ member)
        refine ⟨text :: texts, List.forall_mem_cons.mpr ⟨short, shorts⟩, ?_, .cons formats all⟩
        rw [List.flatMap_cons, List.flatten_cons, whole, wholes]
  obtain ⟨texts, short, whole, all⟩ := texts
  have formats : List.Forall₂ (fun call text => FormatsTo (fun _ => none) call.1 call.2 text)
      (calls.map fun call => (call.1, [call.2])) texts := List.forall₂_map_left_iff.mpr all
  obtain ⟨screen, run, shown⟩ :=
    printAll_run formats short place (.empty buf 1024 s.mem) shows
  exact ⟨texts, _, all, run, agreeOff_printed short s.mem, whole ▸ shown⟩

theorem loops_of_main_shown :
    ∃ texts s',
      List.Forall₂ (fun call text => FormatsTo (fun _ => none) call.1 [call.2] text)
        [(cstr "a = %d\n", 0), (cstr "b = %d\n", 79)] texts ∧
      printAll 8192 [(cstr "a = %d\n", [0]), (cstr "b = %d\n", [79])]
        ⟨fun _ => 0, clearedScreen⟩ = .ok ((), s') ∧
      Mem.AgreeOff 8192 9216 (fun _ => 0) s'.mem ∧
      Shows s'.screen (texts.flatten.foldl Terminal.put .blank) :=
  @printAll_kernel [(cstr "a = %d\n", 0), (cstr "b = %d\n", 79)] (by decide) _ _ 8192 (by decide)
    shows_clearedScreen

end MiniKernel.Kernel
