/-
# Theory.Numeral -- positional numerals, written and read

`numeral digit b n` is the text of `n` to base `b`, most significant digit first, over any
alphabet `digit`.  `numeralValue` reads a text of digits; leading zeros do not count, and the
text of a number reads as that number (`numeralValue_numeral`).  The digits themselves are
`Nat.digits`.
-/
import Mathlib.Data.Nat.Digits.Lemmas

namespace MiniKernel.Theory

set_option autoImplicit false

variable {α : Type}

/-- The digits of `n` to base `b`, most significant first; the numeral of 0 has one digit. -/
def numeral (digit : Nat → α) (b n : Nat) : List α :=
  if n = 0 then [digit 0] else ((Nat.digits b n).map digit).reverse

/-- The number that a text of digits stands for. -/
def numeralValue (valueOf : α → Nat) (b : Nat) (ds : List α) : Nat :=
  ds.foldl (fun n d => n * b + valueOf d) 0

section Value

variable (valueOf : α → Nat) (b : Nat)

@[simp] theorem numeralValue_nil : numeralValue valueOf b [] = 0 := rfl

theorem foldl_numeralValue (n : Nat) (ds : List α) :
    ds.foldl (fun n d => n * b + valueOf d) n = n * b ^ ds.length + numeralValue valueOf b ds := by
  induction ds generalizing n with
  | nil => simp
  | cons d ds ih =>
      rw [numeralValue, List.foldl_cons, List.foldl_cons, ih, ih (0 * b + valueOf d),
        List.length_cons]
      ring

theorem numeralValue_append (ds es : List α) :
    numeralValue valueOf b (ds ++ es) =
      numeralValue valueOf b ds * b ^ es.length + numeralValue valueOf b es := by
  rw [numeralValue, List.foldl_append, foldl_numeralValue]
  rfl

/-- Leading zeros do not count. -/
theorem numeralValue_zeros {z : α} (zero : valueOf z = 0) (n : Nat) (ds : List α) :
    numeralValue valueOf b (List.replicate n z ++ ds) = numeralValue valueOf b ds := by
  induction n with
  | zero => rfl
  | succ n ih =>
      rw [List.replicate_succ, List.cons_append, numeralValue, List.foldl_cons, zero,
        Nat.zero_mul]
      exact ih

theorem numeralValue_reverse (ds : List Nat) {digit : Nat → α}
    (inverse : ∀ d ∈ ds, valueOf (digit d) = d) :
    numeralValue valueOf b (ds.map digit).reverse = Nat.ofDigits b ds := by
  induction ds with
  | nil => rfl
  | cons d ds ih =>
      rw [List.map_cons, List.reverse_cons, numeralValue_append, Nat.ofDigits_cons,
        ih fun e member => inverse e (List.mem_cons_of_mem _ member)]
      have last := inverse d List.mem_cons_self
      simp only [numeralValue, List.foldl_cons, List.foldl_nil, List.length_singleton, last]
      ring

end Value

section Numeral

variable {digit : Nat → α} {valueOf : α → Nat} {b : Nat}

/-- The text of a number reads as the number. -/
theorem numeralValue_numeral (base : 1 < b) (inverse : ∀ d, d < b → valueOf (digit d) = d)
    (n : Nat) : numeralValue valueOf b (numeral digit b n) = n := by
  unfold numeral
  split
  · rename_i zero
    subst zero
    have first := inverse 0 (by omega)
    simp [numeralValue, first]
  · rw [numeralValue_reverse valueOf b _ fun d member =>
      inverse d (Nat.digits_lt_base base member), Nat.ofDigits_digits]

theorem numeral_length_pos (digit : Nat → α) (b n : Nat) : 0 < (numeral digit b n).length := by
  unfold numeral
  split
  · exact Nat.one_pos
  · rename_i more
    rw [List.length_reverse, List.length_map]
    exact List.length_pos_iff.mpr (Nat.digits_ne_nil_iff_ne_zero.mpr more)

/-- How long a numeral is. -/
theorem numeral_length_le (base : 1 < b) {n k : Nat} (some : 0 < k) (small : n < b ^ k) :
    (numeral digit b n).length ≤ k := by
  unfold numeral
  split
  · exact some
  · rw [List.length_reverse, List.length_map]
    exact (Nat.digits_length_le_iff base n).mpr small

/-- A numeral consists of digits of its base. -/
theorem mem_numeral (base : 1 < b) {n : Nat} {c : α} (member : c ∈ numeral digit b n) :
    ∃ d, d < b ∧ c = digit d := by
  unfold numeral at member
  split at member
  · exact ⟨0, by omega, List.mem_singleton.mp member⟩
  · obtain ⟨d, digits, rfl⟩ := List.mem_map.mp (List.mem_reverse.mp member)
    exact ⟨d, Nat.digits_lt_base base digits, rfl⟩

end Numeral

end MiniKernel.Theory
