/-
# Theory.Tiling -- intervals laid end to end

`Tiles lo xs hi` says that the intervals of `xs`, each with a start `addr x` and
a length `size x`, follow each other from `lo` to `hi` without a gap.  A tiling
is cut and glued at list appends (`tiles_append`), so replacing some intervals by
others over the same range is one rewrite; its intervals are pairwise disjoint
(`Tiles.pairwise`) and their lengths add up (`Tiles.sum`).
-/
import Mathlib.Data.List.Basic
import Mathlib.Algebra.BigOperators.Group.List.Basic
import Mathlib.Algebra.GroupWithZero.Nat

namespace MiniKernel.Theory

set_option autoImplicit false

variable {β : Type}

/-- The intervals of the list follow each other from `lo` to `hi`. -/
def Tiles (addr size : β → Nat) : Nat → List β → Nat → Prop
  | lo, [], hi => lo = hi
  | lo, x :: xs, hi => addr x = lo ∧ Tiles addr size (lo + size x) xs hi

section

variable {addr size : β → Nat} {lo hi : Nat} {xs ys : List β} {x y : β}

@[simp] theorem tiles_nil : Tiles addr size lo [] hi ↔ lo = hi := Iff.rfl

@[simp] theorem tiles_cons :
    Tiles addr size lo (x :: xs) hi ↔ addr x = lo ∧ Tiles addr size (lo + size x) xs hi := Iff.rfl

/-- A tiling is cut at an append. -/
theorem tiles_append :
    Tiles addr size lo (xs ++ ys) hi ↔ ∃ mid, Tiles addr size lo xs mid ∧ Tiles addr size mid ys hi := by
  induction xs generalizing lo with
  | nil => simp
  | cons x xs ih =>
      rw [List.cons_append, tiles_cons, ih]
      constructor
      · rintro ⟨start, mid, left, right⟩
        exact ⟨mid, ⟨start, left⟩, right⟩
      · rintro ⟨mid, ⟨start, left⟩, right⟩
        exact ⟨start, mid, left, right⟩

namespace Tiles

theorem le (h : Tiles addr size lo xs hi) : lo ≤ hi := by
  induction xs generalizing lo with
  | nil => exact Nat.le_of_eq h
  | cons x xs ih => exact Nat.le_trans (Nat.le_add_right _ _) (ih h.2)

/-- Every interval lies in the range. -/
theorem bounds (h : Tiles addr size lo xs hi) (mem : x ∈ xs) :
    lo ≤ addr x ∧ addr x + size x ≤ hi := by
  induction xs generalizing lo with
  | nil => cases mem
  | cons z xs ih =>
      obtain ⟨start, rest⟩ := h
      rcases List.mem_cons.mp mem with rfl | mem
      · have := rest.le
        omega
      · have := ih rest mem
        omega

/-- The intervals are in order and disjoint. -/
theorem pairwise (h : Tiles addr size lo xs hi) :
    xs.Pairwise fun x y => addr x + size x ≤ addr y := by
  induction xs generalizing lo with
  | nil => exact List.Pairwise.nil
  | cons x xs ih =>
      obtain ⟨start, rest⟩ := h
      refine List.Pairwise.cons (fun y mem => ?_) (ih rest)
      rw [start]
      exact (rest.bounds mem).1

/-- The lengths add up to the length of the range. -/
theorem sum (h : Tiles addr size lo xs hi) : lo + (xs.map size).sum = hi := by
  induction xs generalizing lo with
  | nil => simpa using h
  | cons x xs ih =>
      rw [List.map_cons, List.sum_cons, ← Nat.add_assoc]
      exact ih h.2

/-- Some interval ends where the tiling does. -/
theorem exists_last (h : Tiles addr size lo xs hi) (nonempty : lo ≠ hi) :
    ∃ x ∈ xs, addr x + size x = hi := by
  induction xs generalizing lo with
  | nil => exact absurd h nonempty
  | cons x xs ih =>
      obtain ⟨start, rest⟩ := h
      by_cases last : lo + size x = hi
      · exact ⟨x, List.mem_cons_self, by rw [start, last]⟩
      · obtain ⟨y, mem, stop⟩ := ih rest last
        exact ⟨y, List.mem_cons_of_mem _ mem, stop⟩

/-- The place of an interval in its tiling. -/
theorem cut (h : Tiles addr size lo (xs ++ x :: ys) hi) :
    Tiles addr size lo xs (addr x) ∧ Tiles addr size (addr x + size x) ys hi := by
  obtain ⟨mid, left, start, right⟩ := tiles_append.mp h
  subst start
  exact ⟨left, right⟩

/-- Two intervals of one tiling are the same or disjoint. -/
theorem eq_or_disjoint (h : Tiles addr size lo xs hi) (hx : x ∈ xs) (hy : y ∈ xs) :
    x = y ∨ addr x + size x ≤ addr y ∨ addr y + size y ≤ addr x := by
  induction xs generalizing lo with
  | nil => cases hx
  | cons z xs ih =>
      obtain ⟨start, rest⟩ := h
      rcases List.mem_cons.mp hx with rfl | later <;> rcases List.mem_cons.mp hy with rfl | later'
      · exact .inl rfl
      · have := (rest.bounds later').1
        exact .inr (.inl (by omega))
      · have := (rest.bounds later).1
        exact .inr (.inr (by omega))
      · exact ih rest later later'

end Tiles

end

end MiniKernel.Theory
