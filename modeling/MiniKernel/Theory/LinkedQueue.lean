/-
# Theory.LinkedQueue -- null-terminated lists and the cyclic order of a rotation

`Linked next p l` says that the chain of `next` pointers from `p` visits exactly
`l` and then ends.  `walk` is the loop that looks for its last node.

`after h l` reads a list as a ring and lists what follows `h`.  Moving the head
to the end leaves the ring alone (`after_rotate`), and a node appended at the
end stands just before the head, so whoever is not the head sees the same last
node as before (`after_append`).
-/
import Mathlib.Logic.Function.Basic
import Mathlib.Data.List.Nodup

namespace MiniKernel.Theory

set_option autoImplicit false

variable {ν : Type}

/-- The chain from `p` visits `l` and ends with a null pointer. -/
def Linked (next : ν → Option ν) : Option ν → List ν → Prop
  | p, [] => p = none
  | p, x :: l => p = some x ∧ Linked next (next x) l

/-- `while (it->next) it = it->next`, for at most `fuel` nodes. -/
def walk (next : ν → Option ν) : Nat → ν → Option ν
  | 0, _ => none
  | fuel + 1, it =>
      match next it with
      | none => some it
      | some it' => walk next fuel it'

namespace Linked

variable {next : ν → Option ν} {p : Option ν} {l l' : List ν}

theorem unique (h : Linked next p l) (h' : Linked next p l') : l = l' := by
  induction l generalizing p l' with
  | nil =>
      obtain rfl : p = none := h
      cases l' with
      | nil => rfl
      | cons y l' => cases h'.1
  | cons x l ih =>
      obtain ⟨rfl, tail⟩ := h
      cases l' with
      | nil => cases h'
      | cons y l' =>
          obtain ⟨same, tail'⟩ := h'
          obtain rfl := Option.some.inj same
          rw [ih tail tail']

theorem update_of_notMem [DecidableEq ν] (h : Linked next p l) {n : ν} (out : n ∉ l) (v : Option ν) :
    Linked (Function.update next n v) p l := by
  induction l generalizing p with
  | nil => exact h
  | cons x l ih =>
      have other : x ≠ n := fun same => out (same ▸ List.mem_cons_self)
      refine ⟨h.1, ?_⟩
      rw [Function.update_of_ne other]
      exact ih h.2 fun mem => out (List.mem_cons_of_mem _ mem)

/-- The pointer of a node is the head of what follows it. -/
theorem next_eq {x : ν} {b : List ν} :
    ∀ (a : List ν) (p : Option ν), Linked next p (a ++ x :: b) → next x = b.head?
  | [], p, h => by
      cases b with
      | nil => exact h.2
      | cons y b => exact h.2.1
  | _ :: a, p, h => next_eq a _ h.2

/-- Linking a node behind the last one. -/
theorem append [DecidableEq ν] {last n : ν} (h : Linked next p (l ++ [last])) (nodup : (l ++ [last]).Nodup)
    (out : n ∉ l ++ [last]) (ends : next n = none) :
    Linked (Function.update next last (some n)) p (l ++ [last] ++ [n]) := by
  induction l generalizing p with
  | nil =>
      have other : n ≠ last := fun same => out (by simp [same])
      refine ⟨h.1, ?_, ?_⟩
      · rw [Function.update_self]
      · rw [Function.update_of_ne other]
        exact ends
  | cons x l ih =>
      have other : x ≠ last := by
        rintro rfl
        simp at nodup
      refine ⟨h.1, ?_⟩
      rw [Function.update_of_ne other]
      exact ih h.2 (List.nodup_cons.mp nodup).2 fun mem => out (List.mem_cons_of_mem _ mem)

/-- Taking out the node behind another one. -/
theorem unlink [DecidableEq ν] {it x : ν} {a b : List ν} (h : Linked next p (a ++ it :: x :: b))
    (nodup : (a ++ it :: x :: b).Nodup) :
    Linked (Function.update next it (next x)) p (a ++ it :: b) := by
  induction a generalizing p with
  | nil =>
      have out : it ∉ x :: b := (List.nodup_cons.mp nodup).1
      refine ⟨h.1, ?_⟩
      rw [Function.update_self]
      exact h.2.2.update_of_notMem (fun mem => out (List.mem_cons_of_mem _ mem)) _
  | cons y a ih =>
      have other : y ≠ it := by
        rintro rfl
        simp at nodup
      refine ⟨h.1, ?_⟩
      rw [Function.update_of_ne other]
      exact ih h.2 (List.nodup_cons.mp nodup).2

/-- The search for the last node ends at it. -/
theorem walk_eq {x y : ν} {fuel : Nat} (h : Linked next (some x) l)
    (found : walk next fuel x = some y) : l.getLast? = some y := by
  induction fuel generalizing x l with
  | zero => cases found
  | succ fuel ih =>
      cases l with
      | nil => cases h
      | cons z l =>
          obtain ⟨same, tail⟩ := h
          obtain rfl := Option.some.inj same
          rw [walk] at found
          cases l with
          | nil =>
              rw [show next x = none from tail] at found
              exact found
          | cons w l =>
              rw [tail.1] at found tail
              rw [List.getLast?_cons_cons]
              exact ih tail found

/-- One unit of fuel for each node suffices. -/
theorem walk_ne_none {x : ν} {fuel : Nat} (h : Linked next (some x) l) (enough : l.length ≤ fuel) :
    walk next fuel x ≠ none := by
  induction fuel generalizing x l with
  | zero =>
      cases l with
      | nil => cases h
      | cons z l => simp at enough
  | succ fuel ih =>
      cases l with
      | nil => cases h
      | cons z l =>
          obtain ⟨same, tail⟩ := h
          obtain rfl := Option.some.inj same
          rw [walk]
          cases l with
          | nil =>
              rw [show next x = none from tail]
              simp
          | cons w l =>
              rw [tail.1]
              exact ih (l := w :: l) ⟨rfl, tail.2⟩ (by simpa using enough)

end Linked

/-! ## The ring -/

variable [DecidableEq ν]

/-- What follows `h` when `l` is read as a ring. -/
def after (h : ν) (l : List ν) : List ν :=
  (l.dropWhile (· ≠ h)).tail ++ l.takeWhile (· ≠ h)

theorem after_split {h : ν} {a b : List ν} (first : h ∉ a) : after h (a ++ h :: b) = b ++ a := by
  have before : ∀ x ∈ a, decide (x ≠ h) = true := by
    intro x mem
    simpa using fun same : x = h => first (same ▸ mem)
  unfold after
  rw [List.dropWhile_append_of_pos before, List.takeWhile_append_of_pos before]
  simp

@[simp] theorem after_self (z : ν) (l : List ν) : after z (z :: l) = l := by
  simpa using after_split (h := z) (a := []) (b := l) (by simp)

/-- The head moves to the end. -/
theorem after_rotate {h z : ν} {l : List ν} (nodup : (z :: l).Nodup) (mem : h ∈ z :: l) :
    after h (l ++ [z]) = after h (z :: l) := by
  have out := (List.nodup_cons.mp nodup).1
  rcases List.mem_cons.mp mem with rfl | mem
  · rw [after_self, after_split out, List.nil_append]
  · obtain ⟨a, b, rfl, first⟩ := List.eq_append_cons_of_mem mem
    have other : h ≠ z := fun same => out (same ▸ mem)
    rw [List.append_assoc, List.cons_append, after_split first, ← List.cons_append,
      after_split (by simp [other, first])]
    simp

/-- A node appended at the end stands before the head. -/
theorem after_append {h z : ν} (n : ν) {l : List ν} (nodup : (z :: l).Nodup) (mem : h ∈ l) :
    ∃ a b, after h (z :: l) = a ++ z :: b ∧ after h (z :: l ++ [n]) = a ++ n :: z :: b := by
  have out := (List.nodup_cons.mp nodup).1
  obtain ⟨a, b, rfl, first⟩ := List.eq_append_cons_of_mem mem
  have other : h ≠ z := fun same => out (same ▸ mem)
  have skip : h ∉ z :: a := by simp [other, first]
  refine ⟨b, a, ?_, ?_⟩
  · rw [← List.cons_append, after_split skip]
  · have shape : z :: (a ++ h :: b) ++ [n] = z :: a ++ h :: (b ++ [n]) := by simp
    rw [shape, after_split skip]
    simp

end MiniKernel.Theory
