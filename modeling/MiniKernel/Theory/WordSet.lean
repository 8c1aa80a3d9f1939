/-
# Theory.WordSet -- a set of numbers stored as the bits of an array of words

Number `f` is bit `f % w` of word `f / w`.  `mem_insert` and `mem_erase` are the
two updates, for a word width `w` and every bit position in it; nothing else in
the set changes.
-/
import Mathlib.Data.Nat.Basic
import Mathlib.Logic.Function.Basic

namespace MiniKernel.Theory.WordSet

set_option autoImplicit false

variable {w : Nat}

/-- Bit `f % w` of word `f / w`. -/
def mem (words : Nat → BitVec w) (f : Nat) : Bool := (words (f / w)).getLsbD (f % w)

/-- Set bit `g % w` of word `g / w`. -/
def insert (words : Nat → BitVec w) (g : Nat) : Nat → BitVec w :=
  Function.update words (g / w) (words (g / w) ||| (1#w <<< (g % w)))

/-- Clear bit `g % w` of word `g / w`. -/
def erase (words : Nat → BitVec w) (g : Nat) : Nat → BitVec w :=
  Function.update words (g / w) (words (g / w) &&& ~~~(1#w <<< (g % w)))

theorem eq_of_div_mod {f g : Nat} (word : f / w = g / w) (bit : f % w = g % w) : f = g := by
  rw [← Nat.div_add_mod f w, ← Nat.div_add_mod g w, word, bit]

/-- The mask `1 << k` has bit `k` and no other. -/
theorem getLsbD_mask {i k : Nat} (hi : i < w) : (1#w <<< k).getLsbD i = decide (i = k) := by
  rw [BitVec.getLsbD_shiftLeft, BitVec.getLsbD_one]
  simp only [hi, decide_true, Bool.true_and]
  by_cases h : i = k
  · subst h
    simp
    omega
  · by_cases lt : i < k
    · simp [lt, h]
    · have : ¬i - k = 0 := by omega
      simp [lt, h, this]

theorem mem_insert (pos : 0 < w) (words : Nat → BitVec w) (f g : Nat) :
    mem (insert words g) f = (decide (f = g) || mem words f) := by
  unfold mem insert
  by_cases word : f / w = g / w
  · rw [word, Function.update_self, BitVec.getLsbD_or, getLsbD_mask (Nat.mod_lt _ pos)]
    by_cases bit : f % w = g % w
    · simp [eq_of_div_mod word bit]
    · have ne : f ≠ g := fun h => bit (h ▸ rfl)
      simp [bit, ne]
  · have ne : f ≠ g := fun h => word (h ▸ rfl)
    simp [Function.update_of_ne word, ne]

theorem mem_erase (pos : 0 < w) (words : Nat → BitVec w) (f g : Nat) :
    mem (erase words g) f = (!decide (f = g) && mem words f) := by
  unfold mem erase
  have lt : f % w < w := Nat.mod_lt _ pos
  by_cases word : f / w = g / w
  · rw [word, Function.update_self, BitVec.getLsbD_and, BitVec.getLsbD_not, getLsbD_mask lt]
    by_cases bit : f % w = g % w
    · simp [eq_of_div_mod word bit]
    · have ne : f ≠ g := fun h => bit (h ▸ rfl)
      simp [bit, ne, lt]
  · have ne : f ≠ g := fun h => word (h ▸ rfl)
    simp [Function.update_of_ne word, ne]

end MiniKernel.Theory.WordSet
