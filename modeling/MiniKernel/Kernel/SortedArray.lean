/-
# Kernel.SortedArray -- sorted_array.c

The array of pointers with its size and capacity, and the three operations on
it, cell by cell as the loops of the source move them.  `toList` is the abstract
view: `insertSortedArray_spec` and `removeSortedArray_spec` say that the loops
insert and erase one position of that list.

`sa_cmp` is a function pointer: `κ` is the type of comparison functions, and
`call` says how one is called, since the header comparison of the heap reads
memory that the array does not hold.
-/
import MiniKernel.Kernel.Panic
import Mathlib.Data.List.InsertIdx
import Mathlib.Data.List.Perm.Basic
import Mathlib.Logic.Function.Basic

namespace MiniKernel.Kernel

set_option autoImplicit false

/-- `struct sorted_array`. -/
structure SortedArray (α κ : Type) where
  saArray : Nat → α
  saSize : Nat
  saMaxsize : Nat
  saCmp : Option κ

namespace SortedArray

variable {α κ : Type}

/-- `place_sorted_array`, on an array whose cells read `cells`. -/
def place (cells : Nat → α) (maxsize : Nat) (cmp : Option κ) : SortedArray α κ :=
  { saArray := cells, saSize := 0, saMaxsize := maxsize, saCmp := cmp }

/-- The search loop of `insert_sorted_array`: advance while the element at
`iterator` compares below `el`.  `n` cells are left. -/
def insertPosition (cmp : α → α → Except Stop Int) (cells : Nat → α) (el : α) :
    Nat → Nat → Except Stop Nat
  | 0, iterator => .ok iterator
  | n + 1, iterator => do
      if (← cmp (cells iterator) el) < 0 then insertPosition cmp cells el n (iterator + 1)
      else .ok iterator

/-- The shifting loop of `insert_sorted_array`: `tmp` goes into the next cell,
whose old content is the new `tmp`. -/
def shiftRight : Nat → (Nat → α) → Nat → α → (Nat → α)
  | 0, cells, _, _ => cells
  | n + 1, cells, iterator, tmp =>
      shiftRight n (Function.update cells (iterator + 1) tmp) (iterator + 1) (cells (iterator + 1))

/-- `insert_sorted_array`. -/
def insertSortedArray (call : κ → α → α → Except Stop Int) (a : SortedArray α κ) (el : α) :
    Except Stop (SortedArray α κ) :=
  match a.saCmp with
  | none => .error (.panic (.assertion .hasCmp))
  | some f => do
      kassertE .hasRoom (a.saSize < a.saMaxsize)
      let iterator ← insertPosition (call f) a.saArray el a.saSize 0
      if iterator = a.saSize then
        .ok { a with saArray := Function.update a.saArray a.saSize el, saSize := a.saSize + 1 }
      else
        let tmp := a.saArray iterator
        .ok { a with
          saArray := shiftRight (a.saSize - iterator) (Function.update a.saArray iterator el)
            iterator tmp
          saSize := a.saSize + 1 }

/-- `lookup_sorted_array`. -/
def lookupSortedArray (a : SortedArray α κ) (i : Nat) : Except Stop α := do
  kassertE .indexInRange (i < a.saSize)
  .ok (a.saArray i)

/-- The shifting loop of `remove_sorted_array`. -/
def shiftLeft : Nat → (Nat → α) → Nat → (Nat → α)
  | 0, cells, _ => cells
  | n + 1, cells, i => shiftLeft n (Function.update cells i (cells (i + 1))) (i + 1)

/-- `remove_sorted_array`. -/
def removeSortedArray (a : SortedArray α κ) (i : Nat) : Except Stop (SortedArray α κ) := do
  kassertE .indexInRange (i < a.saSize)
  .ok { a with saArray := shiftLeft (a.saSize - i) a.saArray i, saSize := a.saSize - 1 }

/-! ## The list of stored elements -/

/-- The elements in use, in index order. -/
def toList (a : SortedArray α κ) : List α := (List.range a.saSize).map a.saArray

@[simp] theorem length_toList (a : SortedArray α κ) : a.toList.length = a.saSize := by
  simp [toList]

theorem getElem?_toList (a : SortedArray α κ) (i : Nat) :
    a.toList[i]? = if i < a.saSize then some (a.saArray i) else none := by
  by_cases h : i < a.saSize <;> simp [toList, h]

theorem getElem_toList (a : SortedArray α κ) {i : Nat} (h : i < a.toList.length) :
    a.toList[i] = a.saArray i := by
  simp [toList]

theorem lookupSortedArray_ok {a : SortedArray α κ} {i : Nat} (h : i < a.saSize) :
    a.lookupSortedArray i = .ok (a.saArray i) := by
  simp [lookupSortedArray, h, bind, Except.bind]

/-! ## Insertion -/

theorem shiftRight_apply (n : Nat) (cells : Nat → α) (it : Nat) (tmp : α) (j : Nat) :
    shiftRight n cells it tmp j =
      if j ≤ it ∨ it + n < j then cells j else if j = it + 1 then tmp else cells (j - 1) := by
  induction n generalizing cells it tmp with
  | zero =>
      rw [if_pos (by omega)]
      rfl
  | succ n ih =>
      rw [shiftRight, ih]
      simp only [Function.update_apply]
      by_cases below : j ≤ it + 1
      · grind
      · grind

/-- The search stops at the first element that does not compare below `el`,
if every comparison returns. -/
theorem insertPosition_spec (cmp : α → α → Except Stop Int) (c : α → Int) (cells : Nat → α)
    (el : α) (n it : Nat) (total : ∀ i, it ≤ i → i < it + n → cmp (cells i) el = .ok (c (cells i))) :
    ∃ k, insertPosition cmp cells el n it = .ok k ∧ it ≤ k ∧ k ≤ it + n ∧
      (∀ i, it ≤ i → i < k → c (cells i) < 0) ∧ (k < it + n → ¬c (cells k) < 0) := by
  induction n generalizing it with
  | zero => exact ⟨it, rfl, Nat.le_refl _, Nat.le_refl _, by omega, by omega⟩
  | succ n ih =>
      have here := total it (Nat.le_refl _) (by omega)
      by_cases less : c (cells it) < 0
      · obtain ⟨k, run, lo, hi, below, stop⟩ :=
          ih (it + 1) (fun i h₁ h₂ => total i (by omega) (by omega))
        refine ⟨k, ?_, by omega, by omega, ?_, ?_⟩
        · simpa [insertPosition, here, less, bind, Except.bind] using run
        · intro i h₁ h₂
          rcases Nat.eq_or_lt_of_le h₁ with rfl | h
          · exact less
          · exact below i h h₂
        · intro h
          exact stop (by omega)
      · refine ⟨it, ?_, Nat.le_refl _, by omega, by omega, fun _ => less⟩
        simp [insertPosition, here, less, bind, Except.bind]

theorem toList_append (a : SortedArray α κ) (el : α) :
    toList { a with saArray := Function.update a.saArray a.saSize el, saSize := a.saSize + 1 } =
      a.toList.insertIdx a.saSize el := by
  apply List.ext_getElem?
  intro j
  rw [List.getElem?_insertIdx]
  simp only [getElem?_toList, length_toList, Function.update_apply]
  grind

theorem toList_shiftRight (a : SortedArray α κ) (el : α) {k : Nat} (le : k ≤ a.saSize) :
    toList { a with
        saArray := shiftRight (a.saSize - k) (Function.update a.saArray k el) k (a.saArray k)
        saSize := a.saSize + 1 } = a.toList.insertIdx k el := by
  apply List.ext_getElem?
  intro j
  rw [List.getElem?_insertIdx]
  simp only [getElem?_toList, length_toList, shiftRight_apply, Function.update_apply]
  grind

/-- `insert_sorted_array` inserts `el` before the first element that does not
compare below it; it stops at a full array only. -/
theorem insertSortedArray_spec {call : κ → α → α → Except Stop Int} {a : SortedArray α κ} {f : κ}
    {c : α → Int} {el : α} (cmp : a.saCmp = some f) (room : a.saSize < a.saMaxsize)
    (total : ∀ x ∈ a.toList, call f x el = .ok (c x)) :
    ∃ a' k, insertSortedArray call a el = .ok a' ∧ k ≤ a.toList.length ∧
      (∀ i, (h : i < a.toList.length) → i < k → c a.toList[i] < 0) ∧
      ((h : k < a.toList.length) → ¬c a.toList[k] < 0) ∧
      a'.toList = a.toList.insertIdx k el ∧
      a'.saSize = a.saSize + 1 ∧ a'.saMaxsize = a.saMaxsize ∧ a'.saCmp = a.saCmp := by
  have mem : ∀ i, i < a.saSize → a.saArray i ∈ a.toList := by
    intro i h
    exact List.mem_map.mpr ⟨i, List.mem_range.mpr h, rfl⟩
  obtain ⟨k, run, -, hk, below, stop⟩ := insertPosition_spec (call f) c a.saArray el
    a.saSize 0 (fun i _ h => total _ (mem i (by omega)))
  have hk' : k ≤ a.saSize := by omega
  have below' : ∀ i, (h : i < a.toList.length) → i < k → c a.toList[i] < 0 := by
    intro i h hi
    rw [getElem_toList]
    exact below i (by omega) hi
  have stop' : (h : k < a.toList.length) → ¬c a.toList[k] < 0 := by
    intro h
    rw [getElem_toList]
    exact stop (by simpa using h)
  by_cases last : k = a.saSize
  · refine ⟨{ a with saArray := Function.update a.saArray a.saSize el, saSize := a.saSize + 1 }, k,
      by simp [insertSortedArray, cmp, room, run, last, bind, Except.bind],
      by simpa using hk', below', stop', ?_, rfl, rfl, rfl⟩
    rw [last]
    exact toList_append a el
  · refine ⟨{ a with
        saArray := shiftRight (a.saSize - k) (Function.update a.saArray k el) k (a.saArray k)
        saSize := a.saSize + 1 }, k,
      by simp [insertSortedArray, cmp, room, run, last, bind, Except.bind],
      by simpa using hk', below', stop', toList_shiftRight a el hk', rfl, rfl, rfl⟩

theorem insertPosition_le {cmp : α → α → Except Stop Int} {cells : Nat → α} {el : α} {n it k : Nat}
    (run : insertPosition cmp cells el n it = .ok k) : k ≤ it + n := by
  induction n generalizing it with
  | zero =>
      obtain rfl := Except.ok.inj run
      exact Nat.le_refl _
  | succ n ih =>
      rw [insertPosition] at run
      cases here : cmp (cells it) el with
      | error e => simp [here, bind, Except.bind] at run
      | ok c =>
          simp only [here, bind, Except.bind] at run
          split at run
          · have := ih run
            omega
          · obtain rfl := Except.ok.inj run
            omega

/-- Whatever the comparisons return, `insert_sorted_array` inserts `el` somewhere. -/
theorem insertSortedArray_returned {call : κ → α → α → Except Stop Int} {a a' : SortedArray α κ}
    {el : α} (ran : insertSortedArray call a el = .ok a') :
    ∃ k, k ≤ a.toList.length ∧ a'.toList = a.toList.insertIdx k el ∧ a.saSize < a.saMaxsize ∧
      a'.saSize = a.saSize + 1 ∧ a'.saMaxsize = a.saMaxsize ∧ a'.saCmp = a.saCmp := by
  rw [insertSortedArray] at ran
  cases cmp : a.saCmp with
  | none => simp [cmp] at ran
  | some f =>
      simp only [cmp] at ran
      by_cases room : a.saSize < a.saMaxsize
      · cases run : insertPosition (call f) a.saArray el a.saSize 0 with
        | error e => simp [room, run, bind, Except.bind] at ran
        | ok k =>
            have le := insertPosition_le run
            rw [Nat.zero_add] at le
            by_cases last : k = a.saSize
            · simp only [room, run, last, kassertE_of, bind, Except.bind, if_true] at ran
              obtain rfl := Except.ok.inj ran
              exact ⟨a.saSize, by simp, toList_append a el, room, rfl, rfl, rfl⟩
            · simp only [room, run, last, kassertE_of, bind, Except.bind, if_false] at ran
              obtain rfl := Except.ok.inj ran
              exact ⟨k, by simpa using le, toList_shiftRight a el le, room, rfl, rfl, rfl⟩
      · simp [room, bind, Except.bind] at ran

/-- The only way `insert_sorted_array` stops when every comparison returns. -/
theorem insertSortedArray_full {call : κ → α → α → Except Stop Int} {a : SortedArray α κ} {f : κ}
    {el : α} (cmp : a.saCmp = some f) (full : ¬a.saSize < a.saMaxsize) :
    insertSortedArray call a el = .error (.panic (.assertion .hasRoom)) := by
  simp [insertSortedArray, cmp, full, bind, Except.bind]

/-! ## Removal -/

theorem shiftLeft_apply (n : Nat) (cells : Nat → α) (i j : Nat) :
    shiftLeft n cells i j = if i ≤ j ∧ j < i + n then cells (j + 1) else cells j := by
  induction n generalizing cells i with
  | zero =>
      rw [if_neg (by omega)]
      rfl
  | succ n ih =>
      rw [shiftLeft, ih]
      simp only [Function.update_apply]
      grind

/-- `remove_sorted_array` erases position `i`. -/
theorem removeSortedArray_spec {a : SortedArray α κ} {i : Nat} (h : i < a.saSize) :
    ∃ a', removeSortedArray a i = .ok a' ∧ a'.toList = a.toList.eraseIdx i ∧
      a'.saSize = a.saSize - 1 ∧ a'.saMaxsize = a.saMaxsize ∧ a'.saCmp = a.saCmp := by
  refine ⟨{ a with saArray := shiftLeft (a.saSize - i) a.saArray i, saSize := a.saSize - 1 },
    by simp [removeSortedArray, h, bind, Except.bind], ?_, rfl, rfl, rfl⟩
  apply List.ext_getElem?
  intro j
  rw [List.getElem?_eraseIdx]
  simp only [getElem?_toList, shiftLeft_apply]
  grind

theorem removeSortedArray_returned {a a' : SortedArray α κ} {i : Nat}
    (ran : removeSortedArray a i = .ok a') :
    i < a.saSize ∧ a'.toList = a.toList.eraseIdx i ∧ a'.saSize = a.saSize - 1 ∧
      a'.saMaxsize = a.saMaxsize ∧ a'.saCmp = a.saCmp := by
  by_cases inside : i < a.saSize
  · obtain ⟨b, same, spec⟩ := removeSortedArray_spec inside
    obtain rfl := Except.ok.inj (same.symm.trans ran)
    exact ⟨inside, spec⟩
  · simp [removeSortedArray, inside, bind, Except.bind] at ran

end SortedArray

end MiniKernel.Kernel
