/-
# Kernel.SortedCells -- the cells that the loops of sorted_array.c touch

`place_sorted_array` and `new_sorted_array` give the array `maxsize` cells.  Here the two
operations run on a `Storage` that keeps a list of the cells they read and write, statement
by statement; without that list they are `insertSortedArray` and `removeSortedArray`.

The shifting loop of an insertion ends in cell `sa_size`, which the assertion "has enough
room" keeps inside.  The loop of a removal also reads cell `sa_size`, in its last round, and
asserts nothing about it: on a full array that cell does not exist (`sorted_array_storage`).
-/
import MiniKernel.Kernel.SortedRuns

namespace MiniKernel.Kernel

open Theory

set_option autoImplicit false

/-- The cells, and which of them were read or written. -/
structure Storage (α : Type) where
  cells : Nat → α
  touched : List Nat

namespace Storage

variable {α κ : Type}

/-- `sa_array[i]` -/
def readEl (i : Nat) : StateM (Storage α) α :=
  modifyGet fun s => (s.cells i, { s with touched := i :: s.touched })

/-- `sa_array[i] = el` -/
def writeEl (i : Nat) (el : α) : StateM (Storage α) Unit :=
  modify fun s => { cells := Function.update s.cells i el, touched := i :: s.touched }

/-- The shifting loop of `insert_sorted_array`. -/
def shiftRight : Nat → Nat → α → StateM (Storage α) Unit
  | 0, _, _ => pure ()
  | n + 1, iterator, tmp => do
      let tmp2 ← readEl (iterator + 1)
      writeEl (iterator + 1) tmp
      shiftRight n (iterator + 1) tmp2

/-- `insert_sorted_array`, from the end of its search on. -/
def insertAt (size iterator : Nat) (el : α) : StateM (Storage α) Unit :=
  if iterator = size then writeEl size el
  else do
    let tmp ← readEl iterator
    writeEl iterator el
    shiftRight (size - iterator) iterator tmp

/-- The shifting loop of `remove_sorted_array`. -/
def shiftLeft : Nat → Nat → StateM (Storage α) Unit
  | 0, _ => pure ()
  | n + 1, i => do
      let next ← readEl (i + 1)
      writeEl i next
      shiftLeft n (i + 1)

/-- `insert_sorted_array`, with the cells it touches after its search. -/
def insertSortedArray (call : κ → α → α → Except Stop Int) (a : SortedArray α κ) (el : α) :
    Except Stop (SortedArray α κ × List Nat) :=
  match a.saCmp with
  | none => .error (.panic (.assertion .hasCmp))
  | some f => do
      kassertE .hasRoom (a.saSize < a.saMaxsize)
      let iterator ← SortedArray.insertPosition (call f) a.saArray el a.saSize 0
      let s := ((insertAt a.saSize iterator el).run { cells := a.saArray, touched := [] }).2
      .ok ({ a with saArray := s.cells, saSize := a.saSize + 1 }, s.touched)

/-- `remove_sorted_array`, with the cells it touches. -/
def removeSortedArray (a : SortedArray α κ) (i : Nat) :
    Except Stop (SortedArray α κ × List Nat) := do
  kassertE .indexInRange (i < a.saSize)
  let s := ((shiftLeft (a.saSize - i) i).run { cells := a.saArray, touched := [] }).2
  .ok ({ a with saArray := s.cells, saSize := a.saSize - 1 }, s.touched)

/-! ## The loops -/

variable {s : Storage α} {n i j it size : Nat} {el tmp : α}

theorem shiftRight_cells :
    ((shiftRight n it tmp).run s).2.cells = SortedArray.shiftRight n s.cells it tmp := by
  induction n generalizing s it tmp with
  | zero => rfl
  | succ n ih => exact ih

theorem shiftLeft_cells : ((shiftLeft n i).run s).2.cells = SortedArray.shiftLeft n s.cells i := by
  induction n generalizing s i with
  | zero => rfl
  | succ n ih => exact ih

/-- An insertion shifts into the cells behind its position, up to the first free one. -/
theorem mem_shiftRight_touched :
    j ∈ ((shiftRight n it tmp).run s).2.touched ↔ j ∈ s.touched ∨ it < j ∧ j ≤ it + n := by
  induction n generalizing s it tmp with
  | zero =>
      show j ∈ s.touched ↔ j ∈ s.touched ∨ it < j ∧ j ≤ it + 0
      constructor
      · intro old
        exact .inl old
      · rintro (old | ⟨lo, hi⟩)
        · exact old
        · omega
  | succ n ih =>
      refine ih.trans ?_
      show j ∈ (it + 1) :: (it + 1) :: s.touched ∨ _ ↔ _
      simp only [List.mem_cons]
      constructor
      · rintro ((rfl | rfl | old) | ⟨lo, hi⟩)
        · exact .inr ⟨by omega, by omega⟩
        · exact .inr ⟨by omega, by omega⟩
        · exact .inl old
        · exact .inr ⟨by omega, by omega⟩
      · rintro (old | ⟨lo, hi⟩)
        · exact .inl (.inr (.inr old))
        · by_cases next : j = it + 1
          · exact .inl (.inl next)
          · exact .inr ⟨by omega, by omega⟩

/-- A removal touches every cell from its position on, and the one behind the last. -/
theorem mem_shiftLeft_touched :
    j ∈ ((shiftLeft n i).run s).2.touched ↔ j ∈ s.touched ∨ 0 < n ∧ i ≤ j ∧ j ≤ i + n := by
  induction n generalizing s i with
  | zero =>
      show j ∈ s.touched ↔ j ∈ s.touched ∨ 0 < 0 ∧ _
      simp
  | succ n ih =>
      refine ih.trans ?_
      show j ∈ i :: (i + 1) :: s.touched ∨ _ ↔ _
      simp only [List.mem_cons]
      constructor
      · rintro ((rfl | rfl | old) | ⟨-, lo, hi⟩)
        · exact .inr ⟨by omega, by omega, by omega⟩
        · exact .inr ⟨by omega, by omega, by omega⟩
        · exact .inl old
        · exact .inr ⟨by omega, by omega, by omega⟩
      · rintro (old | ⟨-, lo, hi⟩)
        · exact .inl (.inr (.inr old))
        · by_cases here : j = i
          · exact .inl (.inl here)
          · by_cases next : j = i + 1
            · exact .inl (.inr (.inl next))
            · exact .inr ⟨by omega, by omega, by omega⟩

/-- Behind the search, an insertion touches no cell behind the first free one. -/
theorem le_of_mem_insertAt_touched (le : it ≤ size)
    (mem : j ∈ ((insertAt size it el).run { cells := s.cells, touched := [] }).2.touched) :
    j ≤ size := by
  rw [insertAt] at mem
  split at mem
  next last =>
    obtain rfl : j = size := List.mem_singleton.mp mem
    exact Nat.le_refl _
  next inside =>
    rcases mem_shiftRight_touched.mp mem with first | ⟨-, hi⟩
    · obtain rfl | rfl : j = it ∨ j = it := by simpa using first
      · exact le
      · exact le
    · omega

theorem insertAt_cells :
    ((insertAt size it el).run s).2.cells =
      if it = size then Function.update s.cells size el
      else SortedArray.shiftRight (size - it) (Function.update s.cells it el) it (s.cells it) := by
  rw [insertAt]
  split
  next last => rfl
  next inside => exact shiftRight_cells

/-! ## The operations -/

variable {call : κ → α → α → Except Stop Int} {a : SortedArray α κ}

/-- Without the list of cells this is `insert_sorted_array`. -/
theorem insertSortedArray_fst :
    (insertSortedArray call a el).map Prod.fst = SortedArray.insertSortedArray call a el := by
  rw [insertSortedArray, SortedArray.insertSortedArray]
  cases a.saCmp with
  | none => rfl
  | some f =>
      by_cases room : a.saSize < a.saMaxsize
      · cases found : SortedArray.insertPosition (call f) a.saArray el a.saSize 0 with
        | error e => simp [room, found, bind, Except.bind, Except.map]
        | ok k =>
            by_cases last : k = a.saSize
            · simp [room, found, last, insertAt_cells, bind, Except.bind, Except.map]
            · simp [room, found, last, insertAt_cells, bind, Except.bind, Except.map]
      · simp [room, bind, Except.bind, Except.map]

/-- Without the list of cells this is `remove_sorted_array`. -/
theorem removeSortedArray_fst :
    (removeSortedArray a i).map Prod.fst = SortedArray.removeSortedArray a i := by
  rw [removeSortedArray, SortedArray.removeSortedArray]
  by_cases inside : i < a.saSize
  · simp [inside, shiftLeft_cells, bind, Except.bind, Except.map]
  · simp [inside, bind, Except.bind, Except.map]

theorem insertSortedArray_touched {a' : SortedArray α κ} {touched : List Nat}
    (ran : insertSortedArray call a el = .ok (a', touched)) :
    ∀ j ∈ touched, j ≤ a.saSize := by
  rw [insertSortedArray] at ran
  cases own : a.saCmp with
  | none => simp [own] at ran
  | some f =>
      simp only [own] at ran
      by_cases room : a.saSize < a.saMaxsize
      · cases found : SortedArray.insertPosition (call f) a.saArray el a.saSize 0 with
        | error e => simp [room, found, bind, Except.bind] at ran
        | ok k =>
            have le := SortedArray.insertPosition_le found
            simp only [room, found, kassertE_of, bind, Except.bind] at ran
            obtain ⟨-, rfl⟩ := Prod.mk.inj (Except.ok.inj ran)
            intro j mem
            exact le_of_mem_insertAt_touched (s := ⟨a.saArray, []⟩) (by omega) mem
      · simp [room, bind, Except.bind] at ran

theorem removeSortedArray_touched (inside : i < a.saSize) :
    ∃ a' touched, removeSortedArray a i = .ok (a', touched) ∧
      ∀ j, j ∈ touched ↔ i ≤ j ∧ j ≤ a.saSize := by
  refine ⟨_, _, by rw [removeSortedArray, kassertE_of inside]; rfl, fun j => ?_⟩
  refine mem_shiftLeft_touched.trans ?_
  simp only [List.not_mem_nil, false_or]
  omega

end Storage

/-! ## Runs -/

section Cells

variable {α κ : Type} {call : κ → α → α → Except Stop Int} {s s' : ArrayRun α κ} {op : ArrayOp α}
  {f : κ} {cells : Nat → α} {maxsize : Nat}

/-- The assertions of the operation hold. -/
def ArrayOp.Asserts (a : SortedArray α κ) : ArrayOp α → Prop
  | .insert _ => a.saCmp.isSome ∧ a.saSize < a.saMaxsize
  | .remove i => i < a.saSize

/-- Every cell the operation touches is one of the first `maxsize`. -/
def ArrayOp.Inside (call : κ → α → α → Except Stop Int) (maxsize : Nat) (a : SortedArray α κ) :
    ArrayOp α → Prop
  | .insert el => ∀ a' touched, Storage.insertSortedArray call a el = .ok (a', touched) →
      ∀ j ∈ touched, j < maxsize
  | .remove i => ∀ a' touched, Storage.removeSortedArray a i = .ok (a', touched) →
      ∀ j ∈ touched, j < maxsize

/-- The size stays in the storage. -/
structure FitsStorage (maxsize : Nat) (a : SortedArray α κ) : Prop where
  maxsize_eq : a.saMaxsize = maxsize
  size_le : a.saSize ≤ maxsize

theorem FitsStorage.step (h : FitsStorage maxsize s.array) (taken : ArrayStep call s op s') :
    FitsStorage maxsize s'.array := by
  cases taken with
  | insert ran =>
      obtain ⟨-, -, -, room, size, same, -⟩ := SortedArray.insertSortedArray_returned ran
      have eq := h.maxsize_eq
      exact ⟨same.trans eq, by rw [size]; omega⟩
  | remove shown ran =>
      obtain ⟨-, -, size, same, -⟩ := SortedArray.removeSortedArray_returned ran
      have le := h.size_le
      exact ⟨same.trans h.maxsize_eq, by rw [size]; omega⟩

theorem FitsStorage.insert_inside (h : FitsStorage maxsize s.array) {el : α}
    (asserts : (ArrayOp.insert el).Asserts s.array) :
    (ArrayOp.insert el).Inside call maxsize s.array := by
  intro a' touched ran j mem
  have le := Storage.insertSortedArray_touched ran j mem
  have room := asserts.2
  have eq := h.maxsize_eq
  omega

theorem ArrayOp.remove_inside_iff {i : Nat} (asserts : (ArrayOp.remove i).Asserts s.array) :
    (ArrayOp.remove i).Inside call maxsize s.array ↔ s.array.saSize < maxsize := by
  obtain ⟨a', touched, ran, each⟩ := Storage.removeSortedArray_touched asserts
  constructor
  · intro inside
    have lt : i < s.array.saSize := asserts
    -- the last round reads the cell behind the last element
    exact inside a' touched ran s.array.saSize ((each _).mpr ⟨by omega, Nat.le_refl _⟩)
  · intro room a₁ touched₁ ran₁ j mem
    obtain ⟨-, rfl⟩ := Prod.mk.inj (Except.ok.inj (ran.symm.trans ran₁))
    have le := ((each j).mp mem).2
    omega

/-- **The storage of a sorted array.**  In every state of a run, an insertion whose assertions
hold touches cells of the array only, and a removal does so exactly when the array is not full. -/
theorem sorted_array_storage
    (run : Reachable (ArrayStep call) (ArrayRun.start cells maxsize f) s)
    (asserts : op.Asserts s.array) :
    op.Inside call maxsize s.array ↔ (∃ el, op = .insert el) ∨ s.array.saSize < maxsize := by
  have fits : FitsStorage maxsize s.array :=
    run.invariant (I := fun s => FitsStorage maxsize s.array) ⟨rfl, Nat.zero_le _⟩
      fun _ _ _ h _ taken => h.step taken
  cases op with
  | insert el =>
      constructor
      · intro _
        exact .inl ⟨el, rfl⟩
      · intro _
        exact fits.insert_inside asserts
  | remove i =>
      rw [ArrayOp.remove_inside_iff asserts]
      constructor
      · intro room
        exact .inr room
      · rintro (⟨el, insertion⟩ | room)
        · cases insertion
        · exact room

end Cells

/-- With one of two cells in use, the removal of its element stays inside. -/
theorem remove_of_two_cells : ∃ s : ArrayRun Nat Unit,
    Reachable (ArrayStep cmpTens) (ArrayRun.start (fun _ => 0) 2 ()) s ∧ s.array.saSize = 1 ∧
      (ArrayOp.remove 0).Inside cmpTens 2 s.array := by
  refine ⟨_, .single (i := .insert 21) trivial (.insert rfl), rfl, ?_⟩
  refine (sorted_array_storage (.single (i := .insert 21) trivial (.insert rfl)) ?_).mpr
    (.inr ?_)
  · show 0 < 1
    decide
  · show 1 < 2
    decide

/-- With the only cell in use, the removal of its element reads cell 1. -/
theorem remove_of_one_cell : ∃ s : ArrayRun Nat Unit,
    Reachable (ArrayStep cmpTens) (ArrayRun.start (fun _ => 0) 1 ()) s ∧
      (ArrayOp.remove 0).Asserts s.array ∧
      (∃ a', Storage.removeSortedArray s.array 0 = .ok (a', [0, 1])) ∧
      ¬(ArrayOp.remove 0).Inside cmpTens 1 s.array := by
  refine ⟨_, .single (i := .insert 21) trivial (.insert rfl), ?_, ⟨_, rfl⟩, ?_⟩
  · show 0 < 1
    decide
  · intro inside
    exact absurd (inside _ _ rfl 1 (by decide)) (by decide)

end MiniKernel.Kernel
