/-
# Kernel.SortedKeys -- the order that the two comparison functions keep

`default_cmp_func` compares two pointers and `vm_heap_header_cmp` two sizes, both by a 32-bit
difference that is read as an `int`.  sorted_array.h asks for a positive result when the first
argument is the greater one; the difference has that sign for keys that are less than 2^31
apart, and the opposite one for keys that are further apart (`signAgrees_iff`).

So the array stays in ascending order exactly as long as every new element is in reach of the
stored ones: at most 2^31 above each smaller key, and less than 2^31 below the next one
(`sorted_array_ascending`).
-/
import MiniKernel.Kernel.Heap
import MiniKernel.Kernel.SortedRuns

namespace MiniKernel.Kernel

open Theory

set_option autoImplicit false

/-- What the comparison function compares: the pointer itself, or the `hh_size` it points to. -/
def keyOf (K : KState) : CmpFunc → Nat → Nat
  | .default, el => el
  | .vmHeapHeader, el => (K.peek32 (add32 el 8)).toOption.getD 0

/-- A 32-bit pointer, for the header comparison one to a header that can be read. -/
def Keyed (K : KState) : CmpFunc → Nat → Prop
  | .default, el => el < 4294967296
  | .vmHeapHeader, el => ∃ size, K.peek32 (add32 el 8) = .ok size

/-- The keys of the list do not decrease. -/
def Ascending (K : KState) (f : CmpFunc) (l : List Nat) : Prop :=
  l.Pairwise fun x y => keyOf K f x ≤ keyOf K f y

/-- The key of `el` is at most 2^31 above every smaller one in the list, and less than 2^31
below the least of the others. -/
structure InReach (K : KState) (f : CmpFunc) (l : List Nat) (el : Nat) : Prop where
  below : ∀ x ∈ l, keyOf K f x < keyOf K f el → keyOf K f el - keyOf K f x ≤ 2147483648
  above : ∀ x ∈ l, keyOf K f el ≤ keyOf K f x →
    (∀ y ∈ l, keyOf K f el ≤ keyOf K f y → keyOf K f x ≤ keyOf K f y) →
    keyOf K f x - keyOf K f el < 2147483648

/-- The sign of the comparison is the one of the keys. -/
def SignAgrees (K : KState) (f : CmpFunc) (x y : Nat) : Prop :=
  ∃ c, callCmp K f x y = .ok c ∧ (c < 0 ↔ keyOf K f x < keyOf K f y) ∧
    (0 < c ↔ keyOf K f y < keyOf K f x)

section Keys

variable {K : KState} {f : CmpFunc} {x y el : Nat} {l : List Nat} {s s' : ArrayRun Nat CmpFunc}
  {op : ArrayOp Nat} {cells : Nat → Nat} {maxsize i : Nat}

/-! ## One comparison -/

theorem keyOf_lt (keyed : Keyed K f el) : keyOf K f el < 4294967296 := by
  cases f with
  | default => exact keyed
  | vmHeapHeader =>
      obtain ⟨size, read⟩ := keyed
      have word := peek32_lt read
      simpa [keyOf, read, Except.toOption] using word

theorem callCmp_keyed (hx : Keyed K f x) (hy : Keyed K f y) :
    callCmp K f x y = .ok (int32 (sub32 (keyOf K f x) (keyOf K f y))) := by
  cases f with
  | default => rfl
  | vmHeapHeader =>
      obtain ⟨size, read⟩ := hx
      obtain ⟨size', read'⟩ := hy
      simp [callCmp, vmHeapHeaderCmp, keyOf, read, read', Except.toOption, bind, Except.bind]

/-- The sign is right for keys that are near to each other, and for no others. -/
theorem signAgrees_iff (hx : Keyed K f x) (hy : Keyed K f y) :
    SignAgrees K f x y ↔
      (keyOf K f x < keyOf K f y → keyOf K f y - keyOf K f x ≤ 2147483648) ∧
        (keyOf K f y < keyOf K f x → keyOf K f x - keyOf K f y < 2147483648) := by
  have neg := int32_sub32_neg (keyOf_lt hx) (keyOf_lt hy)
  have pos := int32_sub32_pos (keyOf_lt hx) (keyOf_lt hy)
  constructor
  · rintro ⟨c, called, less, greater⟩
    rw [callCmp_keyed hx hy] at called
    obtain rfl := Except.ok.inj called
    rw [neg] at less
    rw [pos] at greater
    refine ⟨fun lt => ?_, fun lt => ?_⟩
    · have := less.mpr lt
      omega
    · have := greater.mpr lt
      omega
  · rintro ⟨up, down⟩
    refine ⟨_, callCmp_keyed hx hy, ?_, ?_⟩
    · rw [neg]
      omega
    · rw [pos]
      omega

/-! ## One operation -/

/-- In reach of the list, the test of the search separates the keys below from the rest. -/
theorem separates_iff (stored : ∀ x ∈ l, Keyed K f x) (own : Keyed K f el) :
    Separates (keyOf K f) (fun key => int32 (sub32 key (keyOf K f el)) < 0) l (keyOf K f el) ↔
      InReach K f l el := by
  have test : ∀ x ∈ l, (int32 (sub32 (keyOf K f x) (keyOf K f el)) < 0 ↔ _) :=
    fun x mem => int32_sub32_neg (keyOf_lt (stored x mem)) (keyOf_lt own)
  constructor
  · rintro ⟨below, least⟩
    refine ⟨fun x mem less => ?_, fun x mem le smallest => ?_⟩
    · have holds := (test x mem).mp (below x mem less)
      omega
    · have fails := mt (test x mem).mpr (least x mem le smallest)
      omega
  · rintro ⟨below, above⟩
    refine ⟨fun x mem less => ?_, fun x mem le smallest holds => ?_⟩
    · exact (test x mem).mpr (.inl ⟨less, below x mem less⟩)
    · have far := (test x mem).mp holds
      have near := above x mem le smallest
      omega

/-- An array that compares with `f`, of elements that `f` can compare. -/
structure Comparable (K : KState) (f : CmpFunc) (s : ArrayRun Nat CmpFunc) : Prop where
  own : s.array.saCmp = some f
  keyed : ∀ x ∈ s.array.toList, Keyed K f x

theorem Comparable.insert (h : Comparable K f s) (keyed : Keyed K f el)
    (taken : ArrayStep (callCmp K) s (.insert el) s') : Comparable K f s' := by
  cases taken with
  | insert ran =>
      obtain ⟨k, -, list, -, -, -, same⟩ := SortedArray.insertSortedArray_returned ran
      refine ⟨same.trans h.own, fun x mem => ?_⟩
      rw [list] at mem
      rcases List.eq_or_mem_of_mem_insertIdx mem with rfl | old
      · exact keyed
      · exact h.keyed x old

theorem Comparable.remove (h : Comparable K f s)
    (taken : ArrayStep (callCmp K) s (.remove i) s') :
    Comparable K f s' ∧ s'.array.toList.Sublist s.array.toList := by
  cases taken with
  | remove shown ran =>
      obtain ⟨-, list, -, -, same⟩ := SortedArray.removeSortedArray_returned ran
      have rest : List.Sublist _ s.array.toList := List.eraseIdx_sublist s.array.toList i
      rw [← list] at rest
      exact ⟨⟨same.trans h.own, fun x mem => h.keyed x (rest.subset mem)⟩, rest⟩

/-- An insertion leaves the array in order exactly when the element is in reach. -/
theorem Comparable.ascending_iff (h : Comparable K f s) (ascending : Ascending K f s.array.toList)
    (keyed : Keyed K f el) (taken : ArrayStep (callCmp K) s (.insert el) s') :
    Ascending K f s'.array.toList ↔ InReach K f s.array.toList el := by
  cases taken with
  | insert ran =>
      obtain ⟨-, -, -, room, -⟩ := SortedArray.insertSortedArray_returned ran
      obtain ⟨a', k, same, sought, list, -⟩ :=
        SortedArray.insertSortedArray_sought
          (c := fun x => int32 (sub32 (keyOf K f x) (keyOf K f el))) h.own room
          fun x mem => callCmp_keyed (h.keyed x mem) keyed
      obtain rfl := Except.ok.inj (same.symm.trans ran)
      have self : ¬int32 (sub32 (keyOf K f el) (keyOf K f el)) < 0 := by
        rw [int32_sub32_neg (keyOf_lt keyed) (keyOf_lt keyed)]
        omega
      show List.Pairwise _ a'.toList ↔ _
      rw [list, ← separates_iff h.keyed keyed]
      exact Sought.insertIdx_sorted_iff
        (q := fun key => int32 (sub32 key (keyOf K f el)) < 0) ascending sought self

/-! ## Runs -/

/-- The insertions are of elements in reach. -/
def InsertsInReach (K : KState) (f : CmpFunc) (s : ArrayRun Nat CmpFunc) : ArrayOp Nat → Prop
  | .insert el => Keyed K f el ∧ InReach K f s.array.toList el
  | .remove _ => True

/-- What a run with such insertions keeps. -/
structure InKeyOrder (K : KState) (f : CmpFunc) (s : ArrayRun Nat CmpFunc) : Prop
    extends Comparable K f s where
  ascending : Ascending K f s.array.toList

theorem InKeyOrder.remove (h : InKeyOrder K f s)
    (taken : ArrayStep (callCmp K) s (.remove i) s') : InKeyOrder K f s' := by
  obtain ⟨comparable, rest⟩ := h.toComparable.remove taken
  exact ⟨comparable, h.ascending.sublist rest⟩

theorem InKeyOrder.step (h : InKeyOrder K f s) (reach : InsertsInReach K f s op)
    (taken : ArrayStep (callCmp K) s op s') : InKeyOrder K f s' := by
  cases op with
  | insert el =>
      obtain ⟨keyed, near⟩ := reach
      exact ⟨h.toComparable.insert keyed taken,
        (h.toComparable.ascending_iff h.ascending keyed taken).mpr near⟩
  | remove i => exact h.remove taken

/-- **The order of a sorted array.**  With either comparison function, the array is in ascending
order in every state of a run whose insertions are in reach; the next insertion keeps it so
exactly when its element is in reach too, and a removal always does.  The sign of a comparison
is right exactly for keys that are near to each other. -/
theorem sorted_array_ascending
    (run : Reaches (ArrayStep (callCmp K)) (InsertsInReach K f) (ArrayRun.start cells maxsize f) s) :
    Ascending K f s.array.toList ∧
      (∀ el s', Keyed K f el → ArrayStep (callCmp K) s (.insert el) s' →
        (Ascending K f s'.array.toList ↔ InReach K f s.array.toList el)) ∧
      (∀ i s', ArrayStep (callCmp K) s (.remove i) s' → Ascending K f s'.array.toList) ∧
      ∀ x y, Keyed K f x → Keyed K f y →
        (SignAgrees K f x y ↔
          (keyOf K f x < keyOf K f y → keyOf K f y - keyOf K f x ≤ 2147483648) ∧
            (keyOf K f y < keyOf K f x → keyOf K f x - keyOf K f y < 2147483648)) := by
  have start : InKeyOrder K f (ArrayRun.start cells maxsize f) := by
    refine ⟨⟨rfl, ?_⟩, List.Pairwise.nil⟩
    intro x mem
    cases mem
  have h : InKeyOrder K f s := run.invariant start fun _ _ _ h reach taken => h.step reach taken
  refine ⟨h.ascending, ?_, ?_, ?_⟩
  · intro el s' keyed taken
    exact h.toComparable.ascending_iff h.ascending keyed taken
  · intro i s' taken
    exact (h.remove taken).ascending
  · intro x y hx hy
    exact signAgrees_iff hx hy

end Keys

/-! ## Two elements -/

/-- An array of two cells with one element. -/
def oneElement (f : CmpFunc) (el : Nat) : ArrayRun Nat CmpFunc where
  array := {
    saArray := Function.update (fun _ => 0) 0 el, saSize := 1, saMaxsize := 2, saCmp := some f }
  inserted := el ::ₘ 0
  removed := 0

theorem insert_first (K : KState) (f : CmpFunc) (el : Nat) :
    ArrayStep (callCmp K) (ArrayRun.start (fun _ => 0) 2 f) (.insert el) (oneElement f el) :=
  .insert rfl

theorem insert_second {K : KState} {f : CmpFunc} {el el' : Nat} {c : Int}
    (called : callCmp K f el el' = .ok c) :
    ∃ s, ArrayStep (callCmp K) (oneElement f el) (.insert el') s ∧
      s.array.toList = if c < 0 then [el, el'] else [el', el] := by
  have room : (oneElement f el).array.saSize < (oneElement f el).array.saMaxsize := by
    show 1 < 2
    decide
  have total : ∀ x ∈ (oneElement f el).array.toList, callCmp K f x el' = .ok c := by
    intro x mem
    obtain rfl : x = el := List.mem_singleton.mp mem
    exact called
  obtain ⟨a', k, ran, sought, list, -⟩ :=
    SortedArray.insertSortedArray_sought (c := fun _ => c) rfl room total
  refine ⟨_, .insert ran, list.trans ?_⟩
  have le : k ≤ 1 := sought.le
  show [el].insertIdx k el' = _
  by_cases less : c < 0
  · have last : k = 1 := by
      by_contra other
      obtain rfl : k = 0 := by omega
      exact sought.stop el rfl less
    rw [if_pos less, last]
    rfl
  · have first : k = 0 := by
      by_contra other
      obtain rfl : k = 1 := by omega
      exact less (sought.before el List.mem_cons_self)
    rw [if_neg less, first]
    rfl

/-- Memory with the sizes 0x10 and 0x90000000 in the headers at 0x100 and 0x200. -/
def twoHeaders : KState where
  mem := fun a => if a = 0x108 then 0x10 else if a = 0x20B then 0x90 else 0
  paging := false
  dir := .zero
  bits := { frames := fun _ => 0, nframes := 0 }
  heapReady := false
  heap := {
    hIndex := SortedArray.place (fun _ => 0) 0 none
    hAddrStart := 0, hAddrEnd := 0, hAddrMax := 0, hSu := false, hRo := false }
  placementAddress := 0

/-- Two pointers of the kernel heap, the higher one first. -/
theorem heap_pointers_ascending : ∃ s : ArrayRun Nat CmpFunc,
    Reachable (ArrayStep (callCmp twoHeaders)) (ArrayRun.start (fun _ => 0) 2 .default) s ∧
      s.array.toList = [0xC0000000, 0xC0001000] ∧
      Ascending twoHeaders .default s.array.toList := by
  have called : callCmp twoHeaders .default 0xC0001000 0xC0000000 = .ok 0x1000 := rfl
  have low : Keyed twoHeaders .default 0xC0000000 := by
    show 0xC0000000 < 4294967296
    decide
  have high : Keyed twoHeaders .default 0xC0001000 := by
    show 0xC0001000 < 4294967296
    decide
  obtain ⟨s, second, list⟩ := insert_second called
  have run : Reaches (ArrayStep (callCmp twoHeaders)) (InsertsInReach twoHeaders .default)
      (ArrayRun.start (fun _ => 0) 2 .default) s := by
    refine .tail (.tail .refl ?_ (insert_first twoHeaders .default 0xC0001000)) ?_ second
    · refine ⟨high, fun x mem => ?_, fun x mem => ?_⟩
      · cases mem
      · cases mem
    · refine ⟨low, fun x mem => ?_, fun x mem => ?_⟩
      · obtain rfl : x = 0xC0001000 := List.mem_singleton.mp mem
        decide
      · obtain rfl : x = 0xC0001000 := List.mem_singleton.mp mem
        intro _ _
        decide
  exact ⟨s, run.reachable, list.trans (by decide), (sorted_array_ascending run).1⟩

/-- A second element with a greater key that does not compare so goes in front. -/
theorem descends_of_far {K : KState} {f : CmpFunc} {el el' : Nat} {c : Int}
    (called : callCmp K f el el' = .ok c) (not_below : 0 ≤ c) (less : keyOf K f el < keyOf K f el') :
    ∃ s, Reachable (ArrayStep (callCmp K)) (ArrayRun.start (fun _ => 0) 2 f) s ∧
      s.array.toList = [el', el] ∧ ¬Ascending K f s.array.toList := by
  obtain ⟨s, second, list⟩ := insert_second called
  rw [if_neg (by omega)] at list
  refine ⟨s, .tail (.single trivial (insert_first K f el)) trivial second, list, ?_⟩
  intro ascending
  rw [list] at ascending
  have le := List.rel_of_pairwise_cons ascending (List.mem_singleton_self el)
  omega

/-- A low pointer before one of the kernel heap, and a small size before one above 2 GiB: the
second goes in front. -/
theorem far_keys_descend :
    (∃ s, Reachable (ArrayStep (callCmp twoHeaders)) (ArrayRun.start (fun _ => 0) 2 .default) s ∧
        s.array.toList = [0xC0000000, 0x1000] ∧
        ¬Ascending twoHeaders .default s.array.toList) ∧
      keyOf twoHeaders .vmHeapHeader 0x100 = 0x10 ∧
      keyOf twoHeaders .vmHeapHeader 0x200 = 0x90000000 ∧
      ∃ s, Reachable (ArrayStep (callCmp twoHeaders)) (ArrayRun.start (fun _ => 0) 2 .vmHeapHeader)
          s ∧ s.array.toList = [0x200, 0x100] ∧
        ¬Ascending twoHeaders .vmHeapHeader s.array.toList := by
  have difference : int32 (sub32 0x1000 0xC0000000) = 0x40001000 := rfl
  have pointers : callCmp twoHeaders .default 0x1000 0xC0000000 = .ok 0x40001000 :=
    congrArg Except.ok difference
  have key : keyOf twoHeaders .vmHeapHeader 0x100 = 0x10 := by decide
  have key' : keyOf twoHeaders .vmHeapHeader 0x200 = 0x90000000 := by decide
  have small : Keyed twoHeaders .vmHeapHeader 0x100 := ⟨0x10, rfl⟩
  have large : Keyed twoHeaders .vmHeapHeader 0x200 := ⟨0x90000000, rfl⟩
  have sizes : callCmp twoHeaders .vmHeapHeader 0x100 0x200 = .ok 0x70000010 := by
    rw [callCmp_keyed small large, key, key']
    rfl
  refine ⟨?_, key, key', ?_⟩
  · exact descends_of_far pointers (by decide) (by decide)
  · exact descends_of_far sizes (by decide) (by rw [key, key']; decide)

end MiniKernel.Kernel
