/-
# Kernel.HeapIndex -- what the loops over the hole index compute

One rule for each operation on `h_index`, in terms of the list it stores: the
first hole that fits, the endmost header, the place of a header, and the list
after an insertion or a removal.  Sizes are read from the headers, so the rules
ask that the stored addresses lie in the range that is seen.
-/
import MiniKernel.Kernel.HeapBlocks

namespace MiniKernel.Kernel

open Theory

set_option autoImplicit false

/-- The addresses in the index. -/
def KState.indexed (K : KState) : List Nat := K.heap.hIndex.toList

/-- The state with another index. -/
def KState.setIndex (K : KState) (index : SortedArray Nat CmpFunc) : KState :=
  { K with heap := { K.heap with hIndex := index } }

/-- The index of the first hole in the list that fits. -/
def firstFit (m : Mem) (size : Nat) (pageAlign : Bool) (l : List Nat) : Option Nat :=
  l.findIdx? fun h => holeFits size pageAlign h (m.word (h + 8))

/-- The stored headers lie in `[lo, hi)`. -/
def KState.IndexIn (K : KState) (lo hi : Nat) : Prop := ∀ h ∈ K.indexed, lo ≤ h ∧ h + 12 ≤ hi

section Rules

variable {K : KState} {lo hi : Nat} {m : Mem} {E : Stop → Prop}

theorem wp_lookupIndex {i h : Nat} (at_i : K.indexed[i]? = some h) {Q : Nat → KState → Prop} :
    Program.wp (lookupIndex i) Q E K ↔ Q h K := by
  rw [KState.indexed, SortedArray.getElem?_toList] at at_i
  split at at_i
  · rename_i inside
    refine Program.wp_of_ok ?_
    rw [lookupIndex, SortedArray.lookupSortedArray_ok inside, Option.some.inj at_i]
    rfl
  · cases at_i

theorem length_indexed : K.indexed.length = K.heap.hIndex.saSize := by
  simp [KState.indexed]

theorem mem_indexed {i h : Nat} (at_i : K.indexed[i]? = some h) : h ∈ K.indexed :=
  List.mem_of_getElem? at_i

/-! ## The searches -/

theorem wp_findFrom (sees : Sees K lo hi m) (top : hi ≤ 4294967296) (inside : K.IndexIn lo hi)
    {size : Nat} {pageAlign : Bool} {Q : Option Nat → KState → Prop} (n i : Nat)
    (left : i + n = K.indexed.length) :
    Program.wp (findFrom size pageAlign n i) Q E K ↔
      Q ((firstFit m size pageAlign (K.indexed.drop i)).map (· + i)) K := by
  induction n generalizing i with
  | zero =>
      rw [List.drop_eq_nil_of_le (by omega)]
      rfl
  | succ n ih =>
      have here : i < K.indexed.length := by omega
      have at_i : K.indexed[i]? = some K.indexed[i] := List.getElem?_eq_getElem here
      obtain ⟨h1, h2⟩ := inside _ (mem_indexed at_i)
      rw [findFrom, Program.wp_bind, wp_lookupIndex at_i, Program.wp_bind, wp_hhSize sees top h1 h2,
        List.drop_eq_getElem_cons here, firstFit, List.findIdx?_cons]
      by_cases fits : holeFits size pageAlign K.indexed[i] (m.word (K.indexed[i] + 8)) = true
      · simp [fits]
      · rw [if_neg fits, if_neg fits, ih (i + 1) (by omega), Option.map_map]
        have shift : (fun k => k + i) ∘ (fun k => k + 1) = fun k => k + (i + 1) := by
          funext k
          simp only [Function.comp_apply]
          omega
        rw [shift]
        rfl

/-- `find_smallest_hole` returns the first hole that fits. -/
theorem wp_findSmallestHole (sees : Sees K lo hi m) (top : hi ≤ 4294967296)
    (inside : K.IndexIn lo hi) {size : Nat} {pageAlign : Bool} {Q : Option Nat → KState → Prop} :
    Program.wp (findSmallestHole size pageAlign) Q E K ↔
      Q (firstFit m size pageAlign K.indexed) K := by
  rw [findSmallestHole, Program.wp_bind, Program.wp_get,
    wp_findFrom sees top inside _ 0 (by rw [Nat.zero_add, length_indexed])]
  simp

theorem wp_endmostFrom {Q : Option Nat → KState → Prop} (n i : Nat) (idx : Option Nat) (value : Nat)
    (left : i + n = K.indexed.length) (positive : ∀ h ∈ K.indexed, 0 < h)
    (best : ∀ j < i, ∀ h, K.indexed[j]? = some h → h ≤ value)
    (start : idx = none → i = 0 ∧ value = 0) (held : ∀ k, idx = some k → K.indexed[k]? = some value)
    (empty : K.indexed = [] → Q none K)
    (found : ∀ k h, K.indexed[k]? = some h → (∀ x ∈ K.indexed, x ≤ h) → Q (some k) K) :
    Program.wp (endmostFrom n i idx value) Q E K := by
  induction n generalizing i idx value with
  | zero =>
      cases idx with
      | none =>
          obtain ⟨rfl, rfl⟩ := start rfl
          exact empty (List.eq_nil_of_length_eq_zero (by omega))
      | some k =>
          refine found k value (held k rfl) fun x mem => ?_
          obtain ⟨j, hj, rfl⟩ := List.getElem_of_mem mem
          exact best j (by omega) _ (List.getElem?_eq_getElem hj)
  | succ n ih =>
      have here : i < K.indexed.length := by omega
      have at_i : K.indexed[i]? = some K.indexed[i] := List.getElem?_eq_getElem here
      rw [endmostFrom, Program.wp_bind, wp_lookupIndex at_i, Program.wp_ite]
      refine ⟨fun more => ?_, fun less => ?_⟩
      · refine ih (i + 1) (some i) _ (by omega) (fun j hj h at_j => ?_) (by simp)
          (fun k hk => Option.some.inj hk ▸ at_i)
        rcases Nat.lt_succ_iff_lt_or_eq.mp hj with before | rfl
        · exact Nat.le_of_lt (Nat.lt_of_le_of_lt (best j before h at_j) more)
        · exact Nat.le_of_eq (Option.some.inj (at_j.symm.trans at_i))
      · refine ih (i + 1) idx value (by omega) (fun j hj h at_j => ?_) (fun none => ?_) held
        · rcases Nat.lt_succ_iff_lt_or_eq.mp hj with before | rfl
          · exact best j before h at_j
          · have := Option.some.inj (at_j.symm.trans at_i)
            omega
        · obtain ⟨-, rfl⟩ := start none
          exact absurd (positive _ (mem_indexed at_i)) less

/-- The endmost header is the largest address in the index. -/
theorem wp_endmostHeader {Q : Option Nat → KState → Prop} (positive : ∀ h ∈ K.indexed, 0 < h)
    (empty : K.indexed = [] → Q none K)
    (found : ∀ k h, K.indexed[k]? = some h → (∀ x ∈ K.indexed, x ≤ h) → Q (some k) K) :
    Program.wp endmostHeader Q E K := by
  rw [endmostHeader, Program.wp_bind, Program.wp_get]
  exact wp_endmostFrom _ 0 none 0 (by rw [Nat.zero_add, length_indexed]) positive (by simp) (by simp)
    (by simp) empty found

theorem wp_searchFrom {header : Nat} {Q : Nat → KState → Prop} (n i : Nat)
    (left : i + n = K.indexed.length)
    (before : ∀ j < i, K.indexed[j]? ≠ some header)
    (found : ∀ k, K.indexed[k]? = some header → Q k K)
    (missing : header ∉ K.indexed → Q K.indexed.length K) :
    Program.wp (searchFrom header n i) Q E K := by
  induction n generalizing i with
  | zero =>
      have last : i = K.indexed.length := by omega
      rw [searchFrom, Program.wp_pure, last]
      refine missing fun mem => ?_
      obtain ⟨j, hj, at_j⟩ := List.getElem_of_mem mem
      exact before j (by omega) (by rw [List.getElem?_eq_getElem hj, at_j])
  | succ n ih =>
      have here : i < K.indexed.length := by omega
      have at_i : K.indexed[i]? = some K.indexed[i] := List.getElem?_eq_getElem here
      rw [searchFrom, Program.wp_bind, wp_lookupIndex at_i, Program.wp_ite]
      refine ⟨fun other => ?_, fun same => ?_⟩
      · refine ih (i + 1) (by omega) fun j hj => ?_
        rcases Nat.lt_succ_iff_lt_or_eq.mp hj with less | rfl
        · exact before j less
        · rw [at_i]
          simpa using other
      · rw [Program.wp_pure]
        exact found i (by rw [at_i, not_not.mp same])

/-- The search for a header ends at it, or at the end of the index. -/
theorem wp_searchIndex {header : Nat} {Q : Nat → KState → Prop}
    (found : ∀ k, K.indexed[k]? = some header → Q k K)
    (missing : header ∉ K.indexed → Q K.heap.hIndex.saSize K) :
    Program.wp (searchIndex header) Q E K := by
  rw [searchIndex, Program.wp_bind, Program.wp_get]
  exact wp_searchFrom _ 0 (by rw [Nat.zero_add, length_indexed]) (by simp) found
    (by rw [length_indexed]; exact missing)

/-! ## The updates -/

theorem wp_removeIndex {i h : Nat} (at_i : K.indexed[i]? = some h) {Q : Unit → KState → Prop}
    (post : ∀ index, index.toList = K.indexed.eraseIdx i →
      index.saCmp = K.heap.hIndex.saCmp → index.saMaxsize = K.heap.hIndex.saMaxsize →
      Q () (K.setIndex index)) : Program.wp (removeIndex i) Q E K := by
  have inside : i < K.heap.hIndex.saSize := by
    rw [← length_indexed]
    exact (List.getElem?_eq_some_iff.mp at_i).1
  obtain ⟨index, ran, list, -, maxsize, cmp⟩ := SortedArray.removeSortedArray_spec inside
  have removed : removeIndex i K = .ok ((), K.setIndex index) := by
    rw [removeIndex, ran]
    rfl
  exact (Program.wp_of_ok removed).mpr (post index list cmp maxsize)

/-- What `vm_heap_header_cmp` makes of two sizes. -/
def sizeCmp (x y : Nat) : Int := int32 (sub32 x y)

theorem callCmp_ok (sees : Sees K lo hi m) (top : hi ≤ 4294967296) {a b : Nat} (ha : lo ≤ a)
    (ha' : a + 12 ≤ hi) (hb : lo ≤ b) (hb' : b + 12 ≤ hi) :
    callCmp K .vmHeapHeader a b = .ok (sizeCmp (m.word (a + 8)) (m.word (b + 8))) := by
  simp [callCmp, vmHeapHeaderCmp, add32_eq (by omega : a + 8 < 4294967296),
    add32_eq (by omega : b + 8 < 4294967296), sees.peek32 (by omega : lo ≤ a + 8) (by omega),
    sees.peek32 (by omega : lo ≤ b + 8) (by omega), bind, Except.bind, sizeCmp]

/-- An insertion before the first header that does not compare below; it stops
when the index is full, and for no other reason. -/
theorem wp_insertIndex (sees : Sees K lo hi m) (top : hi ≤ 4294967296) (inside : K.IndexIn lo hi)
    (cmp : K.heap.hIndex.saCmp = some .vmHeapHeader) {h : Nat} (h1 : lo ≤ h) (h2 : h + 12 ≤ hi)
    {Q : Unit → KState → Prop}
    (full : K.heap.hIndex.saMaxsize ≤ K.heap.hIndex.saSize → E (.panic (.assertion .hasRoom)))
    (post : K.heap.hIndex.saSize < K.heap.hIndex.saMaxsize → ∀ index k, k ≤ K.indexed.length → index.toList = K.indexed.insertIdx k h →
      (∀ i, (hi : i < K.indexed.length) → i < k →
        sizeCmp (m.word (K.indexed[i] + 8)) (m.word (h + 8)) < 0) →
      ((hk : k < K.indexed.length) →
        ¬sizeCmp (m.word (K.indexed[k] + 8)) (m.word (h + 8)) < 0) →
      index.saCmp = K.heap.hIndex.saCmp → index.saMaxsize = K.heap.hIndex.saMaxsize →
      Q () (K.setIndex index)) : Program.wp (insertIndex h) Q E K := by
  by_cases room : K.heap.hIndex.saSize < K.heap.hIndex.saMaxsize
  · obtain ⟨index, k, ran, le, below, stop, list, -, maxsize, same⟩ :=
      SortedArray.insertSortedArray_spec
        (c := fun x => sizeCmp (m.word (x + 8)) (m.word (h + 8))) cmp room
        (fun x mem => callCmp_ok sees top (inside x mem).1 (inside x mem).2 h1 h2)
    have inserted : insertIndex h K = .ok ((), K.setIndex index) := by
      rw [insertIndex, ran]
      rfl
    exact (Program.wp_of_ok inserted).mpr (post room index k le list below stop same maxsize)
  · refine (Program.wp_of_error ?_).mpr (full (Nat.le_of_not_lt room))
    rw [insertIndex, SortedArray.insertSortedArray_full cmp room]
    rfl

end Rules

end MiniKernel.Kernel
