/-
# Kernel.HeapInPlace -- an unaligned allocation that a hole serves

When some hole has room for a block and its tags, `alloc` does not grow the heap.
It takes the first such hole of the index, which gives way to the block and to
what is left behind it (`CarvedFrom`), and the index stays sorted.

The comparison of the index subtracts sizes as signed integers.  It orders them
as numbers because there are 4096 frames (`HeapInv.length_le`).
-/
import MiniKernel.Kernel.HeapRuns

namespace MiniKernel.Kernel

open Theory

set_option autoImplicit false

section InPlace

variable {K : KState} {bs : List Block}

/-- The first hole of the index with room for a block of `size` bytes and its tags. -/
def KState.firstHole (K : KState) (size : Nat) : Option Nat :=
  K.indexed.find? fun a => decide (size + 20 ≤ K.view.word (a + 8))

/-- Where the sum does not wrap, `find_smallest_hole` finds that hole. -/
theorem fit_eq_firstHole {size : Nat} (small : size + 20 < 4294967296) :
    K.fit size false = K.firstHole size := by
  have need : add32 (add32 size sizeofHeader) sizeofFooter = size + 20 := by
    unfold add32 sizeofHeader sizeofFooter
    omega
  rw [KState.fit, KState.firstHole, need]
  rfl

/-- `alloc(size, 0, heap)` returned `hole + 12`: the block was carved from the first hole
with room for it, in a heap that was not grown and is well-formed and sorted again. -/
structure AllocatedInPlace (K K' : KState) (bs bs' : List Block) (size hole : Nat) : Prop where
  first : K.firstHole size = some hole
  carved : CarvedFrom K K' bs bs' hole size
  same : SamePages K K'
  inv : HeapInv K' bs'
  footed : Footed K'.view bs'
  sorted : SortedBySize K'.view K'.indexed
  capacity : K'.heap.hIndex.saSize ≤ K'.heap.hIndex.saMaxsize

/-- An allocation that some hole has room for is served in place. -/
theorem allocated_in_place (h : HeapInv K bs) (footed : Footed K.view bs)
    (sorted : SortedBySize K.view K.indexed)
    (capacity : K.heap.hIndex.saSize ≤ K.heap.hIndex.saMaxsize) (n : Nat) {size : Nat}
    (room : ∃ hole ∈ K.indexed, size + 20 ≤ K.view.word (hole + 8)) :
    ∃ hole K' bs', alloc (n + 1) size false K = .ok (hole + 12, K') ∧
      AllocatedInPlace K K' bs bs' size hole := by
  have short := h.length_le
  have top := h.top
  obtain ⟨some_hole, listed, large⟩ := room
  have small := Mem.word_lt K.view (some_hole + 8)
  have need : add32 (add32 size sizeofHeader) sizeofFooter = size + 20 := by
    unfold add32 sizeofHeader sizeofFooter
    omega
  obtain ⟨hole, first⟩ : ∃ hole, K.firstHole size = some hole := by
    refine Option.isSome_iff_exists.mp (List.find?_isSome.mpr ⟨some_hole, listed, ?_⟩)
    simpa using large
  have fits : size + 20 ≤ K.view.word (hole + 8) := by
    simpa [KState.firstHole] using List.find?_some first
  obtain ⟨i, found, at_i⟩ := firstFit_of_fit ((fit_eq_firstHole (by omega)).trans first)
  have call : Program.wp (alloc (n + 1) size false) (fun p K' => p = hole + 12 ∧
      ∃ bs', AllocatedInPlace K K' bs bs' size hole) (fun _ => False) K := by
    rw [alloc, Program.wp_bind, wp_findSmallestHole h.sees (by omega) h.indexIn, found]
    dsimp only
    rw [need]
    refine wp_place_plain h at_i fits (fun filled => by omega)
      fun mem index bs' placed carvedFrom order => ⟨rfl, bs', ?_⟩
    refine ⟨first, carvedFrom, ⟨rfl, rfl, rfl, rfl, rfl, rfl⟩, placed.inv, carvedFrom.footed footed,
      order sorted h.small, carvedFrom.capacity capacity⟩
  obtain ⟨p, K', ran, rfl, bs', done⟩ := Program.wp_some call
  exact ⟨hole, K', bs', ran, done⟩

end InPlace

/-- A second block behind a first one, out of the hole that is left. -/
theorem second_block_in_place :
    ∃ K bs hole K' bs', alloc 1 50 false K = .ok (hole + 12, K') ∧
      AllocatedInPlace K K' bs bs' 50 hole := by
  have ran : ((([.alloc 100 false] : List HeapOp).foldlM
      (HeapState.nextSound Resize.any 1) bootHeap).map fun s =>
        decide (tags s.kernel.view s.kernel.heap.hAddrEnd 3 s.kernel.heap.hAddrStart =
            some [(0xC0081000, 0, 120), (0xC0081078, 1, 520072)] ∧
          TagsFooted s.kernel.view [(0xC0081000, 0, 120), (0xC0081078, 1, 520072)] ∧
          s.kernel.indexed = [0xC0081078] ∧ s.kernel.view.word 0xC0081080 = 520072 ∧
          s.kernel.heap.hIndex.saSize ≤ s.kernel.heap.hIndex.saMaxsize)) = some true := by
    decide +kernel
  obtain ⟨s, taken, shape⟩ := Option.map_eq_some_iff.mp ran
  obtain ⟨read, checked, indexed, size, capacity⟩ := of_decide_eq_true shape
  obtain ⟨bs, inv, footed, -⟩ := inv_of_run taken read checked
  have sorted : SortedBySize s.kernel.view s.kernel.indexed := by
    rw [indexed]
    exact List.pairwise_singleton _ _
  have room : ∃ hole ∈ s.kernel.indexed, 50 + 20 ≤ s.kernel.view.word (hole + 8) := by
    refine ⟨0xC0081078, ?_, ?_⟩
    · rw [indexed]
      exact List.mem_singleton_self _
    · rw [size]
      decide
  obtain ⟨hole, K', bs', call, done⟩ := allocated_in_place inv footed sorted capacity 0 room
  exact ⟨s.kernel, bs, hole, K', bs', call, done⟩

end MiniKernel.Kernel
