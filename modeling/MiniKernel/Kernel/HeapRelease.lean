/-
# Kernel.HeapRelease -- the pages that `contract` gives back

`contract` walks down from the last page of the heap and calls `free_frame` on
every page above the new size.  `contractCalls` lists these calls, and the run of
`contract` is the calls one after the other (`contract_eq`).

The page at the new size itself is not above it, and the mask of the rounding
drops every bit of the size but one, so that each size ends up at
`VM_HEAP_MIN_SIZE` or stays as it is.  Both together leave one length for which
the calls are the pages behind the new end: that of `VM_HEAP_MIN_SIZE`, where
there are none (`releasesTail_iff`).
-/
import MiniKernel.Kernel.HeapRuns
import MiniKernel.Kernel.HeapFields
import Mathlib.Data.List.Count

namespace MiniKernel.Kernel

open Theory VmPageDirectory

set_option autoImplicit false

/-! ## The calls -/

/-- `free_frame(get_page(a, 0, kernel_directory))` -/
def releasePage (a : Nat) : KernelM Unit := do
  let page ← lookupPage a
  freeFramePage page

/-- The values of `i` for which the loop of `contract` runs its body, for at most `n`
of them. -/
def releasedOffsets (newSize : Nat) : Nat → Nat → List Nat
  | 0, _ => []
  | n + 1, i => if newSize < i then i :: releasedOffsets newSize n (sub32 i 0x1000) else []

/-- The first value of `i` in `contract`. -/
def lastOffset (K : KState) : Nat := sub32 (sub32 K.heap.hAddrEnd K.heap.hAddrStart) 0x1000

/-- The pages `contract(o, heap)` calls `free_frame` on, in their order. -/
def contractCalls (K : KState) (o : Nat) : List Nat :=
  (releasedOffsets (contractSize o) (lastOffset K / 0x1000 + 1) (lastOffset K)).map
    (add32 K.heap.hAddrStart)

section Offsets

variable {newSize n i : Nat}

/-- The loop goes down page by page, without a wrap, and stops. -/
theorem releasedOffsets_count (low : 0x1000 ≤ newSize) (aligned : i % 0x1000 = 0)
    (small : i < 4294967296) (enough : i / 0x1000 ≤ n) (j : Nat) :
    (releasedOffsets newSize n i).count j =
      if newSize < j ∧ j ≤ i ∧ j % 0x1000 = 0 then 1 else 0 := by
  induction n generalizing i with
  | zero => rw [releasedOffsets, List.count_nil, if_neg (by omega)]
  | succ n ih =>
      rw [releasedOffsets]
      by_cases more : newSize < i
      · have next : sub32 i 0x1000 = i - 0x1000 := sub32_eq (by omega) small
        rw [if_pos more, List.count_cons, next, ih (by omega) (by omega) (by omega)]
        by_cases here : i = j
        · subst here
          rw [if_neg (by omega), beq_self_eq_true, if_pos rfl, if_pos ⟨more, Nat.le_refl _, aligned⟩]
        · have skip : (i == j) = false := by simpa using here
          rw [skip]
          by_cases inside : newSize < j ∧ j ≤ i ∧ j % 0x1000 = 0
          · rw [if_pos inside, if_pos (by omega)]
            rfl
          · rw [if_neg inside, if_neg (by omega)]
            rfl
      · rw [if_neg more, List.count_nil, if_neg (by omega)]

/-- More fuel makes no difference. -/
theorem releasedOffsets_fuel (low : 0x1000 ≤ newSize) (small : i < 4294967296) {m : Nat}
    (enough : i / 0x1000 ≤ n) (more : n ≤ m) :
    releasedOffsets newSize m i = releasedOffsets newSize n i := by
  induction n generalizing i m with
  | zero =>
      cases m with
      | zero => rfl
      | succ m =>
          have below : ¬newSize < i := by omega
          rw [releasedOffsets, releasedOffsets, if_neg below]
  | succ n ih =>
      obtain ⟨m, rfl⟩ : ∃ k, m = k + 1 := ⟨m - 1, by omega⟩
      rw [releasedOffsets, releasedOffsets]
      by_cases above : newSize < i
      · have next : sub32 i 0x1000 = i - 0x1000 := sub32_eq (by omega) small
        rw [if_pos above, if_pos above, next, ih (by omega) (by omega) (by omega)]
      · rw [if_neg above, if_neg above]

end Offsets

theorem releasePage_keeps (a : Nat) : Program.Keeps KState.heap (releasePage a) :=
  ((lookupPage_keeps a).of_id _).bind fun page => (freeFramePage_keeps page).map KState.heap

/-- The loop of `contract` is its calls. -/
theorem contractLoop_eq (newSize n i : Nat) (K : KState) :
    contractLoop newSize n i K =
      forM ((releasedOffsets newSize n i).map (add32 K.heap.hAddrStart)) releasePage K := by
  induction n generalizing i K with
  | zero => rfl
  | succ n ih =>
      rw [contractLoop, releasedOffsets]
      by_cases more : newSize < i
      · rw [if_pos more, if_pos more, List.map_cons, List.forM_cons]
        have body : (do
            let K ← get
            let page ← lookupPage (add32 K.heap.hAddrStart i)
            freeFramePage page
            contractLoop newSize n (sub32 i 0x1000) : KernelM Unit) K =
            (releasePage (add32 K.heap.hAddrStart i) >>= fun _ =>
              contractLoop newSize n (sub32 i 0x1000)) K := by
          simp only [releasePage, bind_assoc]
          rfl
        rw [body]
        simp only [bind, StateT.bind, Except.bind]
        cases ran : releasePage (add32 K.heap.hAddrStart i) K with
        | error e => rfl
        | ok r =>
            obtain ⟨⟨⟩, K₁⟩ := r
            have heap := (releasePage_keeps _).of_ok ran
            dsimp only
            rw [ih, heap]
      · rw [if_neg more, if_neg more]
        rfl

/-- On a page with an entry the call returns, and takes no entry away. -/
theorem releasePage_returns {K : KState} {a : Nat} (entry : (K.dir.page (pagePtr a)).isSome) :
    ∃ K', releasePage a K = .ok ((), K') ∧
      ∀ q, (K.dir.page q).isSome → (K'.dir.page q).isSome := by
  obtain ⟨v, at_a⟩ := Option.isSome_iff_exists.mp entry
  refine ⟨{ K with bits := (freeFrame K.bits v).1
                   dir := K.dir.setPage (pagePtr a) (freeFrame K.bits v).2 }, ?_, fun q held => ?_⟩
  · rw [releasePage]
    simp only [bind, StateT.bind, Except.bind, lookupPage_eq at_a, freeFramePage, at_a]
  · dsimp only
    rw [page_setPage]
    split
    · rw [at_a]
      rfl
    · exact held

theorem releasePages_return {pages : List Nat} {K : KState}
    (entries : ∀ a ∈ pages, (K.dir.page (pagePtr a)).isSome) :
    ∃ K', forM pages releasePage K = .ok ((), K') := by
  induction pages generalizing K with
  | nil => exact ⟨K, rfl⟩
  | cons a pages ih =>
      obtain ⟨K₁, first, keeps⟩ := releasePage_returns (entries a List.mem_cons_self)
      obtain ⟨K₂, rest⟩ := ih (K := K₁) fun b mem => keeps _ (entries b (List.mem_cons_of_mem _ mem))
      refine ⟨K₂, ?_⟩
      rw [List.forM_cons]
      simp only [bind, StateT.bind, Except.bind, first, rest]

/-! ## What `contract` should give back -/

/-- `contract(o, heap)`, with the result `R`: a page boundary from `o` up to the old
length, where the heap ends then; one call of `free_frame` for each page behind it and
none for another page.  The loop ends by its own condition. -/
structure ReleasesTail (K K' : KState) (o R : Nat) : Prop where
  aligned : R % 0x1000 = 0
  enough : o ≤ R
  shorter : K.heap.hAddrStart + R ≤ K.heap.hAddrEnd
  end_ : K'.heap.hAddrEnd = K.heap.hAddrStart + R
  calls : ∀ a, (contractCalls K o).count a =
    if K.heap.hAddrStart + R ≤ a ∧ a < K.heap.hAddrEnd ∧ a % 0x1000 = 0 then 1 else 0
  stops : ∀ n, lastOffset K / 0x1000 + 1 ≤ n →
    releasedOffsets (contractSize o) n (lastOffset K) =
      releasedOffsets (contractSize o) (lastOffset K / 0x1000 + 1) (lastOffset K)

section Released

variable {K : KState} {L : Nat}

theorem length_eq (ends : K.heap.hAddrEnd = K.heap.hAddrStart + L)
    (top : K.heap.hAddrEnd < 4294967296) : sub32 K.heap.hAddrEnd K.heap.hAddrStart = L := by
  rw [sub32_eq (by omega) top]
  omega

theorem lastOffset_eq (ends : K.heap.hAddrEnd = K.heap.hAddrStart + L) (page : 0x1000 ≤ L)
    (top : K.heap.hAddrEnd < 4294967296) : lastOffset K = L - 0x1000 := by
  rw [lastOffset, length_eq ends top, sub32_eq page (by omega)]

/-- `contract` is its calls, and the new end. -/
theorem contract_eq {K₁ : KState} {o : Nat}
    (less : o < sub32 K.heap.hAddrEnd K.heap.hAddrStart)
    (calls : forM (contractCalls K o) releasePage K = .ok ((), K₁)) :
    contract o K = .ok (contractSize o,
      { K₁ with heap := { K.heap with hAddrEnd := add32 K.heap.hAddrStart (contractSize o) } }) := by
  have loop : contractLoop (contractSize o) (lastOffset K / 0x1000 + 1) (lastOffset K) K =
      .ok ((), K₁) := by
    rw [contractLoop_eq]
    exact calls
  have heap : K₁.heap = K.heap := (contractLoop_keeps _ _ _).of_ok loop
  have run : Program.wp (contract o) (fun r K' => r = contractSize o ∧ K' =
      { K₁ with heap := { K.heap with hAddrEnd := add32 K.heap.hAddrStart (contractSize o) } })
      (fun _ => False) K := by
    rw [contract, Program.wp_bind, Program.wp_get, Program.wp_bind, wp_kassert]
    refine ⟨fun _ => ?_, fun fails => (fails less).elim⟩
    dsimp only
    rw [Program.wp_bind, ← lastOffset, Program.wp_of_ok loop, Program.wp_bind, Program.wp_modify,
      Program.wp_pure, heap]
    exact ⟨rfl, rfl⟩
  obtain ⟨r, K', ran, rfl, rfl⟩ := Program.wp_some run
  exact ran

/-- The page at the new size is not among the calls. -/
theorem contractCalls_count (start : K.heap.hAddrStart % 0x1000 = 0)
    (ends : K.heap.hAddrEnd = K.heap.hAddrStart + L) (page : 0x1000 ≤ L) (whole : L % 0x1000 = 0)
    (top : K.heap.hAddrEnd < 4294967296) (o a : Nat) :
    (contractCalls K o).count a =
      if K.heap.hAddrStart + contractSize o < a ∧ a < K.heap.hAddrEnd ∧ a % 0x1000 = 0 then 1
      else 0 := by
  have low : 0x1000 ≤ contractSize o :=
    Nat.le_trans (by decide) (vmHeapMinSize_le_contractSize o)
  have count := releasedOffsets_count (i := L - 0x1000) (n := (L - 0x1000) / 0x1000 + 1) low
    (by omega) (by omega) (by omega)
  rw [contractCalls, lastOffset_eq ends page top]
  generalize releasedOffsets (contractSize o) ((L - 0x1000) / 0x1000 + 1) (L - 0x1000) = offsets at *
  have plain : offsets.map (add32 K.heap.hAddrStart) = offsets.map (K.heap.hAddrStart + ·) := by
    refine List.map_congr_left fun j mem => add32_eq ?_
    have positive := List.count_pos_iff.mpr mem
    rw [count] at positive
    split at positive <;> omega
  rw [plain]
  by_cases above : K.heap.hAddrStart ≤ a
  · obtain ⟨j, rfl⟩ := Nat.exists_eq_add_of_le above
    rw [List.count_map_of_injective _ _ fun x y same => Nat.add_left_cancel same, count]
    by_cases inside : contractSize o < j ∧ j ≤ L - 0x1000 ∧ j % 0x1000 = 0
    · rw [if_pos inside, if_pos (by omega)]
    · rw [if_neg inside, if_neg (by omega)]
  · rw [if_neg (by omega), List.count_eq_zero]
    intro mem
    obtain ⟨j, -, rfl⟩ := List.mem_map.mp mem
    exact above (Nat.le_add_right _ _)

/-- `contract` releases the tail exactly when there is none. -/
theorem releasesTail_iff {o : Nat}
    (mapped : ∀ a, K.heap.hAddrStart ≤ a → a < K.heap.hAddrEnd → (K.dir.page (pagePtr a)).isSome)
    (start : K.heap.hAddrStart % 0x1000 = 0) (ends : K.heap.hAddrEnd = K.heap.hAddrStart + L)
    (whole : L % 0x1000 = 0) (top : K.heap.hAddrEnd < 4294967296) (less : o < L) :
    ∃ R K₁ K', forM (contractCalls K o) releasePage K = .ok ((), K₁) ∧ K'.dir = K₁.dir ∧
      K'.bits = K₁.bits ∧ contract o K = .ok (R, K') ∧
        (ReleasesTail K K' o R ↔ L = vmHeapMinSize) := by
  have page : 0x1000 ≤ L := by omega
  have count := contractCalls_count start ends page whole top o
  have entries : ∀ a ∈ contractCalls K o, (K.dir.page (pagePtr a)).isSome := by
    intro a mem
    have positive := List.count_pos_iff.mpr mem
    rw [count] at positive
    split at positive
    · exact mapped a (by omega) (by omega)
    · omega
  obtain ⟨K₁, calls⟩ := releasePages_return entries
  have ran := contract_eq (by rwa [length_eq ends top]) calls
  refine ⟨_, K₁, _, calls, ?_, ?_, ran, fun tail => ?_, fun least => ?_⟩
  · rfl
  · rfl
  · -- the page at the new end would have to be released
    have shorter := tail.shorter
    have aligned := tail.aligned
    have once := tail.calls (K.heap.hAddrStart + contractSize o)
    rw [count, if_neg (by omega)] at once
    have full : ¬K.heap.hAddrStart + contractSize o < K.heap.hAddrEnd := by
      intro inside
      rw [if_pos ⟨Nat.le_refl _, inside, by omega⟩] at once
      cases once
    have same : contractSize o = L := by omega
    have le := contractSize_le o
    have ge := vmHeapMinSize_le_contractSize o
    omega
  · subst least
    have size : contractSize o = vmHeapMinSize := contractSize_eq less
    rw [size] at count ⊢
    refine ⟨by decide, Nat.le_of_lt less, Nat.le_of_eq ends.symm, add32_eq (by omega), fun a => ?_,
      fun n enough => ?_⟩
    · rw [count, if_neg (by omega), if_neg (by omega)]
    · rw [lastOffset_eq ends page top] at enough ⊢
      exact releasedOffsets_fuel (Nat.le_trans (by decide) (vmHeapMinSize_le_contractSize o))
        (by omega) (by omega) enough

end Released

/-- A started heap has the bounds it was started with, and the pages of its region. -/
theorem started_bounds {K : KState} {start end_ max : Nat} {su ro : Bool} {s : HeapState}
    (region : RegionMapped K start end_) (started : Started K start end_ max su ro s) :
    s.kernel.heap.hAddrStart = start + 0x81000 ∧ s.kernel.heap.hAddrEnd = end_ ∧
      s.kernel.heap.hAddrMax = max ∧ s.kernel.dir = K.dir := by
  obtain ⟨-, dir, -, first, last, most⟩ := Program.wp_ok (wp_initHeap region max su ro) started.1
  exact ⟨first, last, most, dir⟩

/-- The pages of the started heap have frames. -/
theorem bootHeap_page {a : Nat} (h1 : 0xC0000000 ≤ a) (h2 : a < 0xC0100000) :
    ∃ v, bootHeap.kernel.dir.page (pagePtr a) = some v ∧ v.pFrame ≠ 0 := by
  obtain ⟨-, -, -, dir⟩ := started_bounds bootKState_regionMapped bootHeap_started
  rw [dir]
  exact bootKState_regionMapped.pages a h1 h2

/-- The started heap, cut to the least size. -/
def leastHeap : KState :=
  { bootHeap.kernel with
    heap := { bootHeap.kernel.heap with hAddrEnd := bootHeap.kernel.heap.hAddrStart + vmHeapMinSize } }

theorem leastHeap_dir : leastHeap.dir = bootHeap.kernel.dir := by
  simp only [leastHeap]

/-- A heap of the least size keeps all its pages. -/
theorem least_heap_releases_nothing :
    ∃ R K', contract 120 leastHeap = .ok (R, K') ∧ ReleasesTail leastHeap K' 120 R := by
  obtain ⟨start, end_, -, -⟩ := started_bounds bootKState_regionMapped bootHeap_started
  have mapped : ∀ a, 0xC0081000 ≤ a → a < 0xC0100000 →
      (leastHeap.dir.page (pagePtr a)).isSome := by
    intro a h1 h2
    rw [leastHeap_dir]
    obtain ⟨v, entry, -⟩ := bootHeap_page (by omega) h2
    exact Option.isSome_iff_exists.mpr ⟨v, entry⟩
  have least : vmHeapMinSize = 0x70000 := rfl
  have start' : leastHeap.heap.hAddrStart = 0xC0081000 := start
  have end' : leastHeap.heap.hAddrEnd = bootHeap.kernel.heap.hAddrStart + vmHeapMinSize := rfl
  rw [start] at end'
  obtain ⟨R, K₁, K', -, -, -, ran, exact_⟩ := releasesTail_iff (K := leastHeap) (L := vmHeapMinSize)
    (o := 120) (fun a h1 h2 => mapped a (by omega) (by omega)) (by rw [start'])
    (by rw [start', end']) (by decide) (by rw [end']; decide) (by decide)
  exact ⟨R, K', ran, exact_.mpr rfl⟩

/-- Cutting the started heap behind its first 120 bytes leaves the page at the new end
mapped. -/
theorem page_at_new_end_kept :
    ∃ R K', contract 120 bootHeap.kernel = .ok (R, K') ∧
      ¬ReleasesTail bootHeap.kernel K' 120 R := by
  obtain ⟨start, end_, -, -⟩ := started_bounds bootKState_regionMapped bootHeap_started
  have mapped : ∀ a, 0xC0081000 ≤ a → a < 0xC0100000 →
      (bootHeap.kernel.dir.page (pagePtr a)).isSome := by
    intro a h1 h2
    obtain ⟨v, entry, -⟩ := bootHeap_page (by omega) h2
    exact Option.isSome_iff_exists.mpr ⟨v, entry⟩
  obtain ⟨R, K₁, K', -, -, -, ran, exact_⟩ := releasesTail_iff (K := bootHeap.kernel) (L := 0x7F000)
    (o := 120) (fun a h1 h2 => mapped a (by omega) (by omega)) (by rw [start])
    (by rw [start, end_]) (by decide) (by rw [end_]; decide) (by decide)
  exact ⟨R, K', ran, fun tail => absurd (exact_.mp tail) (by decide)⟩

end MiniKernel.Kernel
