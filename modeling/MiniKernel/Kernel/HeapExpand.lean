/-
# Kernel.HeapExpand -- the pages that `expand` maps

Where the page tables exist, the loop of `expand` calls `alloc_frame` on each page
from the old end to the new one, with `h_su` for `is_kernel` and `h_ro` for
`is_writeable`.  The first flag means the same on both sides of the call.  The
second means the opposite: a page that gets a frame is writable when `h_ro` is
set (`wp_expandLoop_maps`).

So the pages have the permissions of the heap exactly when there is no page to
map (`expanded_iff`).  The rounding adds one more condition: a size below a page
is not rounded at all.
-/
import MiniKernel.Kernel.HeapRelease

namespace MiniKernel.Kernel

open Theory VmPageDirectory

set_option autoImplicit false

/-! ## Rounding -/

/-- What `expand` makes of a size, without the wrap: the next page boundary, from a
page on. -/
def roundedSize (newSize : Nat) : Nat :=
  if newSize < 0x1000 then newSize else newSize / 0x1000 * 0x1000 + 0x1000

theorem le_roundedSize (newSize : Nat) : newSize ≤ roundedSize newSize := by
  unfold roundedSize
  split <;> omega

theorem pageAlign_roundedSize {newSize : Nat} (fits : roundedSize newSize < 4294967296) :
    pageAlign newSize = roundedSize newSize := by
  unfold roundedSize at fits ⊢
  split at fits
  · rename_i small
    rw [if_pos small, pageAlign, if_neg]
    intro masked
    exact masked ((land_pageMask_eq_zero (by omega)).mpr small)
  · rename_i large
    rw [if_neg large, pageAlign_eq (by omega) fits]

/-! ## The loop -/

section Loop

variable {K : KState} {f : Nat → Bool → KernelM Nat}

/-- The loop of `expand` comes to the page `q`, from offset `i` on. -/
def Visits (start newSize i : Nat) (q : PagePtr) : Prop :=
  ∃ j, i ≤ j ∧ j < newSize ∧ j % 0x1000 = i % 0x1000 ∧ q = pagePtr (start + j)

theorem visits_step {start newSize i : Nat} {q : PagePtr} (more : i < newSize) :
    Visits start newSize i q ↔
      q = pagePtr (start + i) ∨ Visits start newSize (i + 0x1000) q := by
  constructor
  · rintro ⟨j, le, less, same, rfl⟩
    rcases Nat.eq_or_lt_of_le le with rfl | later
    · exact .inl rfl
    · exact .inr ⟨j, by omega, less, by omega, rfl⟩
  · rintro (rfl | ⟨j, le, less, same, rfl⟩)
    · exact ⟨i, Nat.le_refl i, more, rfl, rfl⟩
    · exact ⟨j, by omega, less, by omega, rfl⟩

/-- The loop does not come back. -/
theorem not_visits_again (start newSize i : Nat) :
    ¬Visits start newSize (i + 0x1000) (pagePtr (start + i)) := by
  rintro ⟨j, le, -, -, same⟩
  have page := Backed.pagePtr_inj same
  omega

/-- What `alloc_frame(p, su, ro)` makes of the entries of the pages in `visited`. -/
structure Allotted (su ro : Bool) (visited : PagePtr → Prop) (d d' : VmPageDirectory) : Prop where
  mapped : ∀ q v, visited q → d.page q = some v → v.pFrame = 0 →
    ∃ v', d'.page q = some v' ∧ v'.pPresent = true ∧ v'.pUser = !su ∧ v'.pRw = ro
  framed : ∀ q v, d.page q = some v → v.pFrame ≠ 0 → d'.page q = some v
  others : ∀ q, ¬visited q → d'.page q = d.page q

theorem Allotted.isSome {su ro : Bool} {visited : PagePtr → Prop} {d d' : VmPageDirectory}
    (h : Allotted su ro visited d d') {q : PagePtr} (entry : (d.page q).isSome) :
    (d'.page q).isSome := by
  obtain ⟨v, at_q⟩ := Option.isSome_iff_exists.mp entry
  by_cases held : v.pFrame ≠ 0
  · rw [h.framed q v at_q held]
    rfl
  · by_cases here : visited q
    · obtain ⟨v', at_q', -⟩ := h.mapped q v here at_q (by omega)
      rw [at_q']
      rfl
    · rwa [h.others q here]

/-- One page of `expand`. -/
theorem wp_expandPage_maps {i : Nat} (top : K.heap.hAddrStart + i < 4294967296)
    (entry : (K.dir.page (pagePtr (K.heap.hAddrStart + i))).isSome) :
    Program.wp (expandPage f i) (fun _ K' => K'.heap = K.heap ∧
      Allotted K.heap.hSu K.heap.hRo (· = pagePtr (K.heap.hAddrStart + i)) K.dir K'.dir)
      (fun _ => True) K := by
  obtain ⟨v, at_page⟩ := Option.isSome_iff_exists.mp entry
  have table : (K.dir.pdTables ((K.heap.hAddrStart + i) / 0x1000 / 1024)).isSome = true := by
    rw [page, Option.map_eq_some_iff] at at_page
    obtain ⟨t, at_t, -⟩ := at_page
    exact Option.isSome_iff_exists.mpr ⟨t, at_t⟩
  rw [expandPage, Program.wp_bind, Program.wp_get, add32_eq top, Program.wp_bind, kernelPage, getPage,
    Program.wp_bind, Program.wp_get, if_pos table, Program.wp_pure]
  have pages : ∀ x q, (K.dir.setPage (pagePtr (K.heap.hAddrStart + i)) x).page q =
      if q = pagePtr (K.heap.hAddrStart + i) then some x else K.dir.page q := by
    intro x q
    rw [page_setPage, at_page]
    rfl
  unfold Program.wp allocFramePage
  simp only [at_page]
  by_cases held : v.pFrame ≠ 0
  · rw [allocFrame, if_pos held]
    have same : ∀ q, (K.dir.setPage (pagePtr (K.heap.hAddrStart + i)) v).page q = K.dir.page q := by
      intro q
      rw [pages]
      split
      · rename_i here
        rw [here, at_page]
      · rfl
    refine ⟨rfl, fun q w here at_q none => ?_, fun q w at_q _ => ?_, fun q _ => same q⟩
    · rw [here, at_page] at at_q
      exact absurd none (Option.some.inj at_q ▸ held)
    · exact (same q).trans at_q
  · rw [allocFrame, if_neg held]
    dsimp only
    by_cases full : K.bits.firstFrame = 0xFFFFFFFF
    · rw [if_pos full]
      trivial
    · rw [if_neg full]
      refine ⟨rfl, fun q w here _ _ => ?_, fun q w at_q framed => ?_, fun q other => ?_⟩
      · exact ⟨_, (pages _ q).trans (if_pos here), rfl, rfl, rfl⟩
      · refine ((pages _ q).trans (if_neg fun here => ?_)).trans at_q
        rw [here, at_page] at at_q
        exact held (Option.some.inj at_q ▸ framed)
      · exact (pages _ q).trans (if_neg other)

/-- The loop of `expand`, with fuel for each page. -/
theorem wp_expandLoop_maps {newSize : Nat} (n i : Nat) (enough : newSize ≤ i + n * 0x1000)
    (top : K.heap.hAddrStart + newSize < 4294967296)
    (entries : ∀ q, Visits K.heap.hAddrStart newSize i q → (K.dir.page q).isSome) :
    Program.wp (expandLoop f newSize n i) (fun _ K' => K'.heap = K.heap ∧
      Allotted K.heap.hSu K.heap.hRo (Visits K.heap.hAddrStart newSize i) K.dir K'.dir)
      (fun _ => True) K := by
  induction n generalizing K i with
  | zero =>
      refine ⟨rfl, fun q v visited => ?_, fun _ _ at_q _ => at_q, fun _ _ => rfl⟩
      obtain ⟨j, le, less, -⟩ := visited
      omega
  | succ n ih =>
      rw [expandLoop, Program.wp_ite]
      refine ⟨fun more => ?_, fun done => ?_⟩
      · have here := entries _ ((visits_step more).mpr (.inl rfl))
        refine Program.wp_bind_of (wp_expandPage_maps (by omega) here) ?_
        rintro ⟨⟩ K₁ ⟨heap₁, first⟩
        refine Program.wp_mono (ih (i + 0x1000) (by omega) (by rw [heap₁]; exact top) ?_) ?_
          fun _ h => h
        · rw [heap₁]
          intro q visited
          exact first.isSome (entries q ((visits_step more).mpr (.inr visited)))
        · rw [heap₁]
          rintro _ K₂ ⟨heap₂, rest⟩
          refine ⟨heap₂, fun q v visited at_q none => ?_, fun q v at_q held => ?_, fun q out => ?_⟩
          · rcases (visits_step more).mp visited with rfl | later
            · obtain ⟨v', at_q', facts⟩ := first.mapped _ v rfl at_q none
              exact ⟨v', (rest.others _ (not_visits_again _ _ _)).trans at_q', facts⟩
            · have other : q ≠ pagePtr (K.heap.hAddrStart + i) := by
                rintro rfl
                exact not_visits_again _ _ _ later
              exact rest.mapped q v later ((first.others q other).trans at_q) none
          · exact rest.framed q v (first.framed q v at_q held) held
          · have away := fun h => out ((visits_step more).mpr h)
            exact (rest.others q fun h => away (.inr h)).trans (first.others q fun h => away (.inl h))
      · refine ⟨rfl, fun q v visited => ?_, fun _ _ at_q _ => at_q, fun _ _ => rfl⟩
        obtain ⟨j, le, less, -⟩ := visited
        omega

end Loop

/-! ## What `expand` should map -/

/-- The heap after `expand(new_size, heap)`. -/
structure Expanded (K K' : KState) (newSize : Nat) : Prop where
  long : newSize ≤ K'.heap.hAddrEnd - K.heap.hAddrStart
  aligned : (K'.heap.hAddrEnd - K.heap.hAddrStart) % 0x1000 = 0
  /-- A page without a frame got a new one, and the permissions of the heap. -/
  mapped : ∀ a v, K.heap.hAddrEnd ≤ a → a < K'.heap.hAddrEnd →
    K.dir.page (pagePtr a) = some v → v.pFrame = 0 →
    ∃ v', K'.dir.page (pagePtr a) = some v' ∧ v'.pPresent = true ∧ v'.pFrame ≠ 0 ∧
      (∀ q w, K.dir.page q = some w → w.pFrame ≠ v'.pFrame) ∧
      v'.pUser = !K.heap.hSu ∧ v'.pRw = !K.heap.hRo
  /-- The pages below keep their frames. -/
  below : ∀ a v, a < K.heap.hAddrEnd → K.dir.page (pagePtr a) = some v → v.pFrame ≠ 0 →
    ∃ v', K'.dir.page (pagePtr a) = some v' ∧ v'.pFrame = v.pFrame

/-- Every page of the new part has a frame already. -/
def NothingToMap (K : KState) (newSize : Nat) : Prop :=
  ∀ a v, K.heap.hAddrEnd ≤ a → a < K.heap.hAddrStart + roundedSize newSize →
    K.dir.page (pagePtr a) = some v → v.pFrame ≠ 0

section Expanded

variable {K K' : KState} {f : Nat → Bool → KernelM Nat} {newSize : Nat}

/-- `expand` rounds the size, maps the pages and moves the end. -/
theorem wp_expand_maps (longer : K.heap.hAddrEnd < K.heap.hAddrStart + newSize)
    (ordered : K.heap.hAddrStart ≤ K.heap.hAddrEnd)
    (fits : K.heap.hAddrStart + roundedSize newSize < 4294967296)
    (entries : ∀ a, K.heap.hAddrEnd ≤ a → a < K.heap.hAddrStart + roundedSize newSize →
      (K.dir.page (pagePtr a)).isSome) :
    Program.wp (expand f newSize) (fun _ K' =>
      K'.heap.hAddrEnd = K.heap.hAddrStart + roundedSize newSize ∧
      Allotted K.heap.hSu K.heap.hRo (Visits K.heap.hAddrStart (roundedSize newSize)
        (K.heap.hAddrEnd - K.heap.hAddrStart)) K.dir K'.dir) (fun _ => True) K := by
  have le := le_roundedSize newSize
  have size : pageAlign newSize = roundedSize newSize := pageAlign_roundedSize (by omega)
  have old : sub32 K.heap.hAddrEnd K.heap.hAddrStart = K.heap.hAddrEnd - K.heap.hAddrStart :=
    sub32_eq ordered (by omega)
  rw [expand, Program.wp_bind, Program.wp_get, Program.wp_bind, wp_kassert, old]
  refine ⟨fun _ => ?_, fun _ => trivial⟩
  dsimp only
  rw [Program.wp_bind, wp_kassert, size]
  refine ⟨fun _ => ?_, fun _ => trivial⟩
  generalize roundedSize newSize = rounded at *
  refine Program.wp_bind_of (wp_expandLoop_maps (rounded / 0x1000 + 1)
    (K.heap.hAddrEnd - K.heap.hAddrStart) (by omega) fits ?_) ?_
  rotate_left
  · rintro ⟨⟩ K₁ ⟨heap₁, allotted⟩
    rw [Program.wp_modify, heap₁, add32_eq fits]
    exact ⟨rfl, allotted⟩
  · rintro q ⟨j, from_, less, -, rfl⟩
    exact entries _ (by omega) (by omega)

/-- From a page on, the loop comes to every page behind the old end. -/
theorem visits_of_behind (start : K.heap.hAddrStart % 0x1000 = 0) (page : 0x1000 ≤ newSize)
    (ordered : K.heap.hAddrStart ≤ K.heap.hAddrEnd) {a : Nat} (behind : K.heap.hAddrEnd ≤ a)
    (inside : a < K.heap.hAddrStart + roundedSize newSize) :
    Visits K.heap.hAddrStart (roundedSize newSize) (K.heap.hAddrEnd - K.heap.hAddrStart)
      (pagePtr a) := by
  have whole : roundedSize newSize % 0x1000 = 0 := by
    rw [roundedSize, if_neg (by omega)]
    omega
  generalize roundedSize newSize = rounded at *
  refine ⟨a / 0x1000 * 0x1000 - K.heap.hAddrStart + K.heap.hAddrEnd % 0x1000, by omega, by omega,
    by omega, ?_⟩
  simp only [pagePtr, PagePtr.mk.injEq]
  omega

/-- `expand` maps what it adds with the permissions of the heap exactly when all of it
is mapped already and the size is a page at least. -/
theorem expanded_iff (start : K.heap.hAddrStart % 0x1000 = 0)
    (ordered : K.heap.hAddrStart ≤ K.heap.hAddrEnd)
    (longer : K.heap.hAddrEnd - K.heap.hAddrStart < newSize)
    (fits : K.heap.hAddrStart + roundedSize newSize ≤ K.heap.hAddrMax)
    (top : K.heap.hAddrMax < 4294967296)
    (entries : ∀ a, K.heap.hAddrEnd ≤ a → a < K.heap.hAddrStart + roundedSize newSize →
      (K.dir.page (pagePtr a)).isSome)
    (ran : expand f newSize K = .ok ((), K')) :
    Expanded K K' newSize ↔ 0x1000 ≤ newSize ∧ NothingToMap K newSize := by
  obtain ⟨end_, allotted⟩ := Program.wp_ok
    (wp_expand_maps (f := f) (by omega) ordered (by omega) entries) ran
  have le := le_roundedSize newSize
  constructor
  · intro expanded
    have page : 0x1000 ≤ newSize := by
      have aligned := expanded.aligned
      rw [end_, Nat.add_sub_cancel_left, roundedSize] at aligned
      split at aligned <;> omega
    refine ⟨page, fun a v behind inside at_a none => ?_⟩
    obtain ⟨v', at_a', -, -, -, -, writable⟩ :=
      expanded.mapped a v behind (by rw [end_]; exact inside) at_a none
    -- `alloc_frame` took `h_ro` for `is_writeable`
    obtain ⟨w, at_w, -, -, flag⟩ :=
      allotted.mapped _ v (visits_of_behind start page ordered behind inside) at_a none
    obtain rfl := Option.some.inj (at_a'.symm.trans at_w)
    rw [flag] at writable
    cases ro : K.heap.hRo <;> rw [ro] at writable <;> cases writable
  · rintro ⟨page, mapped⟩
    refine ⟨?_, ?_, fun a v behind inside at_a none => ?_, fun a v _ at_a held => ?_⟩
    · rw [end_]
      omega
    · rw [end_, Nat.add_sub_cancel_left, roundedSize, if_neg (by omega)]
      omega
    · rw [end_] at inside
      exact absurd none (mapped a v behind inside at_a)
    · exact ⟨v, allotted.framed _ v at_a held, rfl⟩

end Expanded

/-- The heap of the least size grows over the page that `contract` kept. -/
theorem kept_page_expanded :
    ∃ K', expand (alloc 1) 0x70014 leastHeap = .ok ((), K') ∧ Expanded leastHeap K' 0x70014 := by
  have ran : (expand (alloc 1) 0x70014 leastHeap).toOption.isSome = true := by decide +kernel
  obtain ⟨⟨⟨⟩, K'⟩, returns⟩ := Option.isSome_iff_exists.mp ran
  have ran := Program.ok_of_toOption returns
  obtain ⟨start, -, most, -⟩ := started_bounds bootKState_regionMapped bootHeap_started
  have rounded : roundedSize 0x70014 = 0x71000 := by decide
  have start' : leastHeap.heap.hAddrStart = 0xC0081000 := start
  have end' : leastHeap.heap.hAddrEnd = bootHeap.kernel.heap.hAddrStart + vmHeapMinSize := rfl
  have least : vmHeapMinSize = 0x70000 := rfl
  rw [start, least] at end'
  have most' : leastHeap.heap.hAddrMax = 0xCFFFF000 := most
  have framed : ∀ a, leastHeap.heap.hAddrEnd ≤ a →
      a < leastHeap.heap.hAddrStart + roundedSize 0x70014 →
      ∃ v, leastHeap.dir.page (pagePtr a) = some v ∧ v.pFrame ≠ 0 := by
    intro a h1 h2
    rw [leastHeap_dir]
    exact bootHeap_page (by omega) (by omega)
  refine ⟨K', ran, (expanded_iff (by rw [start']) (by omega) (by omega) (by omega) (by omega)
    (fun a h1 h2 => ?_) ran).mpr ⟨by decide, fun a v h1 h2 at_a => ?_⟩⟩
  · obtain ⟨v, entry, -⟩ := framed a h1 h2
    exact Option.isSome_iff_exists.mpr ⟨v, entry⟩
  · obtain ⟨w, entry, held⟩ := framed a h1 h2
    exact Option.some.inj (entry.symm.trans at_a) ▸ held

/-- A page that `expand` adds to the started heap, which is not read-only, cannot be
written. -/
theorem added_page_not_writable :
    ∃ K', expand (alloc 1) 0x7F014 bootHeap.kernel = .ok ((), K') ∧
      ¬Expanded bootHeap.kernel K' 0x7F014 := by
  have ran : (expand (alloc 1) 0x7F014 bootHeap.kernel).toOption.isSome = true := by decide +kernel
  obtain ⟨⟨⟨⟩, K'⟩, returns⟩ := Option.isSome_iff_exists.mp ran
  have ran := Program.ok_of_toOption returns
  obtain ⟨start, end_, most, dir⟩ := started_bounds bootKState_regionMapped bootHeap_started
  have rounded : roundedSize 0x7F014 = 0x80000 := by decide
  have zero : bootKState.dir.page (pagePtr 0xC0100000) = some VmPage.zero := by decide
  have entries : ∀ a, bootHeap.kernel.heap.hAddrEnd ≤ a →
      a < bootHeap.kernel.heap.hAddrStart + roundedSize 0x7F014 →
      (bootHeap.kernel.dir.page (pagePtr a)).isSome := by
    intro a h1 h2
    have same : pagePtr a = pagePtr 0xC0100000 := by
      simp only [pagePtr, PagePtr.mk.injEq]
      omega
    rw [dir, same, zero]
    rfl
  refine ⟨K', ran, fun expanded => ?_⟩
  obtain ⟨-, mapped⟩ := (expanded_iff (by rw [start]) (by omega) (by omega) (by omega) (by omega)
    entries ran).mp expanded
  refine mapped 0xC0100000 VmPage.zero (by omega) (by omega) ?_ rfl
  rw [dir]
  exact zero

end MiniKernel.Kernel
