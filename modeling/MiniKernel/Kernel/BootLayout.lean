/-
# Kernel.BootLayout -- what init_paging places where

The bitset, the page directory, the heap's table and the tables of the identity mapping follow
each other in memory, each block at the next page boundary.  `Booted` is the state of the
mapping loops: which frames are handed out, which tables there are and what is in them.
`get_page` and `alloc_frame` keep it, for as long as the frames have their bits in front of the
directory.
-/
import MiniKernel.Kernel.FlatPaging

namespace MiniKernel.Kernel.Flat

open Theory

set_option autoImplicit false

/-! ## Where things are placed -/

/-- `kernel_directory`, behind the 128 bytes of the bitset. -/
def directoryAt (placement : Nat) : Nat := nextPage (placement + 128)

/-- How many frames have their bits in front of the directory. -/
def frontFrames (placement : Nat) : Nat := 8 * (directoryAt placement - placement)

/-- The table of the kernel heap. -/
def heapTableAt (placement : Nat) : Nat := directoryAt placement + 0x3000

/-- Table `t` of the identity mapping. -/
def lowTableAt (placement t : Nat) : Nat := directoryAt placement + 0x5000 + 0x2000 * t

/-- `placement_address` with `k` tables of the identity mapping. -/
def placementAfter (placement k : Nat) : Nat :=
  if k = 0 then directoryAt placement + 0x4000 + sizeofHeap
  else directoryAt placement + 0x4000 + 0x2000 * k

/-- A placement address above `boundary` costs a table more. -/
def withTableFor (boundary end_ : Nat) : Nat := if boundary < end_ then end_ + 0x2000 else end_

/-- The final `placement_address`: a table for each 4 MiB that it reaches into. -/
def bootEnd (placement : Nat) : Nat :=
  withTableFor 0xC00000 (withTableFor 0x800000 (withTableFor 0x400000 (placementAfter placement 1)))

/-- The pages of the identity mapping. -/
def bootPages (placement : Nat) : Nat := bootEnd placement / 0x1000

/-- `pd_tables[t]`, with `k` tables of the identity mapping. -/
def tableOf (placement k t : Nat) : Nat :=
  if t = 768 then heapTableAt placement else if t < k then lowTableAt placement t else 0

/-- The entry of page `p`. -/
def entryAt (placement k p : Nat) : Nat := tableOf placement k (p / 1024) + 4 * (p % 1024)

/-- The `vm_page` of page `p` after `q` pages of the identity mapping and `h` pages of the
kernel heap. -/
def pageOf (q h p : Nat) : Nat :=
  if p < q then 4096 * p + 5
  else if 0xC0000 ≤ p ∧ p < 0xC0000 + h then 4096 * (q + (p - 0xC0000)) + 5
  else 0

/-- `init_paging` at work: `k` tables of the identity mapping, the frames below `n` handed out
in order, and `pages` in the tables. -/
structure Booted (placement k n : Nat) (pages : Nat → Nat) (s : FlatState) : Prop where
  frames : s.frames = placement
  nframes : s.nframes = 0x1000
  directory : s.kernelDirectory = directoryAt placement
  placed : s.placementAddress = placementAfter placement k
  set : ∀ f, f < n → s.mem.bit placement f = true
  clear : ∀ f, n ≤ f → f < 0x1000 → f < frontFrames placement → s.mem.bit placement f = false
  tables : ∀ t, t < 1024 → s.mem.word (directoryAt placement + 4 * t) = tableOf placement k t
  phys : ∀ t, t < 1024 → tableOf placement k t ≠ 0 →
    s.mem.word (directoryAt placement + 0x1000 + 4 * t) = tableOf placement k t ||| 0x7
  entries : ∀ p, p < 0x100000 → tableOf placement k (p / 1024) ≠ 0 →
    s.mem.word (entryAt placement k p) = pages p

section Placement

variable {placement k q t p p' : Nat}

theorem directoryAt_bounds (placement : Nat) :
    placement + 128 < directoryAt placement ∧ directoryAt placement % 0x1000 = 0 := by
  unfold directoryAt nextPage
  omega

theorem placementAfter_pos (pos : 0 < k) :
    placementAfter placement k = directoryAt placement + 0x4000 + 0x2000 * k :=
  if_neg (by omega)

theorem placementAfter_lt (low : directoryAt placement < 0xEFB000) (few : k ≤ 4) :
    placementAfter placement k < 0xF10000 := by
  unfold placementAfter sizeofHeap
  split_ifs <;> omega

theorem bootEnd_ge (placement : Nat) : directoryAt placement + 0x6000 ≤ bootEnd placement := by
  rw [bootEnd, placementAfter_pos (by decide)]
  unfold withTableFor
  split_ifs <;> omega

theorem lt_frontFrames {f : Nat} :
    f < frontFrames placement ↔ placement + f / 8 < directoryAt placement := by
  unfold frontFrames
  omega

/-- A kernel that fits leaves room for four tables. -/
theorem directoryAt_lt (fits : bootPages placement + 256 ≤ 0x1000) :
    directoryAt placement < 0xEFB000 := by
  have ends := bootEnd_ge placement
  unfold bootPages at fits
  omega

/-- The identity loop goes on while pages are left. -/
theorem lt_placement_iff (fits : bootPages placement + 256 ≤ 0x1000) (le : q ≤ bootPages placement) :
    q * 0x1000 < placementAfter placement ((q + 1023) / 1024) ↔ q < bootPages placement := by
  have aligned := (directoryAt_bounds placement).2
  have ends := bootEnd_ge placement
  by_cases first : q = 0
  · subst first
    rw [placementAfter, if_pos (by decide)]
    unfold bootPages
    omega
  · rw [placementAfter_pos (by omega)]
    rw [bootPages, bootEnd, placementAfter_pos (by decide)] at *
    unfold withTableFor at *
    split_ifs at * <;> omega

/-- Where the placement address ends, with all pages mapped. -/
theorem placementAfter_boot (fits : bootPages placement + 256 ≤ 0x1000) :
    placementAfter placement ((bootPages placement + 1023) / 1024) = bootEnd placement := by
  have aligned := (directoryAt_bounds placement).2
  have ends := bootEnd_ge placement
  rw [placementAfter_pos (by unfold bootPages; omega)]
  unfold bootPages bootEnd withTableFor at *
  rw [placementAfter_pos (by decide)] at *
  split_ifs at * <;> omega

/-- A table lies on a page of its own, behind the directory. -/
theorem tableOf_bounds (there : tableOf placement k t ≠ 0) :
    directoryAt placement + 0x3000 ≤ tableOf placement k t ∧
      tableOf placement k t + 0x1000 ≤ placementAfter placement k ∧
      tableOf placement k t % 0x1000 = 0 := by
  have aligned := (directoryAt_bounds placement).2
  unfold tableOf lowTableAt heapTableAt placementAfter at *
  split_ifs at * <;> omega

/-- Entries of two pages are two words. -/
theorem entryAt_off (there : tableOf placement k (p / 1024) ≠ 0)
    (there' : tableOf placement k (p' / 1024) ≠ 0) (other : p' ≠ p) :
    entryAt placement k p' + 4 ≤ entryAt placement k p ∨
      entryAt placement k p + 4 ≤ entryAt placement k p' := by
  unfold entryAt tableOf lowTableAt heapTableAt at *
  split_ifs at * <;> omega

theorem entryAt_ge (there : tableOf placement k (p / 1024) ≠ 0) :
    directoryAt placement + 0x3000 ≤ entryAt placement k p :=
  Nat.le_trans (tableOf_bounds there).1 (Nat.le_add_right _ _)

theorem nextPage_placementAfter : nextPage (placementAfter placement k) = lowTableAt placement k := by
  have aligned := (directoryAt_bounds placement).2
  unfold placementAfter lowTableAt nextPage sizeofHeap
  split_ifs <;> omega

/-- The tables of the identity mapping are there. -/
theorem tableOf_low (lt : t < k) : tableOf placement k t ≠ 0 := by
  unfold tableOf lowTableAt heapTableAt
  split_ifs <;> omega

/-- So is the heap's table. -/
theorem tableOf_heap {h : Nat} (lt : h < 1024) :
    tableOf placement k ((0xC0000 + h) / 1024) ≠ 0 := by
  rw [tableOf, if_pos (by omega)]
  unfold heapTableAt
  omega

/-- Before the identity mapping there is no other. -/
theorem tableOf_start (there : tableOf placement 0 t ≠ 0) : t = 768 := by
  unfold tableOf at there
  split_ifs at there with here
  · exact here
  · omega
  · exact absurd rfl there

theorem tableOf_succ (other : t ≠ k) : tableOf placement (k + 1) t = tableOf placement k t := by
  unfold tableOf
  split_ifs <;> first | rfl | omega

theorem tableOf_new (low : k < 768) : tableOf placement (k + 1) k = lowTableAt placement k := by
  rw [tableOf, if_neg (by omega), if_pos (by omega)]

end Placement

/-! ## Frames in order -/

section Steps

variable {placement k q h n p x y f : Nat} {s : FlatState} {m : Mem} {pages pages' : Nat → Nat}

/-- The memory after a page at `x` was given frame `n`. -/
def given (m : Mem) (placement n x : Nat) : Mem :=
  (m.setBit placement n).setWord x (4096 * n + 5)

theorem word_given (small : n < 4096) : (given m placement n x).word x = 4096 * n + 5 :=
  Mem.word_setWord (by omega)

theorem word_given_of_ne (before : placement + n / 8 < y) (off : y + 4 ≤ x ∨ x + 4 ≤ y) :
    (given m placement n x).word y = m.word y := by
  rw [given, Mem.word_setWord_of_disjoint off, Mem.word_setBit_of_disjoint (.inl before)]

theorem bit_given (before : placement + f / 8 < x) :
    (given m placement n x).bit placement f = (decide (f = n) || m.bit placement f) := by
  rw [given, Mem.bit_congr (Mem.setWord_apply_of_disjoint _ _ (.inl before)), Mem.bit_setBit]

namespace Booted

theorem tableSlot_eq (b : Booted placement k n pages s) (low : directoryAt placement < 0xEFB000)
    (small : x < 1024) : tableSlot s x = directoryAt placement + 4 * x := by
  rw [Flat.tableSlot_eq (by rw [b.directory]; omega) small, b.directory]

theorem physSlot_eq (b : Booted placement k n pages s) (low : directoryAt placement < 0xEFB000)
    (small : x < 1024) : physSlot s x = directoryAt placement + 0x1000 + 4 * x := by
  rw [Flat.physSlot_eq (by rw [b.directory]; omega) small, b.directory]

/-- `get_page` on a page with a table. -/
theorem getPage_mapped (b : Booted placement k n pages s) (low : directoryAt placement < 0xEFB000)
    (few : k ≤ 4) (page : p < 0x100000) (there : tableOf placement k (p / 1024) ≠ 0)
    (create : Bool) : getPage (p * 0x1000) create s = .ok (entryAt placement k p, s) := by
  have number : p * 0x1000 / 0x1000 = p := by omega
  have slot : s.mem.word (tableSlot s (p / 1024)) = tableOf placement k (p / 1024) := by
    rw [b.tableSlot_eq low (by omega), b.tables _ (by omega)]
  have bounds := tableOf_bounds there
  have ends := placementAfter_lt low few
  have ran := getPage_present s (p * 0x1000) create
    (by rw [number, slot]; exact there)
  rw [ran, number, slot, add32_eq (by omega)]
  rfl

/-- `alloc_frame` hands out the next frame, as long as its bit lies in front of the directory. -/
theorem allocFrame_next (b : Booted placement k n pages s)
    (low : directoryAt placement < 0xEFB000) (small : n < 0x1000)
    (front : n < frontFrames placement) (page : p < 0x100000)
    (there : tableOf placement k (p / 1024) ≠ 0) (free : pages p = 0)
    (next : ∀ p', pages' p' = if p' = p then 4096 * n + 5 else pages p') :
    ∃ s', allocFrame (entryAt placement k p) false false s = .ok ((), s') ∧
      Booted placement k (n + 1) pages' s' := by
  have bounds := directoryAt_bounds placement
  have before := lt_frontFrames.mp front
  have behind := entryAt_ge there
  have ran := allocFrame_takes (s := s) (p := entryAt placement k p) (n := n) b.nframes
    (by rw [b.frames]; omega) small (by rw [b.frames]; exact b.set)
    (by rw [b.frames]; exact b.clear n (Nat.le_refl n) small front)
    (by rw [b.frames]; omega) (by rw [b.entries p page there, free])
  have same : s.mem.setBit s.frames n = s.mem.setBit placement n := by rw [b.frames]
  rw [same] at ran
  refine ⟨{ s with mem := given s.mem placement n (entryAt placement k p) }, ran,
    b.frames, b.nframes, b.directory, b.placed, ?_, ?_, ?_, ?_, ?_⟩
  · intro f lt
    show (given s.mem placement n _).bit placement f = true
    rw [bit_given (by omega)]
    by_cases here : f = n
    · simp [here]
    · rw [b.set f (by omega), Bool.or_true]
  · intro f le lt front'
    have before' := lt_frontFrames.mp front'
    have other : f ≠ n := by omega
    show (given s.mem placement n _).bit placement f = false
    rw [bit_given (by omega), b.clear f (by omega) lt front']
    simp [other]
  · intro t lt
    rw [← b.tables t lt]
    exact word_given_of_ne (by omega) (by omega)
  · intro t lt table
    rw [← b.phys t lt table]
    exact word_given_of_ne (by omega) (by omega)
  · intro p' page' there'
    rw [next]
    by_cases here : p' = p
    · rw [if_pos here, here]
      exact word_given small
    · have behind' := entryAt_ge there'
      rw [if_neg here, ← b.entries p' page' there']
      exact word_given_of_ne (by omega) (entryAt_off there there' here)

/-- A word off the new table and its two slots is what it was. -/
theorem word_withTable_of_ne (b : Booted placement k n pages s)
    (low : directoryAt placement < 0xEFB000) (few : k < 1024)
    (table : x + 4 ≤ lowTableAt placement k ∨ lowTableAt placement k + 0x1000 ≤ x)
    (slot : x + 4 ≤ directoryAt placement + 4 * k ∨ directoryAt placement + 4 * k + 4 ≤ x)
    (phys : x + 4 ≤ directoryAt placement + 0x1000 + 4 * k ∨
      directoryAt placement + 0x1000 + 4 * k + 4 ≤ x) :
    (withTable s k (lowTableAt placement k)).word x = s.mem.word x := by
  rw [← b.physSlot_eq low few] at phys
  rw [← b.tableSlot_eq low few] at slot
  rw [withTable, Mem.word_setWord_of_disjoint phys, Mem.word_setWord_of_disjoint slot,
    Mem.word_zeroBytes_outside table]

/-- The frames in front of the directory are not touched by a new table. -/
theorem bit_withTable (b : Booted placement k n pages s) (low : directoryAt placement < 0xEFB000)
    (few : k < 1024) (front : f < frontFrames placement) :
    (withTable s k (lowTableAt placement k)).bit placement f = s.mem.bit placement f := by
  have before := lt_frontFrames.mp front
  have above : lowTableAt placement k = directoryAt placement + 0x5000 + 0x2000 * k := rfl
  apply Mem.bit_congr
  rw [withTable, b.tableSlot_eq low few, b.physSlot_eq low few,
    Mem.setWord_apply_of_disjoint _ _ (by omega), Mem.setWord_apply_of_disjoint _ _ (by omega),
    Mem.zeroBytes_outside (by omega)]

/-- The tables and their entries, with one table more. -/
theorem withTable_keeps (b : Booted placement k n pages s) (low : directoryAt placement < 0xEFB000)
    (few : k < 4) (front : n ≤ frontFrames placement) (empty : ∀ p, p / 1024 = k → pages p = 0) :
    Booted placement (k + 1) n pages { s with
      mem := withTable s k (lowTableAt placement k)
      placementAddress := lowTableAt placement k + 0x1000 } := by
  have above : lowTableAt placement k = directoryAt placement + 0x5000 + 0x2000 * k := rfl
  have new : tableOf placement (k + 1) k = lowTableAt placement k := tableOf_new (by omega)
  have small : k < 1024 := by omega
  refine ⟨b.frames, b.nframes, b.directory, ?_, ?_, ?_, ?_, ?_, ?_⟩
  · show lowTableAt placement k + 0x1000 = _
    rw [placementAfter_pos (Nat.succ_pos k)]
    omega
  · intro f lt
    exact (b.bit_withTable low small (by omega)).trans (b.set f lt)
  · intro f le lt before
    exact (b.bit_withTable low small before).trans (b.clear f le lt before)
  · intro t lt
    show (withTable s k (lowTableAt placement k)).word _ = _
    by_cases here : t = k
    · rw [here, new, withTable, b.physSlot_eq low small, b.tableSlot_eq low small,
        Mem.word_setWord_of_disjoint (by omega), Mem.word_setWord (by omega)]
    · rw [tableOf_succ here, ← b.tables t lt]
      exact b.word_withTable_of_ne low small (by omega) (by omega) (by omega)
  · intro t lt there
    show (withTable s k (lowTableAt placement k)).word _ = _
    by_cases here : t = k
    · have word : lowTableAt placement k ||| 0x7 < 2 ^ 32 :=
        Nat.or_lt_two_pow (by omega) (by decide)
      rw [here, new, withTable, b.physSlot_eq low small, Mem.word_setWord word]
    · rw [tableOf_succ here] at there ⊢
      rw [← b.phys t lt there]
      exact b.word_withTable_of_ne low small (by omega) (by omega) (by omega)
  · intro p page there
    show (withTable s k (lowTableAt placement k)).word _ = _
    by_cases here : p / 1024 = k
    · rw [empty p here, entryAt, here, new, withTable, b.physSlot_eq low small,
        b.tableSlot_eq low small, Mem.word_setWord_of_disjoint (by omega),
        Mem.word_setWord_of_disjoint (by omega), Mem.word_zeroBytes_inside (by omega) (by omega)]
    · rw [tableOf_succ here] at there
      have same : entryAt placement (k + 1) p = entryAt placement k p := by
        rw [entryAt, tableOf_succ here, entryAt]
      have bounds := tableOf_bounds there
      have behind := entryAt_ge there
      have inside : entryAt placement k p + 4 ≤ lowTableAt placement k := by
        unfold entryAt placementAfter sizeofHeap at *
        split_ifs at bounds <;> omega
      rw [same, ← b.entries p page there]
      exact b.word_withTable_of_ne low small (.inl inside) (by omega) (by omega)

/-- `get_page` on the first page of the next 4 MiB. -/
theorem getPage_new (b : Booted placement k n pages s) (low : directoryAt placement < 0xEFB000)
    (few : k < 4) (front : n ≤ frontFrames placement) (empty : ∀ p, p / 1024 = k → pages p = 0) :
    ∃ s', getPage (1024 * k * 0x1000) true s = .ok (entryAt placement (k + 1) (1024 * k), s') ∧
      Booted placement (k + 1) n pages s' := by
  have bounds := directoryAt_bounds placement
  have number : 1024 * k * 0x1000 / 0x1000 = 1024 * k := by omega
  have table : 1024 * k / 1024 = k := by omega
  have entry : entryAt placement (k + 1) (1024 * k) =
      lowTableAt placement k + 4 * (1024 * k % 1024) := by
    rw [entryAt, table, tableOf_new (by omega)]
  have missing : s.mem.word (tableSlot s k) = 0 := by
    rw [b.tableSlot_eq low (by omega), b.tables k (by omega), tableOf, if_neg (by omega),
      if_neg (by omega)]
  have ends := placementAfter_lt low (show k ≤ 4 by omega)
  have least : directoryAt placement ≤ placementAfter placement k := by
    unfold placementAfter
    split_ifs <;> omega
  have ran := getPage_creates s (1024 * k * 0x1000)
    (by rw [number, table]; exact missing) (by rw [b.placed]; omega) (by rw [b.placed]; omega)
    (by rw [b.directory]; omega) (by omega)
  rw [number, table, b.placed, nextPage_placementAfter, ← entry] at ran
  exact ⟨_, ran, b.withTable_keeps low few front empty⟩

end Booted

end Steps

/-! ## Up to the loops -/

section Start

variable {placement n j : Nat} {s : FlatState}

/-- The state before the heap's table: the bitset and the directory. -/
def directoryState (m : Mem) (placement : Nat) : FlatState where
  mem := (m.zeroBytes placement 128).zeroBytes (directoryAt placement) sizeofDirectory
  placementAddress := directoryAt placement + sizeofDirectory
  frames := placement
  nframes := 0x1000
  kernelDirectory := directoryAt placement

/-- The state with the heap's table. -/
def heapTableState (m : Mem) (placement : Nat) : FlatState :=
  { directoryState m placement with
    mem := withTable (directoryState m placement) 768 (heapTableAt placement)
    placementAddress := heapTableAt placement + 0x1000 }

/-- The state before frames are handed out. -/
def bootState (m : Mem) (placement : Nat) : FlatState :=
  { heapTableState m placement with
    mem := (heapTableState m placement).mem.zeroBytes (heapTableState m placement).placementAddress
      sizeofHeap
    placementAddress := (heapTableState m placement).placementAddress + sizeofHeap }

/-- The body of the loop that hands out the frames of the kernel heap. -/
def mapHeapPage (i : Nat) : FlatM Unit := do
  let p ← getPage i false
  allocFrame p false false

/-- The loops of `init_paging` that hand out frames. -/
def mappingLoops (fuel : Nat) : FlatM Unit := do
  identityLoop fuel 0
  forHeapPages mapHeapPage (vmKernHeapInitialSize / 0x1000) vmKernHeapStart

/-- With the heap's table there, the first loop only looks. -/
theorem heapPages_there (there : s.mem.word (tableSlot s 768) ≠ 0) (pages : j + n = 256) :
    forHeapPages (fun i => do let _ ← getPage i true) n (vmKernHeapStart + j * 0x1000) s =
      .ok ((), s) := by
  induction n generalizing j with
  | zero => rfl
  | succ n ih =>
      have table : (vmKernHeapStart + j * 0x1000) / 0x1000 / 1024 = 768 := by
        unfold vmKernHeapStart
        omega
      have next : vmKernHeapStart + j * 0x1000 + 0x1000 = vmKernHeapStart + (j + 1) * 0x1000 := by
        omega
      have look := getPage_present s (vmKernHeapStart + j * 0x1000) true
        (by rw [table]; exact there)
      rw [forHeapPages, Program.bind_run_ok (Program.bind_run_ok look), next]
      exact ih (by omega)

/-- The first loop creates the heap's table, with the first of its pages. -/
theorem heapPages_first (m : Mem) (low : directoryAt placement < 0xEFB000) :
    forHeapPages (fun i => do let _ ← getPage i true) (vmKernHeapInitialSize / 0x1000)
      vmKernHeapStart (directoryState m placement) = .ok ((), heapTableState m placement) := by
  have bounds := directoryAt_bounds placement
  have directory : (directoryState m placement).kernelDirectory + 0x2000 < 4294967296 := by
    show directoryAt placement + _ < _
    omega
  have aligned : nextPage (directoryAt placement + sizeofDirectory) = heapTableAt placement := by
    unfold nextPage sizeofDirectory heapTableAt
    omega
  have missing : (directoryState m placement).mem.word
      (tableSlot (directoryState m placement) 768) = 0 := by
    rw [tableSlot_eq directory (by decide)]
    exact Mem.word_zeroBytes_inside (Nat.le_add_right _ _)
      (by show directoryAt placement + _ + 4 ≤ directoryAt placement + 0x2004; omega)
  have table := getPage_creates (directoryState m placement) vmKernHeapStart
    missing (by show 0x1000 ≤ directoryAt placement + 0x2004; omega)
    (by show directoryAt placement + 0x2004 + _ < _; omega) directory (by decide)
  rw [show (directoryState m placement).placementAddress = directoryAt placement + sizeofDirectory
    from rfl, aligned] at table
  have there : (heapTableState m placement).mem.word
      (tableSlot (heapTableState m placement) 768) ≠ 0 := by
    have read := tableSlot_withTable directory (show 768 < 1024 by decide)
      (show heapTableAt placement < 4294967296 by unfold heapTableAt; omega)
    simp only [tableSlot, heapTableState] at read ⊢
    rw [read]
    unfold heapTableAt
    omega
  have pages : vmKernHeapInitialSize / 0x1000 = 255 + 1 := by decide
  rw [pages, forHeapPages, Program.bind_run_ok (Program.bind_run_ok table)]
  exact heapPages_there (j := 1) there (by decide)

/-- `init_paging` up to its mapping loops. -/
theorem initPaging_start (placed : s.placementAddress = placement) (kernel : 0x1000 ≤ placement)
    (low : directoryAt placement < 0xEFB000) (fuel : Nat) :
    initPaging fuel s = mappingLoops fuel (bootState s.mem placement) := by
  subst placed
  have bounds := directoryAt_bounds s.placementAddress
  have bitset := kmalloc_plain { s with nframes := 0x1000 } 128
    (by dsimp only; omega)
  have directory := kmalloc_aligned { s with
      mem := s.mem.zeroBytes s.placementAddress 128
      placementAddress := s.placementAddress + 128
      frames := s.placementAddress
      nframes := 0x1000 } sizeofDirectory
    (by dsimp only; omega) (by dsimp only; unfold sizeofDirectory; omega)
  have heap := kmalloc_plain (heapTableState s.mem s.placementAddress) sizeofHeap
    (by show heapTableAt s.placementAddress + 0x1000 + 36 < _; unfold heapTableAt; omega)
  have words : indexFromBit (0x1000000 / 0x1000) = 128 := by decide
  have read : ∀ t : FlatState, (get : FlatM FlatState) t = .ok (t, t) := fun _ => rfl
  have wrote : ∀ f (t : FlatState), (modify f : FlatM Unit) t = .ok ((), f t) := fun _ _ => rfl
  rw [initPaging, Program.bind_run_ok (wrote _ _), Program.bind_run_ok (read _), words,
    Program.bind_run_ok bitset]
  dsimp only
  rw [Program.bind_run_ok (wrote _ _), Program.bind_run_ok directory]
  dsimp only
  rw [Program.bind_run_ok (wrote _ _)]
  exact (Program.bind_run_ok (heapPages_first s.mem low)).trans (Program.bind_run_ok heap)

/-- The memory before frames are handed out. -/
theorem bootState_mem (m : Mem) (low : directoryAt placement < 0xEFB000) :
    (bootState m placement).mem = ((((((m.zeroBytes placement 128).zeroBytes
      (directoryAt placement) 0x2004).zeroBytes (heapTableAt placement) 0x1000).setWord
      (directoryAt placement + 3072) (heapTableAt placement)).setWord
      (directoryAt placement + 7168) (heapTableAt placement ||| 0x7)).zeroBytes
      (heapTableAt placement + 0x1000) sizeofHeap) := by
  have directory : (directoryState m placement).kernelDirectory = directoryAt placement := rfl
  have slot := tableSlot_eq (s := directoryState m placement) (t := 768)
    (by rw [directory]; omega) (by decide)
  have phys := physSlot_eq (s := directoryState m placement) (t := 768)
    (by rw [directory]; omega) (by decide)
  simp only [bootState, heapTableState, withTable, slot, phys, directory]
  rfl

theorem bootState_booted (m : Mem) (low : directoryAt placement < 0xEFB000)
    (free : ∀ f, f < 0x1000 → m.bit placement f = false) :
    Booted placement 0 0 (pageOf 0 0) (bootState m placement) := by
  have none : ∀ p, pageOf 0 0 p = 0 := by
    intro p
    rw [pageOf, if_neg (by omega), if_neg (by omega)]
  have bounds := directoryAt_bounds placement
  have above : heapTableAt placement = directoryAt placement + 0x3000 := rfl
  have heap : sizeofHeap = 36 := rfl
  refine ⟨rfl, rfl, rfl, ?_, fun f lt => absurd lt (Nat.not_lt_zero f), ?_, ?_, ?_, ?_⟩
  · show heapTableAt placement + 0x1000 + sizeofHeap = placementAfter placement 0
    rw [placementAfter, if_pos rfl]
    omega
  · intro f _ lt front
    have before := lt_frontFrames.mp front
    rw [bootState_mem m low, Mem.bit, Mem.zeroBytes_outside (by omega),
      Mem.setWord_apply_of_disjoint _ _ (by omega), Mem.setWord_apply_of_disjoint _ _ (by omega),
      Mem.zeroBytes_outside (by omega), Mem.zeroBytes_outside (by omega)]
    by_cases inside : placement + f / 8 < placement + 128
    · rw [Mem.zeroBytes_inside (by omega) inside]
      exact Nat.zero_testBit _
    · rw [Mem.zeroBytes_outside (by omega)]
      exact free f lt
  · intro t lt
    rw [bootState_mem m low, Mem.word_zeroBytes_outside (by omega),
      Mem.word_setWord_of_disjoint (by omega)]
    by_cases here : t = 768
    · rw [tableOf, if_pos here, here, Mem.word_setWord (by omega)]
    · rw [Mem.word_setWord_of_disjoint (by omega), Mem.word_zeroBytes_outside (by omega),
        Mem.word_zeroBytes_inside (by omega) (by omega), tableOf, if_neg here, if_neg (by omega)]
  · intro t lt there
    have here := tableOf_start there
    have word : heapTableAt placement ||| 0x7 < 2 ^ 32 := Nat.or_lt_two_pow (by omega) (by decide)
    rw [here, tableOf, if_pos rfl, bootState_mem m low, Mem.word_zeroBytes_outside (by omega),
      Mem.word_setWord word]
  · intro p page there
    have here := tableOf_start there
    rw [none, entryAt, here, tableOf, if_pos rfl, bootState_mem m low,
      Mem.word_zeroBytes_outside (by omega), Mem.word_setWord_of_disjoint (by omega),
      Mem.word_setWord_of_disjoint (by omega), Mem.word_zeroBytes_inside (by omega) (by omega)]

end Start

end MiniKernel.Kernel.Flat
