/-
# Kernel.BootIdentity -- the mapping that init_paging builds

The identity loop of `init_paging` runs up to `placement_address`, which `get_page` moves
while it runs, and relies on `first_frame` to hand out the frames in order.  Both loops keep
`Booted` from page to page, and what they leave is the mapping that the boot is for
(`IdentityMapped`).
-/
import MiniKernel.Kernel.BootLayout

namespace MiniKernel.Kernel.Flat

open Theory

set_option autoImplicit false

/-! ## The mapping in memory -/

namespace FlatState

/-- `kernel_directory->pd_tables[t]` -/
def table (s : FlatState) (t : Nat) : Nat := s.mem.word (tableSlot s t)

/-- `kernel_directory->pd_tblphys[t]` -/
def tblphys (s : FlatState) (t : Nat) : Nat := s.mem.word (physSlot s t)

/-- The `vm_page` of page `q`. -/
def entry (s : FlatState) (q : Nat) : Nat :=
  s.mem.word (add32 (s.table (q / 1024)) (4 * (q % 1024)))

/-- Page `q` has a table, and is present in it. -/
def Present (s : FlatState) (q : Nat) : Prop :=
  q < 0x100000 ∧ s.table (q / 1024) ≠ 0 ∧ field (s.entry q) 0 1 = 1

def frameOf (s : FlatState) (q : Nat) : Nat := field (s.entry q) 12 20

end FlatState

/-- What the mapping is for, at the time paging is switched on. -/
structure IdentityMapped (s : FlatState) : Prop where
  identity : ∀ q, q * 0x1000 < s.placementAddress → s.Present q ∧ s.frameOf q = q
  heap : ∀ q, 0xC0000 ≤ q → q < 0xC0100 → s.Present q ∧ s.mem.bit s.frames (s.frameOf q) = true ∧
    ∀ q', s.Present q' → q' ≠ q → s.frameOf q' ≠ s.frameOf q
  tables : ∀ t, t < 1024 → s.table t ≠ 0 → s.table t + 0x1000 ≤ s.placementAddress ∧
    s.tblphys t / 0x1000 * 0x1000 = s.table t
  directory : s.kernelDirectory + sizeofDirectory ≤ s.placementAddress

/-! ## The loops, up to a frame -/

section Loops

variable {placement q h n : Nat} {s : FlatState}

/-- The next page of the identity mapping has no frame yet. -/
theorem pageOf_next (low : q ≤ 0xC0000) : pageOf q 0 q = 0 := by
  rw [pageOf, if_neg (Nat.lt_irrefl q), if_neg (by omega)]

/-- Nor has the next page of the heap. -/
theorem pageOf_next_heap (low : q ≤ 0xC0000) : pageOf q h (0xC0000 + h) = 0 := by
  rw [pageOf, if_neg (by omega), if_neg (by omega)]

theorem pageOf_identity (p : Nat) :
    pageOf (q + 1) 0 p = if p = q then 4096 * q + 5 else pageOf q 0 p := by
  unfold pageOf
  split_ifs <;> omega

theorem pageOf_heap (low : q ≤ 0xC0000) (p : Nat) :
    pageOf q (h + 1) p = if p = 0xC0000 + h then 4096 * (q + h) + 5 else pageOf q h p := by
  by_cases here : p = 0xC0000 + h
  · rw [if_pos here, pageOf, if_neg (by omega), if_pos (by omega), here, Nat.add_sub_cancel_left]
  · have bound : (0xC0000 ≤ p ∧ p < 0xC0000 + (h + 1)) ↔ 0xC0000 ≤ p ∧ p < 0xC0000 + h := by omega
    rw [if_neg here, pageOf, pageOf]
    simp only [bound]

theorem next_page (small : q < 0x2000) : add32 (q * 0x1000) 0x1000 = (q + 1) * 0x1000 := by
  have word : q * 0x1000 + 0x1000 < 4294967296 := by omega
  rw [add32_eq word, Nat.succ_mul]

theorem identityLoop_succ (fuel i : Nat) (s : FlatState) :
    identityLoop (fuel + 1) i s =
      (if i < s.placementAddress then do
        let p ← getPage i true
        allocFrame p false false
        identityLoop fuel (add32 i 0x1000)
      else pure () : FlatM Unit) s := rfl

/-- Every page of the identity mapping finds its table, or creates it. -/
theorem identity_table (b : Booted placement ((q + 1023) / 1024) q (pageOf q 0) s)
    (fits : bootPages placement + 256 ≤ 0x1000) (lt : q < bootPages placement)
    (front : q ≤ frontFrames placement) :
    ∃ s', getPage (q * 0x1000) true s = .ok (entryAt placement (q / 1024 + 1) q, s') ∧
      Booted placement (q / 1024 + 1) q (pageOf q 0) s' := by
  have low := directoryAt_lt fits
  by_cases first : q % 1024 = 0
  · have table : (q + 1023) / 1024 = q / 1024 := by omega
    have whole : 1024 * (q / 1024) = q := by omega
    rw [table] at b
    have empty : ∀ p, p / 1024 = q / 1024 → pageOf q 0 p = 0 := by
      intro p there
      unfold pageOf
      rw [if_neg (by omega), if_neg (by omega)]
    obtain ⟨s', ran, b'⟩ := b.getPage_new low (by omega) front empty
    rw [whole] at ran
    exact ⟨s', ran, b'⟩
  · have table : (q + 1023) / 1024 = q / 1024 + 1 := by omega
    rw [table] at b
    exact ⟨s, b.getPage_mapped low (by omega) (by omega) (tableOf_low (Nat.lt_succ_self _)) true, b⟩

/-- One turn of the identity loop, on a frame whose bit lies in front of the directory. -/
theorem identityLoop_turn (b : Booted placement ((q + 1023) / 1024) q (pageOf q 0) s)
    (fits : bootPages placement + 256 ≤ 0x1000) (lt : q < bootPages placement)
    (front : q < frontFrames placement) :
    ∃ s', (∀ fuel, identityLoop (fuel + 1) (q * 0x1000) s =
        identityLoop fuel ((q + 1) * 0x1000) s') ∧
      Booted placement ((q + 1 + 1023) / 1024) (q + 1) (pageOf (q + 1) 0) s' := by
  have low := directoryAt_lt fits
  have table : (q + 1 + 1023) / 1024 = q / 1024 + 1 := by omega
  obtain ⟨s₁, got, b₁⟩ := identity_table b fits lt (Nat.le_of_lt front)
  obtain ⟨s₂, gave, b₂⟩ := b₁.allocFrame_next low (by omega) front (by omega)
    (tableOf_low (Nat.lt_succ_self _)) (pageOf_next (by omega)) pageOf_identity
  refine ⟨s₂, fun fuel => ?_, by rw [table]; exact b₂⟩
  have goes : q * 0x1000 < s.placementAddress := by
    rw [b.placed]
    exact (lt_placement_iff fits (Nat.le_of_lt lt)).mpr lt
  rw [identityLoop_succ, if_pos goes, Program.bind_run_ok got, Program.bind_run_ok gave,
    next_page (by omega)]

/-- The identity loop goes on up to any page whose frame lies in front of the directory. -/
theorem identityLoop_reaches {pages j : Nat} (fits : bootPages placement + 256 ≤ 0x1000)
    (le : pages ≤ bootPages placement) (front : pages ≤ frontFrames placement)
    (b : Booted placement ((q + 1023) / 1024) q (pageOf q 0) s) (left : q + j = pages) :
    ∃ s', (∀ fuel, identityLoop (fuel + j) (q * 0x1000) s =
        identityLoop fuel (pages * 0x1000) s') ∧
      Booted placement ((pages + 1023) / 1024) pages (pageOf pages 0) s' := by
  induction j generalizing q s with
  | zero =>
      have same : q = pages := left
      subst same
      exact ⟨s, fun _ => rfl, b⟩
  | succ j ih =>
      obtain ⟨s₁, turn, b₁⟩ := identityLoop_turn b fits (by omega) (by omega)
      obtain ⟨s₂, reaches, b₂⟩ := ih b₁ (by omega)
      exact ⟨s₂, fun fuel => (turn (fuel + j)).trans (reaches fuel), b₂⟩

/-- With all pages mapped the identity loop is done. -/
theorem identityLoop_done {fuel : Nat} (fits : bootPages placement + 256 ≤ 0x1000)
    (b : Booted placement ((bootPages placement + 1023) / 1024) (bootPages placement)
      (pageOf (bootPages placement) 0) s) :
    identityLoop (fuel + 1) (bootPages placement * 0x1000) s = .ok ((), s) := by
  have stops : ¬ bootPages placement * 0x1000 < s.placementAddress := by
    rw [b.placed, lt_placement_iff fits (Nat.le_refl _)]
    exact Nat.lt_irrefl _
  rw [identityLoop_succ, if_neg stops]
  rfl

/-- The entry of a heap page, in the table that `init_paging` created first. -/
theorem heap_table {k : Nat} (b : Booted placement k n (pageOf q h) s)
    (low : directoryAt placement < 0xEFB000) (few : k ≤ 4) (lt : h < 256) :
    getPage (vmKernHeapStart + h * 0x1000) false s =
      .ok (entryAt placement k (0xC0000 + h), s) := by
  have address : vmKernHeapStart + h * 0x1000 = (0xC0000 + h) * 0x1000 := by
    unfold vmKernHeapStart
    omega
  rw [address]
  exact b.getPage_mapped low few (by omega) (tableOf_heap (by omega)) false

/-- One turn of the loop over the kernel heap. -/
theorem heapLoop_turn {k : Nat} (b : Booted placement k (q + h) (pageOf q h) s)
    (low : directoryAt placement < 0xEFB000) (few : k ≤ 4) (lt : h < 256) (small : q + h < 0x1000)
    (front : q + h < frontFrames placement) :
    ∃ s', mapHeapPage (vmKernHeapStart + h * 0x1000) s = .ok ((), s') ∧
      Booted placement k (q + (h + 1)) (pageOf q (h + 1)) s' := by
  obtain ⟨s', gave, b'⟩ := b.allocFrame_next low small front (by omega)
    (tableOf_heap (by omega)) (pageOf_next_heap (by omega)) (pageOf_heap (by omega))
  exact ⟨s', (Program.bind_run_ok (heap_table b low few lt)).trans gave, b'⟩

theorem heapLoop_reaches {k pages j : Nat} (low : directoryAt placement < 0xEFB000) (few : k ≤ 4)
    (le : pages ≤ 256) (small : q + pages ≤ 0x1000) (front : q + pages ≤ frontFrames placement)
    (b : Booted placement k (q + h) (pageOf q h) s) (left : h + j = pages) :
    ∃ s', (∀ n, forHeapPages mapHeapPage (n + j) (vmKernHeapStart + h * 0x1000) s =
        forHeapPages mapHeapPage n (vmKernHeapStart + pages * 0x1000) s') ∧
      Booted placement k (q + pages) (pageOf q pages) s' := by
  induction j generalizing h s with
  | zero =>
      have same : h = pages := left
      subst same
      exact ⟨s, fun _ => rfl, b⟩
  | succ j ih =>
      obtain ⟨s₁, turn, b₁⟩ := heapLoop_turn b low few (by omega) (by omega) (by omega)
      obtain ⟨s₂, reaches, b₂⟩ := ih b₁ (by omega)
      have next : vmKernHeapStart + h * 0x1000 + 0x1000 = vmKernHeapStart + (h + 1) * 0x1000 := by
        omega
      refine ⟨s₂, fun n => ?_, b₂⟩
      rw [← Nat.add_assoc, forHeapPages, Program.bind_run_ok turn, next]
      exact reaches n

end Loops

/-! ## The mapping, when the loops are done -/

section Mapping

variable {placement k n p x : Nat} {s : FlatState} {pages : Nat → Nat}

theorem field_present (x : Nat) : field (4096 * x + 5) 0 1 = 1 := by
  simp only [field]
  omega

theorem field_frame (small : x < 0x100000) : field (4096 * x + 5) 12 20 = x := by
  simp only [field]
  omega

/-- The flags in the low bits of `pd_tblphys` leave the address as it is. -/
theorem tblphys_address (aligned : x % 0x1000 = 0) : (x ||| 0x7) / 0x1000 * 0x1000 = x := by
  have page : (x ||| 0x7) / 2 ^ 12 = x / 2 ^ 12 := by
    rw [Nat.or_div_two_pow]
    exact Nat.or_zero _
  have number : (x ||| 0x7) / 0x1000 = x / 0x1000 := page
  rw [number]
  omega

namespace Booted

theorem table_eq (b : Booted placement k n pages s) (low : directoryAt placement < 0xEFB000)
    (lt : x < 1024) : s.table x = tableOf placement k x := by
  rw [FlatState.table, b.tableSlot_eq low lt, b.tables x lt]

theorem entry_eq (b : Booted placement k n pages s) (low : directoryAt placement < 0xEFB000)
    (few : k ≤ 4) (page : p < 0x100000) (there : tableOf placement k (p / 1024) ≠ 0) :
    s.entry p = pages p := by
  have bounds := tableOf_bounds there
  have ends := placementAfter_lt low few
  rw [FlatState.entry, b.table_eq low (by omega), add32_eq (by omega)]
  exact b.entries p page there

/-- A page is present when it was given a frame. -/
theorem present_iff (b : Booted placement k n pages s) (low : directoryAt placement < 0xEFB000)
    (few : k ≤ 4) :
    s.Present p ↔
      p < 0x100000 ∧ tableOf placement k (p / 1024) ≠ 0 ∧ field (pages p) 0 1 = 1 := by
  unfold FlatState.Present
  constructor
  · rintro ⟨page, there, present⟩
    rw [b.table_eq low (by omega)] at there
    rw [b.entry_eq low few page there] at present
    exact ⟨page, there, present⟩
  · rintro ⟨page, there, present⟩
    rw [b.table_eq low (by omega), b.entry_eq low few page there]
    exact ⟨page, there, present⟩

theorem frameOf_eq (b : Booted placement k n pages s) (low : directoryAt placement < 0xEFB000)
    (few : k ≤ 4) (present : s.Present p) : s.frameOf p = field (pages p) 12 20 := by
  obtain ⟨page, there, -⟩ := (b.present_iff low few).mp present
  rw [FlatState.frameOf, b.entry_eq low few page there]

end Booted

end Mapping

section Identity

variable {placement q h p : Nat} {s : FlatState}

namespace Booted

/-- A page of the identity mapping has the frame of its own number. -/
theorem identity_page (b : Booted placement ((q + 1023) / 1024) (q + h) (pageOf q h) s)
    (low : directoryAt placement < 0xEFB000) (small : q < 0x1000) (lt : p < q) :
    s.Present p ∧ s.frameOf p = p := by
  have page : pageOf q h p = 4096 * p + 5 := if_pos lt
  have present : s.Present p := by
    rw [b.present_iff low (by omega), page]
    exact ⟨by omega, tableOf_low (by omega), field_present p⟩
  rw [b.frameOf_eq low (by omega) present, page]
  exact ⟨present, field_frame (by omega)⟩

/-- The pages of the heap have the frames behind those of the identity mapping. -/
theorem heap_page (b : Booted placement ((q + 1023) / 1024) (q + h) (pageOf q h) s)
    (low : directoryAt placement < 0xEFB000) (small : q < 0x1000) (few : h ≤ 256)
    (ge : 0xC0000 ≤ p) (lt : p < 0xC0000 + h) :
    s.Present p ∧ s.frameOf p = q + (p - 0xC0000) := by
  have page : pageOf q h p = 4096 * (q + (p - 0xC0000)) + 5 := by
    rw [pageOf, if_neg (by omega), if_pos ⟨ge, lt⟩]
  have there : tableOf placement ((q + 1023) / 1024) ((0xC0000 + (p - 0xC0000)) / 1024) ≠ 0 :=
    tableOf_heap (by omega)
  rw [Nat.add_sub_of_le ge] at there
  have present : s.Present p := by
    rw [b.present_iff low (by omega), page]
    exact ⟨by omega, there, field_present _⟩
  rw [b.frameOf_eq low (by omega) present, page]
  exact ⟨present, field_frame (by omega)⟩

/-- No other page is present. -/
theorem present_cases (b : Booted placement ((q + 1023) / 1024) (q + h) (pageOf q h) s)
    (low : directoryAt placement < 0xEFB000) (small : q < 0x1000) (present : s.Present p) :
    p < q ∨ 0xC0000 ≤ p ∧ p < 0xC0000 + h := by
  obtain ⟨-, -, flag⟩ := (b.present_iff low (by omega)).mp present
  by_contra neither
  rw [not_or] at neither
  rw [pageOf, if_neg neither.1, if_neg neither.2] at flag
  exact absurd flag (by decide)

/-- With all its frames in front of the directory, the boot builds the mapping it is for. -/
theorem identityMapped (fits : bootPages placement + 256 ≤ 0x1000)
    (b : Booted placement ((bootPages placement + 1023) / 1024) (bootPages placement + 256)
      (pageOf (bootPages placement) 256) s) : IdentityMapped s := by
  have small : bootPages placement < 0x1000 := by omega
  have stop := mt (lt_placement_iff fits (Nat.le_refl _)).mp (Nat.lt_irrefl _)
  have low := directoryAt_lt fits
  refine ⟨fun p below => ?_, fun p ge lt => ?_, fun t lt there => ?_, ?_⟩
  · rw [b.placed] at below
    exact b.identity_page low small (by omega)
  · obtain ⟨present, frame⟩ := b.heap_page low small (Nat.le_refl _) ge lt
    refine ⟨present, ?_, fun p' present' other => ?_⟩
    · rw [frame, b.frames]
      exact b.set _ (by omega)
    · rw [frame]
      rcases b.present_cases low small present' with inside | ⟨ge', lt'⟩
      · rw [(b.identity_page low small inside).2]
        omega
      · rw [(b.heap_page low small (Nat.le_refl _) ge' lt').2]
        omega
  · have slot := b.table_eq low lt
    rw [slot] at there ⊢
    have bounds := tableOf_bounds there
    have phys : s.tblphys t = tableOf placement ((bootPages placement + 1023) / 1024) t ||| 0x7 := by
      rw [FlatState.tblphys, b.physSlot_eq low lt, b.phys t lt there]
    rw [b.placed, phys]
    exact ⟨bounds.2.1, tblphys_address bounds.2.2⟩
  · rw [b.placed, b.directory]
    unfold placementAfter sizeofDirectory
    split_ifs <;> omega

end Booted

end Identity

end MiniKernel.Kernel.Flat
