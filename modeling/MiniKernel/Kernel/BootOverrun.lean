/-
# Kernel.BootOverrun -- the frame whose bit is a page table

Frame `f` is bit `f` behind `frames`, in a block of 128 bytes that holds the first 1024 of
them.  The page directory starts at the next page boundary, so the bit of frame
`frontFrames` is the lowest bit of `pd_tables[0]`.  Handing it out spoils the first table
pointer, and nothing that follows repairs it (`Spoiled`): `alloc_frame` only sets bits, and
`get_page` leaves a pointer that is there.

So the boot builds its mapping exactly when the frames it hands out have their bits in front of
the directory (`boot_maps_identity`).
-/
import MiniKernel.Kernel.BootIdentity

namespace MiniKernel.Kernel.Flat

open Theory

set_option autoImplicit false

/-- The lowest bit of `pd_tables[0]` is set. -/
structure Spoiled (placement : Nat) (s : FlatState) : Prop where
  frames : s.frames = placement
  nframes : s.nframes = 0x1000
  directory : s.kernelDirectory = directoryAt placement
  odd : s.mem.bit (directoryAt placement) 0 = true

/-- A spoiled directory before page `q` of the identity mapping. -/
structure SpoiledAt (placement q : Nat) (s : FlatState) : Prop extends Spoiled placement s where
  placed : directoryAt placement + 0x3000 ≤ s.placementAddress
  bounded : s.placementAddress ≤ directoryAt placement + 0x6000 + 0x2000 * ((q + 1023) / 1024)
  there : q % 1024 ≠ 0 → s.mem.word (directoryAt placement + 4 * (q / 1024)) ≠ 0

section Spoil

variable {placement k n p q i fuel : Nat} {s s' : FlatState} {pages : Nat → Nat}

/-- A table starts at a page boundary, so an odd pointer is none. -/
theorem Spoiled.not_identity (spoiled : Spoiled placement s)
    (low : directoryAt placement < 0xEFB000) : ¬ IdentityMapped s := by
  intro mapped
  have slot : s.table 0 = s.mem.word (directoryAt placement) := by
    rw [FlatState.table, tableSlot_eq (by rw [spoiled.directory]; omega) (by decide),
      spoiled.directory, Nat.mul_zero, Nat.add_zero]
  have odd : (s.table 0).testBit 0 = true := by
    rw [slot, Mem.testBit_word (by decide), spoiled.odd]
  rw [Nat.testBit_zero, decide_eq_true_eq] at odd
  have aligned := (mapped.tables 0 (by decide) (by omega)).2
  omega

/-- `alloc_frame` leaves the directory spoiled. -/
theorem Spoiled.allocFrame (spoiled : Spoiled placement s)
    (low : directoryAt placement < 0xEFB000) (ran : allocFrame p false false s = .ok ((), s')) :
    Spoiled placement s' ∧ s'.placementAddress = s.placementAddress ∧
      ∀ a, s.mem.word a ≠ 0 → s'.mem.word a ≠ 0 := by
  have bounds := directoryAt_bounds placement
  have room : s.frames + 512 < 4294967296 := by
    rw [spoiled.frames]
    omega
  have words := fun a => allocFrame_word (a := a) spoiled.nframes room ran
  have odd := allocFrame_bits spoiled.nframes room ran spoiled.odd
  obtain ⟨m, rfl⟩ := allocFrame_globals spoiled.nframes room ran
  refine ⟨⟨spoiled.frames, spoiled.nframes, spoiled.directory, ?_⟩, rfl, words⟩
  rcases odd with kept | ⟨-, writeable, -⟩
  · exact kept
  · cases writeable

/-- `get_page` leaves it too, and finds or creates a table. -/
theorem SpoiledAt.getPage (at_ : SpoiledAt placement q s) (low : directoryAt placement < 0xEFB000)
    (few : q < 0x2000) :
    ∃ p s', getPage (q * 0x1000) true s = .ok (p, s') ∧ Spoiled placement s' ∧
      directoryAt placement + 0x3000 ≤ s'.placementAddress ∧
      s'.placementAddress ≤ directoryAt placement + 0x6000 + 0x2000 * (q / 1024 + 1) ∧
      s'.mem.word (directoryAt placement + 4 * (q / 1024)) ≠ 0 := by
  have number : q * 0x1000 / 0x1000 = q := by omega
  have slot : tableSlot s (q / 1024) = directoryAt placement + 4 * (q / 1024) := by
    rw [tableSlot_eq (by rw [at_.directory]; omega) (by omega), at_.directory]
  have phys : physSlot s (q / 1024) = directoryAt placement + 0x1000 + 4 * (q / 1024) := by
    rw [physSlot_eq (by rw [at_.directory]; omega) (by omega), at_.directory]
  have placed := at_.placed
  have bounded := at_.bounded
  by_cases there : s.mem.word (directoryAt placement + 4 * (q / 1024)) ≠ 0
  · have ran := getPage_present s (q * 0x1000) true
      (by rw [number, slot]; exact there)
    exact ⟨_, s, ran, at_.toSpoiled, placed, by omega, there⟩
  · -- only the first page of a table finds none, and the first table is there
    have start : q % 1024 = 0 := by
      by_contra inside
      exact there (at_.there inside)
    have later : q / 1024 ≠ 0 := by
      intro first
      rw [first, Nat.mul_zero, Nat.add_zero] at there
      exact there (Mem.word_ne_zero_iff.mpr ⟨0, by decide, at_.odd⟩)
    have missing : s.mem.word (tableSlot s (q * 0x1000 / 0x1000 / 1024)) = 0 := by
      rw [number, slot]
      exact not_not.mp there
    have ran := getPage_creates s (q * 0x1000) missing (by omega) (by omega) (by rw [at_.directory]; omega)
      (by omega)
    rw [number] at ran
    have behind : directoryAt placement + 0x3000 ≤ nextPage s.placementAddress ∧
        nextPage s.placementAddress ≤ s.placementAddress + 0x1000 := by
      unfold nextPage
      omega
    have read := tableSlot_withTable (s := s) (t := q / 1024) (by rw [at_.directory]; omega) (by omega)
      (show nextPage s.placementAddress < 4294967296 by omega)
    rw [slot] at read
    refine ⟨_, _, ran, ⟨at_.frames, at_.nframes, at_.directory, ?_⟩, ?_, ?_, ?_⟩
    · dsimp only
      rw [withTable, slot, phys, ← at_.odd]
      apply Mem.bit_congr
      rw [Mem.setWord_apply_of_disjoint _ _ (by omega),
        Mem.setWord_apply_of_disjoint _ _ (by omega), Mem.zeroBytes_outside (by omega)]
    · dsimp only
      omega
    · dsimp only
      omega
    · dsimp only
      rw [read]
      omega

/-- The identity loop leaves the directory spoiled. -/
theorem identityLoop_spoiled (low : directoryAt placement < 0xEFB000)
    (at_ : SpoiledAt placement q s) (ran : identityLoop fuel (q * 0x1000) s = .ok ((), s')) :
    Spoiled placement s' := by
  induction fuel generalizing q s with
  | zero => cases ran
  | succ fuel ih =>
      have bounded := at_.bounded
      rw [identityLoop_succ] at ran
      by_cases goes : q * 0x1000 < s.placementAddress
      · have few : q < 0x2000 := by omega
        obtain ⟨p, s₁, got, spoiled, placed, ends, there⟩ := at_.getPage low few
        rw [if_pos goes, Program.bind_run_ok got, next_page few] at ran
        obtain ⟨⟨⟩, s₂, gave, rest⟩ := Program.of_bind_run ran
        obtain ⟨spoiled₂, same, words⟩ := spoiled.allocFrame low gave
        refine ih ⟨spoiled₂, ?_, ?_, fun inside => ?_⟩ rest
        · rw [same]
          exact placed
        · rw [same, show (q + 1 + 1023) / 1024 = q / 1024 + 1 by omega]
          exact ends
        · rw [show (q + 1) / 1024 = q / 1024 by omega]
          exact words _ there
      · rw [if_neg goes] at ran
        cases ran
        exact at_.toSpoiled

/-- So does the loop over the kernel heap. -/
theorem heapLoop_spoiled (low : directoryAt placement < 0xEFB000) (spoiled : Spoiled placement s)
    (ran : forHeapPages mapHeapPage n i s = .ok ((), s')) : Spoiled placement s' := by
  induction n generalizing i s with
  | zero =>
      cases ran
      exact spoiled
  | succ n ih =>
      obtain ⟨⟨⟩, s₁, body, rest⟩ := Program.of_bind_run ran
      obtain ⟨p, got⟩ := getPage_looks i s
      have gave : Flat.allocFrame p false false s = .ok ((), s₁) :=
        (Program.bind_run_ok got).symm.trans body
      exact ih (spoiled.allocFrame low gave).1 rest

/-- More fuel does not change a run that came to its end. -/
theorem identityLoop_more {d : Nat} (ran : identityLoop fuel i s = .ok ((), s')) :
    identityLoop (fuel + d) i s = .ok ((), s') := by
  induction fuel generalizing i s with
  | zero => cases ran
  | succ fuel ih =>
      rw [Nat.add_right_comm, identityLoop_succ]
      rw [identityLoop_succ] at ran
      by_cases goes : i < s.placementAddress
      · rw [if_pos goes] at ran ⊢
        obtain ⟨p, s₁, got, rest⟩ := Program.of_bind_run ran
        obtain ⟨⟨⟩, s₂, gave, turns⟩ := Program.of_bind_run rest
        rw [Program.bind_run_ok got, Program.bind_run_ok gave]
        exact ih turns
      · rw [if_neg goes] at ran ⊢
        exact ran

/-- The frame whose bit is the lowest of `pd_tables[0]`: handing it out spoils the directory. -/
theorem Booted.allocFrame_spoils (b : Booted placement k (frontFrames placement) pages s)
    (low : directoryAt placement < 0xEFB000) (small : frontFrames placement < 0x1000)
    (page : p < 0x100000) (there : tableOf placement k (p / 1024) ≠ 0) (free : pages p = 0) :
    ∃ s', Flat.allocFrame (entryAt placement k p) false false s = .ok ((), s') ∧
      Spoiled placement s' := by
  have bounds := directoryAt_bounds placement
  have behind := entryAt_ge there
  have byte : placement + frontFrames placement / 8 = directoryAt placement := by
    unfold frontFrames
    omega
  have lowest : frontFrames placement % 8 = 0 := by
    unfold frontFrames
    omega
  have first : ∀ m : Mem, m.bit placement (frontFrames placement) =
      m.bit (directoryAt placement) 0 := by
    intro m
    rw [Mem.bit, Mem.bit, byte, lowest, Nat.zero_div, Nat.add_zero, Nat.zero_mod]
  have clear : s.mem.bit placement (frontFrames placement) = false := by
    have aligned : tableOf placement k 0 % 2 = 0 := by
      unfold tableOf lowTableAt heapTableAt
      split_ifs <;> omega
    have slot := b.tables 0 (by decide)
    rw [Nat.mul_zero, Nat.add_zero] at slot
    rw [first, ← Mem.testBit_word (by decide), slot, Nat.testBit_zero, aligned]
    decide
  have ran := allocFrame_takes (s := s) (p := entryAt placement k p) b.nframes
    (by rw [b.frames]; omega) small (by rw [b.frames]; exact b.set) (by rw [b.frames]; exact clear)
    (by rw [b.frames]; omega) (by rw [b.entries p page there, free])
  refine ⟨_, ran, b.frames, b.nframes, b.directory, ?_⟩
  dsimp only
  rw [b.frames, ← first, Mem.bit_congr (Mem.setWord_apply_of_disjoint _ _ (by omega)), Mem.bit_setBit]
  simp

/-- The frame is handed out in the identity loop. -/
theorem identityLoop_overruns (fits : bootPages placement + 256 ≤ 0x1000)
    (short : frontFrames placement < bootPages placement)
    (b : Booted placement ((frontFrames placement + 1023) / 1024) (frontFrames placement)
      (pageOf (frontFrames placement) 0) s)
    (ran : identityLoop fuel (frontFrames placement * 0x1000) s = .ok ((), s')) :
    Spoiled placement s' := by
  have small : frontFrames placement < 0xF00 := by omega
  have tables : (frontFrames placement + 1 + 1023) / 1024 = frontFrames placement / 1024 + 1 := by
    omega
  have low := directoryAt_lt fits
  cases fuel with
  | zero => cases ran
  | succ fuel =>
      have goes : frontFrames placement * 0x1000 < s.placementAddress := by
        rw [b.placed]
        exact (lt_placement_iff fits (Nat.le_of_lt short)).mpr short
      have there : tableOf placement (frontFrames placement / 1024 + 1)
          (frontFrames placement / 1024) ≠ 0 := tableOf_low (Nat.lt_succ_self _)
      obtain ⟨s₁, got, b₁⟩ := identity_table b fits short (Nat.le_refl _)
      obtain ⟨s₂, gave, spoiled⟩ := b₁.allocFrame_spoils low (by omega) (by omega) there
        (pageOf_next (by omega))
      have room : s₁.frames + 512 < 4294967296 := by
        have bounds := directoryAt_bounds placement
        rw [b₁.frames]
        omega
      have words := fun a => allocFrame_word (a := a) b₁.nframes room gave
      obtain ⟨m, rfl⟩ := allocFrame_globals b₁.nframes room gave
      rw [identityLoop_succ, if_pos goes, Program.bind_run_ok got, Program.bind_run_ok gave,
        next_page (by omega)] at ran
      refine identityLoop_spoiled low ⟨spoiled, ?_, ?_, fun inside => ?_⟩ ran
      · show _ ≤ s₁.placementAddress
        rw [b₁.placed, placementAfter_pos (Nat.succ_pos _)]
        omega
      · show s₁.placementAddress ≤ _
        rw [b₁.placed, placementAfter_pos (Nat.succ_pos _), tables]
        exact Nat.add_le_add_right (Nat.add_le_add_left (by decide) _) _
      · apply words
        rw [show (frontFrames placement + 1) / 1024 = frontFrames placement / 1024 by omega,
          b₁.tables _ (by omega)]
        exact there

/-- Or in the loop over the kernel heap. -/
theorem heapLoop_overruns (low : directoryAt placement < 0xEFB000) {h : Nat} (few : k ≤ 4)
    (lt : h < 256) (small : q ≤ 0xF00) (last : q + h = frontFrames placement)
    (b : Booted placement k (q + h) (pageOf q h) s)
    (ran : forHeapPages mapHeapPage (n + 1) (vmKernHeapStart + h * 0x1000) s = .ok ((), s')) :
    Spoiled placement s' := by
  obtain ⟨⟨⟩, s₁, body, rest⟩ := Program.of_bind_run ran
  have got := heap_table b low few lt
  rw [last] at b
  obtain ⟨s₂, gave, spoiled⟩ := b.allocFrame_spoils low (by omega) (by omega)
    (tableOf_heap (by omega)) (pageOf_next_heap (by omega))
  have same : mapHeapPage (vmKernHeapStart + h * 0x1000) s = .ok ((), s₂) :=
    (Program.bind_run_ok got).trans gave
  rw [same] at body
  cases body
  exact heapLoop_spoiled low spoiled rest

end Spoil

section Boot

variable {s s' : FlatState} {fuel : Nat}

/-- A boot whose frames all have their bits in front of the directory. -/
theorem initPaging_maps (kernel : 0x1000 ≤ s.placementAddress)
    (fits : bootPages s.placementAddress + 256 ≤ 0x1000)
    (free : ∀ f, f < 0x1000 → s.mem.bit s.placementAddress f = false)
    (front : bootPages s.placementAddress + 256 ≤ frontFrames s.placementAddress) :
    ∃ fuel s', initPaging fuel s = .ok ((), s') ∧ IdentityMapped s' ∧
      s'.placementAddress = bootEnd s.placementAddress := by
  have low := directoryAt_lt fits
  have start := bootState_booted s.mem low free
  obtain ⟨s₁, pages, b₁⟩ := identityLoop_reaches (j := bootPages s.placementAddress) fits
    (Nat.le_refl _) (by omega) start (Nat.zero_add _)
  obtain ⟨s₂, heap, b₂⟩ := heapLoop_reaches (h := 0) (j := 256) low (by omega) (Nat.le_refl _) fits
    front b₁ (by decide)
  have first := (pages 1).trans (identityLoop_done fits b₁)
  rw [Nat.zero_mul] at first
  have second := heap 0
  rw [Nat.zero_mul] at second
  refine ⟨1 + bootPages s.placementAddress, s₂, ?_, b₂.identityMapped fits,
    b₂.placed.trans (placementAfter_boot fits)⟩
  rw [initPaging_start rfl kernel low, mappingLoops, Program.bind_run_ok first]
  exact second

/-- A boot that hands out the frame whose bit is the lowest of `pd_tables[0]`. -/
theorem initPaging_spoils (kernel : 0x1000 ≤ s.placementAddress)
    (fits : bootPages s.placementAddress + 256 ≤ 0x1000)
    (free : ∀ f, f < 0x1000 → s.mem.bit s.placementAddress f = false)
    (short : frontFrames s.placementAddress < bootPages s.placementAddress + 256)
    (ran : initPaging fuel s = .ok ((), s')) : ¬ IdentityMapped s' := by
  have low := directoryAt_lt fits
  have start := bootState_booted s.mem low free
  rw [initPaging_start rfl kernel low] at ran
  obtain ⟨⟨⟩, s₁, first, second⟩ := Program.of_bind_run ran
  refine Spoiled.not_identity (?_ : Spoiled s.placementAddress s') low
  rcases Nat.lt_or_ge (frontFrames s.placementAddress) (bootPages s.placementAddress) with
    early | late
  · obtain ⟨s₂, pages, b₂⟩ := identityLoop_reaches (j := frontFrames s.placementAddress) fits
      (Nat.le_of_lt early) (Nat.le_refl _) start (Nat.zero_add _)
    have more := identityLoop_more (d := frontFrames s.placementAddress) first
    have reached := pages fuel
    rw [Nat.zero_mul] at reached
    rw [reached] at more
    exact heapLoop_spoiled low (identityLoop_overruns fits early b₂ more) second
  · obtain ⟨s₂, pages, b₂⟩ := identityLoop_reaches (j := bootPages s.placementAddress) fits
      (Nat.le_refl _) late start (Nat.zero_add _)
    have more := identityLoop_more (d := bootPages s.placementAddress + 1) first
    have reached := (pages (fuel + 1)).trans (identityLoop_done fits b₂)
    rw [Nat.zero_mul, Nat.add_assoc, Nat.add_comm 1] at reached
    rw [reached] at more
    cases more
    obtain ⟨h, last⟩ := Nat.exists_eq_add_of_le late
    have lt : h < 256 := by omega
    obtain ⟨s₃, heap, b₃⟩ := heapLoop_reaches (h := 0) (j := h) low (by omega) (Nat.le_of_lt lt)
      (by omega) (Nat.le_of_eq last.symm) b₂ (Nat.zero_add _)
    have reached := heap (255 - h + 1)
    rw [Nat.zero_mul, show 255 - h + 1 + h = 256 by omega] at reached
    rw [show vmKernHeapInitialSize / 0x1000 = 256 by decide] at second
    exact heapLoop_overruns low (by omega) lt (by omega) last.symm b₃ (reached.symm.trans second)

/-- The boot builds its mapping exactly when the frames that it hands out have their bits in
front of the directory. -/
theorem boot_maps_identity (s : FlatState) (kernel : 0x1000 ≤ s.placementAddress)
    (fits : bootPages s.placementAddress + 256 ≤ 0x1000)
    (free : ∀ f, f < 0x1000 → s.mem.bit s.placementAddress f = false) :
    (∃ fuel s', initPaging fuel s = .ok ((), s') ∧ IdentityMapped s') ↔
      bootPages s.placementAddress + 256 ≤ frontFrames s.placementAddress := by
  constructor
  · rintro ⟨fuel, s', ran, mapped⟩
    by_contra short
    exact initPaging_spoils kernel fits free (Nat.lt_of_not_le short) ran mapped
  · intro front
    obtain ⟨fuel, s', ran, mapped, -⟩ := initPaging_maps kernel fits free front
    exact ⟨fuel, s', ran, mapped⟩

/-- The boot of a kernel that ends at `end_`, in memory that is zero. -/
def bootOf (end_ : Nat) : FlatState where
  mem _ := 0
  placementAddress := end_
  frames := 0
  nframes := 0
  kernelDirectory := 0

theorem bootOf_free (end_ f : Nat) : (bootOf end_).mem.bit end_ f = false := Nat.zero_testBit _

/-- A kernel of 64 KiB. -/
theorem small_kernel_maps_identity :
    ∃ fuel s', initPaging fuel (bootOf 0x210000) = .ok ((), s') ∧ IdentityMapped s' :=
  (boot_maps_identity (bootOf 0x210000) (by decide) (by decide)
    fun f _ => bootOf_free 0x210000 f).mpr (by decide)

/-- A kernel that ends just in front of a page boundary, and needs frame 1056. -/
theorem frame_1056_spoils :
    0x1000 ≤ 0x31AF7C ∧ bootPages 0x31AF7C + 256 ≤ 0x1000 ∧
      (∀ f, f < 0x1000 → (bootOf 0x31AF7C).mem.bit 0x31AF7C f = false) ∧
      ¬ ∃ fuel s', initPaging fuel (bootOf 0x31AF7C) = .ok ((), s') ∧ IdentityMapped s' := by
  have free := fun f (_ : f < 0x1000) => bootOf_free 0x31AF7C f
  refine ⟨by decide, by decide, free, ?_⟩
  rintro ⟨fuel, s', ran, mapped⟩
  exact initPaging_spoils (s := bootOf 0x31AF7C) (by decide) (by decide) free (by decide) ran mapped

end Boot

end MiniKernel.Kernel.Flat
