/-
# Kernel.BitsetStorage -- the memory behind the frame bitset

`init_paging` asks for `INDEX_FROM_BIT(nframes)` bytes and uses as many words: the
memory it gets holds 32 of the 128 words, those of the first 1024 frames.

`touched` lists the words a call reads or writes.  The scan of `first_frame` goes on
to the word behind the memory when the words before are full, so a call stays inside
exactly when it needs no frame or finds one among the first 1024
(`touched_inside_iff`).  `free_frame` always stays inside, since it divides the number
of the frame by the page size.  What `kmalloc` and `get_page` do to the bitset is calls
of `alloc_frame` (`bits_of_step`), and what they allocate lies behind its memory
(`allocatedBehind`).
-/
import MiniKernel.Kernel.FrameOwnership
import MiniKernel.Kernel.HeapFields
import MiniKernel.Kernel.HeapRuns

namespace MiniKernel.Kernel

open Theory

set_option autoImplicit false

/-- A call, with the `vm_page` it is given. -/
inductive BitsetCall where
  | allocFrame (p : VmPage) (isKernel isWriteable : Bool)
  | freeFrame (p : VmPage)

namespace BitsetCall

def page : BitsetCall → VmPage
  | .allocFrame p _ _ => p
  | .freeFrame p => p

/-- `p_frame` has 20 bits. -/
def Field (call : BitsetCall) : Prop := call.page.pFrame < 0x100000

end BitsetCall

/-- A call that returns. -/
inductive BitsetStep : Bitset → BitsetCall → Bitset → Prop where
  | allocFrame {b b' : Bitset} {p p' : VmPage} {k w : Bool} (ran : allocFrame b p k w = .ok (b', p')) :
      BitsetStep b (.allocFrame p k w) b'
  | freeFrame {b : Bitset} {p : VmPage} : BitsetStep b (.freeFrame p) (freeFrame b p).1

namespace Bitset

/-! ## Words -/

/-- The words `frames[i]` that the outer loop of `first_frame` reads, with `n` words
left from `i` on. -/
def readsFrom (frames : Nat → BitVec 32) : Nat → Nat → List Nat
  | 0, _ => []
  | n + 1, i =>
      i ::
        if frames i = 0xFFFFFFFF#32 then readsFrom frames n (i + 1)
        else
          match firstBit (frames i) 32 0 with
          | some _ => []
          | none => readsFrom frames n (i + 1)

/-- The words that `first_frame` reads. -/
def firstFrameReads (b : Bitset) : List Nat := readsFrom b.frames (indexFromBit b.nframes) 0

/-- The words that a call reads or writes. -/
def touched (b : Bitset) : BitsetCall → List Nat
  | .allocFrame p _ _ =>
      if p.pFrame ≠ 0 then []
      else
        b.firstFrameReads ++
          if b.firstFrame = 0xFFFFFFFF then []
          else [indexFromBit (b.firstFrame * 0x1000 % 4294967296 / 0x1000)]
  | .freeFrame p => if p.pFrame = 0 then [] else [indexFromBit (p.pFrame / 0x1000)]

/-- A page that needs a frame finds one among the first 1024. -/
def LowFrameFree (b : Bitset) : BitsetCall → Prop
  | .allocFrame p _ _ => p.pFrame ≠ 0 ∨ ∃ f, f < 1024 ∧ b.used f = false
  | .freeFrame _ => True

/-- The scan reads a word when all the words in front of it are full. -/
theorem mem_readsFrom {frames : Nat → BitVec 32} {n i k : Nat} :
    k ∈ readsFrom frames n i ↔
      i ≤ k ∧ k < i + n ∧ ∀ j, i ≤ j → j < k → frames j = 0xFFFFFFFF#32 := by
  induction n generalizing i with
  | zero =>
      simp only [readsFrom, List.not_mem_nil, false_iff]
      omega
  | succ n ih =>
      rw [readsFrom, List.mem_cons]
      by_cases full : frames i = 0xFFFFFFFF#32
      · rw [if_pos full, ih]
        constructor
        · rintro (rfl | ⟨le, less, below⟩)
          · exact ⟨Nat.le_refl _, by omega, fun j h1 h2 => by omega⟩
          · refine ⟨by omega, by omega, fun j h1 h2 => ?_⟩
            rcases Nat.eq_or_lt_of_le h1 with rfl | later
            · exact full
            · exact below j later h2
        · rintro ⟨le, less, below⟩
          rcases Nat.eq_or_lt_of_le le with rfl | later
          · exact .inl rfl
          · exact .inr ⟨later, by omega, fun j h1 h2 => below j (by omega) h2⟩
      · obtain ⟨bit, found, -⟩ := firstBit_of_ne full
        rw [if_neg full, found]
        constructor
        · rintro (rfl | none)
          · exact ⟨Nat.le_refl _, by omega, fun j h1 h2 => by omega⟩
          · cases none
        · rintro ⟨le, less, below⟩
          rcases Nat.eq_or_lt_of_le le with rfl | later
          · exact .inl rfl
          · exact absurd (below i (Nat.le_refl _) later) full

/-- A word that is not full has a free frame. -/
theorem free_of_not_full {b : Bitset} {i : Nat} (open_ : b.frames i ≠ 0xFFFFFFFF#32) :
    ∃ f, i * 32 ≤ f ∧ f < (i + 1) * 32 ∧ b.used f = false := by
  obtain ⟨k, -, width, free, -⟩ := firstBit_of_ne open_
  refine ⟨i * 32 + k, by omega, by omega, ?_⟩
  rw [used, WordSet.mem, show (i * 32 + k) / 32 = i by omega, show (i * 32 + k) % 32 = k by omega]
  exact free

variable {b : Bitset}

/-- The scan stays in the first 32 words exactly when it ends there. -/
theorem reads_low_iff (frames : b.nframes = 0x1000) :
    (∀ i ∈ b.firstFrameReads, i < 32) ↔ ∃ f, f < 1024 ∧ b.used f = false := by
  have words : indexFromBit b.nframes = 128 := by
    rw [frames]
    rfl
  rw [firstFrameReads, words]
  constructor
  · intro low
    by_contra none
    have full : ∀ j, 0 ≤ j → j < 32 → b.frames j = 0xFFFFFFFF#32 := by
      intro j _ less
      by_contra open_
      obtain ⟨f, h1, h2, free⟩ := free_of_not_full open_
      exact none ⟨f, by omega, free⟩
    have behind := low 32 (mem_readsFrom.mpr ⟨by omega, by omega, full⟩)
    omega
  · rintro ⟨f, less, free⟩ i read
    by_contra far
    obtain ⟨-, -, below⟩ := mem_readsFrom.mp read
    have full := below (f / 32) (Nat.zero_le _) (by omega)
    have used : b.used f = true := mem_of_full full rfl
    rw [used] at free
    cases free

/-- A free frame among the first 1024 is found there. -/
theorem firstFrame_low (frames : b.nframes = 0x1000) {f : Nat} (less : f < 1024)
    (free : b.used f = false) : b.firstFrame < 1024 := by
  have scanned : b.scanned = 4096 := by
    rw [Bitset.scanned, frames]
    rfl
  rcases b.firstFrame_spec with ⟨-, -, below⟩ | ⟨-, all⟩
  · by_contra far
    have used := below f (by omega)
    rw [free] at used
    cases used
  · have used := all f (by omega)
    rw [free] at used
    cases used

/-- What a call touches is in the first 32 words exactly when it needs no frame
behind them. -/
theorem touched_low_iff (frames : b.nframes = 0x1000) {call : BitsetCall} (field : call.Field) :
    (∀ i ∈ b.touched call, i < 32) ↔ b.LowFrameFree call := by
  cases call with
  | allocFrame p k w =>
      rw [touched, LowFrameFree]
      by_cases held : p.pFrame ≠ 0
      · rw [if_pos held]
        simp [held]
      · rw [if_neg held, ← reads_low_iff frames]
        constructor
        · intro low
          exact .inr fun i read => low i (List.mem_append_left _ read)
        · rintro (some_frame | low)
          · exact absurd some_frame held
          · obtain ⟨f, less, free⟩ := (reads_low_iff frames).mp low
            have first := firstFrame_low frames less free
            intro i mem
            rcases List.mem_append.mp mem with read | written
            · exact low i read
            · rw [if_neg (by omega)] at written
              obtain rfl := List.mem_singleton.mp written
              unfold indexFromBit
              omega
  | freeFrame p =>
      have small : p.pFrame < 0x100000 := field
      rw [touched, LowFrameFree]
      refine iff_of_true ?_ trivial
      intro i mem
      split at mem
      · cases mem
      · obtain rfl := List.mem_singleton.mp mem
        unfold indexFromBit
        omega

theorem touched_lt (frames : b.nframes = 0x1000) {call : BitsetCall} (field : call.Field) {i : Nat}
    (mem : i ∈ b.touched call) : i < 0x10000000 := by
  have words : indexFromBit b.nframes = 128 := by
    rw [frames]
    rfl
  cases call with
  | allocFrame p k w =>
      rw [touched] at mem
      split at mem
      · cases mem
      · rcases List.mem_append.mp mem with read | written
        · rw [firstFrameReads, words] at read
          have less := (mem_readsFrom.mp read).2.1
          omega
        · split at written
          · cases written
          · obtain rfl := List.mem_singleton.mp written
            unfold indexFromBit
            omega
  | freeFrame p =>
      have small : p.pFrame < 0x100000 := field
      rw [touched] at mem
      split at mem
      · cases mem
      · obtain rfl := List.mem_singleton.mp mem
        unfold indexFromBit
        omega

theorem nframes_of_step {b' : Bitset} {call : BitsetCall} (step : BitsetStep b call b') :
    b'.nframes = b.nframes := by
  cases step with
  | allocFrame ran =>
      unfold Kernel.allocFrame at ran
      split at ran
      · obtain ⟨rfl, -⟩ := Prod.mk.inj (Except.ok.inj ran)
        rfl
      · dsimp only at ran
        split at ran
        · cases ran
        · obtain ⟨rfl, -⟩ := Prod.mk.inj (Except.ok.inj ran)
          rfl
  | freeFrame =>
      unfold Kernel.freeFrame
      split <;> rfl

/-- `init_paging` sets `nframes` once. -/
theorem nframes_of_run {C : Bitset → BitsetCall → Prop} (reached : Reaches BitsetStep C .boot b) :
    b.nframes = 0x1000 := by
  have run : b.nframes = Bitset.boot.nframes :=
    reached.invariant (I := fun b => b.nframes = Bitset.boot.nframes) rfl
      fun _ _ _ same _ step => (nframes_of_step step).trans same
  exact run

end Bitset

/-! ## The memory of the bitset -/

/-- `frames = kmalloc0(INDEX_FROM_BIT(nframes))` -/
def obtainFrames (alloc : Nat → Bool → KernelM Nat) : KernelM Nat := do
  let (frames, _) ← kmallocWith alloc (indexFromBit (0x1000000 / 0x1000)) false false true
  pure frames

/-- The bytes of `frames[idx]` are among the `len` bytes at `frames`. -/
def WordInside (frames len idx : Nat) : Prop :=
  ∀ j, j < 4 → ∃ k, k < len ∧ add32 frames (4 * idx + j) = add32 frames k

theorem wordInside_iff {frames idx : Nat} (small : idx < 0x10000000) :
    WordInside frames 128 idx ↔ idx < 32 := by
  unfold WordInside add32
  constructor
  · intro inside
    obtain ⟨k, less, same⟩ := inside 3 (by omega)
    omega
  · intro low j less
    exact ⟨4 * idx + j, by omega, rfl⟩

/-- What a call touches is inside the memory of the bitset exactly when the call needs no
frame behind the first 1024. -/
theorem touched_inside_iff {b : Bitset} (frames : b.nframes = 0x1000) {call : BitsetCall}
    (field : call.Field) (base : Nat) :
    (∀ i ∈ b.touched call, WordInside base 128 i) ↔ b.LowFrameFree call := by
  rw [← Bitset.touched_low_iff frames field]
  have small : ∀ i ∈ b.touched call, i < 0x10000000 := fun i mem => b.touched_lt frames field mem
  constructor
  · intro inside i mem
    exact (wordInside_iff (small i mem)).mp (inside i mem)
  · intro low i mem
    exact (wordInside_iff (small i mem)).mpr (low i mem)

/-- Without paging, `bzero` clears the bytes it is given. -/
theorem bzero_flat {K : KState} (flat : K.paging = false) (a n : Nat) :
    bzero a n K = .ok ((), { K with mem := K.mem.zeroBytes a n }) := by
  induction n generalizing a K with
  | zero =>
      have same : K.mem.zeroBytes a 0 = K.mem := by
        funext b
        simp only [Mem.zeroBytes]
        split_ifs <;> first | rfl | omega
      rw [bzero, same]
      rfl
  | succ n ih =>
      have stored : write8 a 0 K = .ok ((), { K with mem := K.mem.setByte a 0 }) := by
        simp [write8, KState.put8, KState.translate, flat]
      have same : (K.mem.setByte a 0).zeroBytes (a + 1) n = K.mem.zeroBytes a (n + 1) := by
        funext b
        simp only [Mem.zeroBytes, Mem.setByte]
        split_ifs <;> first | rfl | omega
      rw [bzero, Program.bind_run_ok stored, ih (by exact flat)]
      dsimp only
      rw [same]

/-- Where `_kmalloc` places a block without a heap. -/
def placedAt (placementAddress : Nat) (aligned : Bool) : Nat :=
  if aligned ∧ placementAddress &&& pageMask ≠ 0 then add32 (placementAddress &&& pageMask) 0x1000
  else placementAddress

theorem placedAt_lt {a : Nat} (word : a < 4294967296) (aligned : Bool) :
    placedAt a aligned < 4294967296 := by
  unfold placedAt
  split
  · exact add32_lt _ _
  · exact word

/-- Without a heap, `_kmalloc` moves the placement address and clears the block. -/
theorem wp_kmalloc_early {K : KState} (early : K.heapReady = false)
    (word : K.placementAddress < 4294967296) {alloc : Nat → Bool → KernelM Nat} {len : Nat}
    (small : len < 4294967296) {phys aligned zero : Bool} {Q : Nat × Nat → KState → Prop}
    {E : Stop → Prop}
    (post : Program.wp (if zero then bzero (placedAt K.placementAddress aligned) len else pure ())
      (fun _ => Q (placedAt K.placementAddress aligned,
        if phys then placedAt K.placementAddress aligned else 0)) E
      { K with placementAddress := add32 (placedAt K.placementAddress aligned) len }) :
    Program.wp (kmallocWith alloc len phys aligned zero) Q E K := by
  have fits := placedAt_lt word aligned
  have address : sub32 (add32 (placedAt K.placementAddress aligned) len) len =
      placedAt K.placementAddress aligned := by
    unfold sub32 add32
    omega
  unfold placedAt at post address
  simp only [kmallocWith, Program.wp_bind, Program.wp_get, if_pos early, Program.wp_modify,
    Program.wp_pure, address]
  cases zero with
  | false => exact post
  | true => exact (Program.wp_bind _ _ _ _ _).mpr post

/-- `init_paging` gets the 128 bytes at the placement address, cleared. -/
theorem obtainFrames_run {K : KState} (early : K.heapReady = false) (flat : K.paging = false)
    (word : K.placementAddress < 4294967296) (alloc : Nat → Bool → KernelM Nat) :
    obtainFrames alloc K = .ok (K.placementAddress,
      { K with
        mem := K.mem.zeroBytes K.placementAddress 128
        placementAddress := add32 K.placementAddress 128 }) := by
  have cleared := bzero_flat (K := { K with placementAddress := add32 K.placementAddress 128 }) flat
    K.placementAddress 128
  have runs : Program.wp (obtainFrames alloc) (fun a K' => a = K.placementAddress ∧
      K' = { K with
        mem := K.mem.zeroBytes K.placementAddress 128
        placementAddress := add32 K.placementAddress 128 }) (fun _ => False) K := by
    refine (Program.wp_bind _ _ _ _ _).mpr (wp_kmalloc_early early word (by decide) ?_)
    refine (Program.wp_of_ok cleared).mpr ⟨?_, ?_⟩ <;> rfl
  obtain ⟨a, K', ran, rfl, rfl⟩ := Program.wp_some runs
  exact ran

/-! ## Later calls -/

/-- The calls of the kernel that may change the bitset or place a block. -/
inductive KernelCall where
  | kmalloc (len : Nat) (phys aligned zero : Bool)
  | getPage (address : Nat) (create : Bool)
  | allocFrame (p : Option PagePtr) (isKernel isWriteable : Bool)
  | freeFrame (p : Option PagePtr)

/-- A call that returns. -/
inductive KernelStep : KState → KernelCall → KState → Prop where
  | kmalloc {K K' : KState} {fuel len : Nat} {phys aligned zero : Bool} {r : Nat × Nat}
      (ran : kmallocWith (alloc fuel) len phys aligned zero K = .ok (r, K')) :
      KernelStep K (.kmalloc len phys aligned zero) K'
  | getPage {K K' : KState} {fuel address : Nat} {create : Bool} {r : Option PagePtr}
      (ran : kernelPage (kmalloc0ApWith (alloc fuel)) address create K = .ok (r, K')) :
      KernelStep K (.getPage address create) K'
  | allocFrame {K K' : KState} {p : Option PagePtr} {k w : Bool}
      (ran : allocFramePage p k w K = .ok ((), K')) : KernelStep K (.allocFrame p k w) K'
  | freeFrame {K K' : KState} {p : Option PagePtr} (ran : freeFramePage p K = .ok ((), K')) :
      KernelStep K (.freeFrame p) K'

/-- The bitset changes by calls of `alloc_frame` and `free_frame` only. -/
abbrev BitsMove (K K' : KState) : Prop := Reachable BitsetStep K.bits K'.bits

instance : Std.Refl (Reachable BitsetStep) := ⟨fun _ => .refl⟩

instance : Std.Refl BitsMove := ⟨fun _ => .refl⟩

instance : IsTrans KState BitsMove := ⟨fun _ _ _ => Reaches.trans⟩

section Moves

open Program

theorem bitsMove_ofPages : OfPages BitsMove := fun K K' _ same => by
  rw [BitsMove, same]
  exact .refl

theorem allocFramePage_moves (p : Option PagePtr) (k w : Bool) :
    Within BitsMove (allocFramePage p k w) := by
  intro K
  unfold wp allocFramePage
  cases p with
  | none => trivial
  | some p =>
      dsimp only
      cases K.dir.page p with
      | none => trivial
      | some v =>
          dsimp only
          cases ran : allocFrame K.bits v k w with
          | error e => trivial
          | ok r => exact .single (i := .allocFrame v k w) trivial (.allocFrame ran)

theorem freeFramePage_moves (p : Option PagePtr) : Within BitsMove (freeFramePage p) := by
  intro K
  unfold wp freeFramePage
  cases p with
  | none => trivial
  | some p =>
      dsimp only
      cases K.dir.page p with
      | none => trivial
      | some v => exact .single (i := .freeFrame v) trivial .freeFrame

variable {f : Nat → Bool → KernelM Nat}

theorem kernelPage_moves (h : ∀ len aligned, Within BitsMove (f len aligned)) (address : Nat)
    (create : Bool) : Within BitsMove (kernelPage (kmalloc0ApWith f) address create) := by
  refine .bind .get fun K => .ite (.pure _) (.ite ?_ (.pure _))
  exact (kmallocWith_within bitsMove_ofPages h _ _ _ _).bind fun _ =>
    .bind (.of_modify fun _ => .refl) fun _ => .pure _

/-- `alloc` changes the bitset by calls of `alloc_frame`. -/
theorem alloc_moves (n size : Nat) (pageAlign : Bool) : Within BitsMove (alloc n size pageAlign) :=
  alloc_within bitsMove_ofPages (fun _ _ h => .bind .get fun _ =>
    (kernelPage_moves h _ _).bind fun p => allocFramePage_moves p _ _) n size pageAlign

/-- So does every call of the kernel. -/
theorem bits_of_step {K K' : KState} {call : KernelCall} (step : KernelStep K call K') :
    BitsMove K K' := by
  cases step with
  | kmalloc ran => exact (kmallocWith_within bitsMove_ofPages (alloc_moves _) _ _ _ _).of_ok ran
  | getPage ran => exact (kernelPage_moves (alloc_moves _) _ _).of_ok ran
  | allocFrame ran => exact (allocFramePage_moves _ _ _).of_ok ran
  | freeFrame ran => exact (freeFramePage_moves _).of_ok ran

end Moves

/-! ## Allocations before the heap -/

/-- The placement address stays below the end of the address space. -/
def KernelCall.Fits (K : KState) : KernelCall → Prop
  | .kmalloc len _ _ _ => K.placementAddress + 0x1000 + len < 4294967296
  | .getPage _ _ => K.placementAddress + 0x1000 + 0x1000 < 4294967296
  | _ => True

theorem placedAt_ge {a : Nat} (room : a + 0x1000 < 4294967296) (aligned : Bool) :
    a ≤ placedAt a aligned ∧ placedAt a aligned ≤ a + 0x1000 := by
  unfold placedAt
  split
  · rw [land_pageMask (by omega), add32_eq (by omega)]
    omega
  · omega

/-- Without a heap, a block starts behind the placement address, which then is the end of
the block. -/
theorem wp_kmalloc_placed {K : KState} (early : K.heapReady = false)
    {alloc : Nat → Bool → KernelM Nat} {len : Nat}
    (fits : K.placementAddress + 0x1000 + len < 4294967296) (phys aligned zero : Bool) :
    Program.wp (kmallocWith alloc len phys aligned zero)
      (fun r K' => K'.heapReady = false ∧ K.placementAddress ≤ r.1 ∧
        K'.placementAddress = r.1 + len) (fun _ => True) K := by
  have bounds := placedAt_ge (a := K.placementAddress) (by omega) aligned
  have ends : add32 (placedAt K.placementAddress aligned) len =
      placedAt K.placementAddress aligned + len := add32_eq (by omega)
  refine wp_kmalloc_early early (by omega) (by omega) ?_
  rw [ends]
  have kept : Program.Keeps KState.besidesMem
      (if zero then bzero (placedAt K.placementAddress aligned) len else pure () : KernelM Unit) :=
    .ite (bzero_besidesMem _ _) (.pure _)
  refine Program.wp_mono (kept _) (fun _ K' same => ?_) fun _ h => h
  have ready := congrArg KState.heapReady same
  have placed := congrArg KState.placementAddress same
  exact ⟨ready.trans early, bounds.1, placed⟩

theorem wp_getPage_placed {K : KState} (early : K.heapReady = false)
    {alloc : Nat → Bool → KernelM Nat} (fits : K.placementAddress + 0x1000 + 0x1000 < 4294967296)
    (address : Nat) (create : Bool) :
    Program.wp (kernelPage (kmalloc0ApWith alloc) address create)
      (fun _ K' => K'.heapReady = false ∧ K.placementAddress ≤ K'.placementAddress)
      (fun _ => True) K := by
  rw [kernelPage, getPage, Program.wp_bind, Program.wp_get]
  dsimp only
  rw [Program.wp_ite, Program.wp_ite]
  refine ⟨fun _ => ⟨early, Nat.le_refl _⟩, fun _ => ⟨fun _ => ?_, fun _ => ⟨early, Nat.le_refl _⟩⟩⟩
  refine Program.wp_bind_of (wp_kmalloc_placed early fits true true true) ?_
  rintro r K' ⟨ready, behind, placed⟩
  refine ⟨ready, ?_⟩
  show K.placementAddress ≤ K'.placementAddress
  omega

theorem early_of_step {K K' : KState} {call : KernelCall} (early : K.heapReady = false)
    (fits : call.Fits K) (step : KernelStep K call K') :
    K'.heapReady = false ∧ K.placementAddress ≤ K'.placementAddress := by
  cases step with
  | kmalloc ran =>
      obtain ⟨ready, behind, placed⟩ :=
        Program.wp_ok (wp_kmalloc_placed early fits _ _ _) ran
      exact ⟨ready, by omega⟩
  | getPage ran =>
      have moved := Program.wp_ok (wp_getPage_placed early fits _ _) ran
      exact moved
  | allocFrame ran =>
      have same := (allocFramePage_keeps _ _ _).of_ok ran
      have ready := congrArg KState.heapReady same
      have placed := congrArg KState.placementAddress same
      exact ⟨ready.trans early, Nat.le_of_eq placed.symm⟩
  | freeFrame ran =>
      have same := (freeFramePage_keeps _).of_ok ran
      have ready := congrArg KState.heapReady same
      have placed := congrArg KState.placementAddress same
      exact ⟨ready.trans early, Nat.le_of_eq placed.symm⟩

theorem early_of_run {K K' : KState} (early : K.heapReady = false)
    (reached : Reaches KernelStep (fun K call => call.Fits K) K K') :
    K'.heapReady = false ∧ K.placementAddress ≤ K'.placementAddress := by
  refine reached.invariant
    (I := fun K' => K'.heapReady = false ∧ K.placementAddress ≤ K'.placementAddress)
    ⟨early, Nat.le_refl _⟩ ?_
  rintro L call L' ⟨ready, behind⟩ fits step
  obtain ⟨ready', behind'⟩ := early_of_step ready fits step
  exact ⟨ready', Nat.le_trans behind behind'⟩

/-! ## Storage -/

/-- Every allocation from `K` on starts behind `end_`: the blocks placed before there is a
heap, and those of a heap that lies behind `end_`. -/
structure AllocatedBehind (K : KState) (end_ : Nat) : Prop where
  placed : ∀ {K' K'' : KState} {fuel len : Nat} {phys aligned zero : Bool} {r : Nat × Nat},
    Reaches KernelStep (fun K call => call.Fits K) K K' →
    (KernelCall.kmalloc len phys aligned zero).Fits K' →
    kmallocWith (alloc fuel) len phys aligned zero K' = .ok (r, K'') → end_ ≤ r.1
  heap : ∀ {d : VmPageDirectory} {s : HeapState} {bs : List Block} {p size : Nat},
    RunInv d s bs → end_ ≤ s.kernel.heap.hAddrStart → (p, size) ∈ s.live d → end_ ≤ p - 12

theorem allocatedBehind {K : KState} (early : K.heapReady = false) :
    AllocatedBehind K K.placementAddress where
  placed {K' K'' fuel len phys aligned zero r} reached fits ran := by
    obtain ⟨ready, behind⟩ := early_of_run early reached
    obtain ⟨-, start, -⟩ := Program.wp_ok (wp_kmalloc_placed ready fits phys aligned zero) ran
    exact Nat.le_trans behind start
  heap {d s bs p size} inv behind held := by
    obtain ⟨a, z, rfl, member, -⟩ := inv.block held
    have bounds := inv.inv.blocks.bounds member
    dsimp only at bounds
    omega

/-- **Bitset storage.**  The bitset gets 128 bytes, cleared, and every later allocation lies
behind them.  In a run of calls that found their frames among the first 1024, what the
next call touches is inside those bytes exactly when it does so too. -/
theorem words_inside_iff {K : KState} (early : K.heapReady = false) (flat : K.paging = false)
    (word : K.placementAddress < 4294967296) (fresh : K.bits = .boot)
    (alloc : Nat → Bool → KernelM Nat) :
    ∃ K₁, obtainFrames alloc K = .ok (K.placementAddress, K₁) ∧
      (∀ i, i < 32 → K₁.mem.word (K.placementAddress + 4 * i) = 0) ∧
      (K.placementAddress + 128 < 4294967296 →
        AllocatedBehind K₁ (K.placementAddress + 128)) ∧
      (∀ K', Reachable KernelStep K₁ K' → Reachable BitsetStep .boot K'.bits) ∧
      ∀ b call, Reaches BitsetStep Bitset.LowFrameFree .boot b → call.Field →
        ((∀ i ∈ b.touched call, WordInside K.placementAddress 128 i) ↔ b.LowFrameFree call) := by
  refine ⟨_, obtainFrames_run early flat word alloc, ?_, fun room => ?_, fun K' reached => ?_, ?_⟩
  · intro i less
    dsimp only
    have zero : ∀ j, j < 4 → K.mem.zeroBytes K.placementAddress 128
        (K.placementAddress + 4 * i + j) = 0 := by
      intro j small
      simp only [Mem.zeroBytes]
      rw [if_pos (by omega), if_pos (by omega)]
    rw [Mem.word, zero 1 (by omega), zero 2 (by omega), zero 3 (by omega)]
    have first := zero 0 (by omega)
    rw [Nat.add_zero] at first
    rw [first]
    rfl
  · have behind := allocatedBehind (K := { K with
      mem := K.mem.zeroBytes K.placementAddress 128
      placementAddress := add32 K.placementAddress 128 }) early
    rw [← add32_eq room]
    exact behind
  · have moved : BitsMove _ K' := reached.invariant (I := fun K' => BitsMove _ K') .refl
      fun _ _ _ before _ step => before.trans (bits_of_step step)
    rw [← fresh]
    exact moved
  · intro b call reached field
    exact touched_inside_iff (Bitset.nframes_of_run reached) field _

/-- The kernel in front of `init_paging`, with its end at `end_`. -/
def beforePaging (end_ : Nat) : KState where
  mem := fun _ => 0xFF
  paging := false
  dir := .zero
  bits := .boot
  heapReady := false
  heap := {
    hIndex := SortedArray.place (fun _ => 0) 0 none
    hAddrStart := 0, hAddrEnd := 0, hAddrMax := 0, hSu := false, hRo := false }
  placementAddress := end_

/-- Two pages get a frame, one of them gives it back: the word that `free_frame` writes is
inside. -/
theorem release_stays_inside :
    ∃ b p K₁, Reachable BitsetStep .boot b ∧ b.touched (.freeFrame p) = [0] ∧
      obtainFrames (alloc 1) (beforePaging 0x10A400) = .ok (0x10A400, K₁) ∧
      WordInside 0x10A400 128 0 := by
  obtain ⟨K₁, obtained, -, -, -, inside⟩ := words_inside_iff (K := beforePaging 0x10A400) rfl rfl
    (by decide) rfl (alloc 1)
  have run : Reaches BitsetStep Bitset.LowFrameFree .boot _ :=
    .tail (i := .allocFrame .zero false true)
      (.tail (i := .allocFrame .zero false true) .refl (.inr ⟨0, by decide, by decide⟩)
        (.allocFrame rfl)) (.inr ⟨1, by decide, by decide⟩) (.allocFrame rfl)
  have touched := (inside _ (.freeFrame ⟨true, true, true, 1⟩) run (by
    show (1 : Nat) < 0x100000
    decide)).mpr trivial
  exact ⟨_, ⟨true, true, true, 1⟩, K₁, run.reachable, rfl, obtained, touched 0 (by decide)⟩

/-- `n` pages have got the first `n` frames. -/
theorem filled (n : Nat) (room : n ≤ 1024) :
    ∃ b, Reaches BitsetStep Bitset.LowFrameFree .boot b ∧ ∀ f, b.used f = decide (f < n) := by
  induction n with
  | zero =>
      refine ⟨.boot, .refl, fun f => ?_⟩
      simp [Bitset.boot, Bitset.used, WordSet.mem]
  | succ n ih =>
      obtain ⟨b, reached, used⟩ := ih (by omega)
      have frames := Bitset.nframes_of_run reached
      have free : b.used n = false := by simp [used]
      have low := Bitset.firstFrame_low frames (by omega) free
      have first : b.firstFrame = n := by
        rcases b.firstFrame_spec with ⟨-, open_, below⟩ | ⟨none, -⟩
        · have above : ¬b.firstFrame < n := by simpa [used] using open_
          have upto : ¬n < b.firstFrame := fun less => by simp [below n less] at free
          omega
        · omega
      rcases allocFrame_cases (b := b) (p := .zero) (k := false) (w := false)
        (by rw [frames]; decide) with ⟨held, -⟩ | ⟨-, -, -, gave⟩ | ⟨-, none, -⟩
      · exact absurd rfl held
      · refine ⟨_, .tail (i := .allocFrame .zero false false) reached
          (.inr ⟨n, by omega, free⟩) (.allocFrame gave), fun f => ?_⟩
        rw [used_alloc, first, used, ← Bool.decide_or]
        exact decide_eq_decide.mpr (by omega)
      · omega

/-- With the first 1024 frames in use, the next page makes `first_frame` read a word behind the
memory of the bitset. -/
theorem frame_1024_outside :
    ∃ K₁ b i, obtainFrames (alloc 1) (beforePaging 0x10A400) = .ok (0x10A400, K₁) ∧
      Reachable BitsetStep .boot b ∧ i < indexFromBit b.nframes ∧
      i ∈ b.firstFrameReads ∧ ¬WordInside 0x10A400 128 i := by
  obtain ⟨b, reached, used⟩ := filled 1024 (Nat.le_refl _)
  have frames := Bitset.nframes_of_run reached
  have outside : ¬∀ i ∈ b.firstFrameReads, i < 32 := by
    rw [Bitset.reads_low_iff frames]
    rintro ⟨f, less, free⟩
    simp [used, less] at free
  push Not at outside
  obtain ⟨i, read, far⟩ := outside
  have words : indexFromBit b.nframes = 128 := by
    rw [frames]
    rfl
  have less : i < 128 := by
    rw [Bitset.firstFrameReads, words] at read
    have less := (Bitset.mem_readsFrom.mp read).2.1
    omega
  refine ⟨_, b, i, obtainFrames_run rfl rfl (by decide) _, reached.reachable, by omega, read, ?_⟩
  intro inside
  have low := (wordInside_iff (by omega)).mp inside
  omega

end MiniKernel.Kernel
