/-
# Kernel.HeapLimits -- the sums of alloc against the numbers they stand for

`alloc` makes its attempts one after another: each takes a block out of a hole, or
grows the heap and tries again.  `ExactAttempt` compares the sums of one attempt with
the numbers they stand for: the hole and the block are as large as the request, and
`expand` passes its assertions only when the heap it asks for ends below `h_addr_max`.

`NoWrap` is what this takes (`exactAttempt_iff`): `size + 20` is a word, and not
negative when `find_smallest_hole` compares it as a signed integer, and the end of the
longer heap is a word.  The sum `old_length + new_size` wraps without harm, since the
first assertion of `expand` fails on what is left of it.
-/
import MiniKernel.Kernel.HeapAligned
import MiniKernel.Kernel.HeapExpand
import MiniKernel.Kernel.HeapFields
import MiniKernel.Kernel.HeapInPlace

namespace MiniKernel.Kernel

open Theory Program

set_option autoImplicit false

/-! ## One attempt -/

/-- `new_size` of `alloc` -/
def allocNewSize (size : Nat) : Nat := add32 (add32 size sizeofHeader) sizeofFooter

/-- The `hh_size` of a block that is taken out of a hole. -/
def blockSize (newSize origHoleSize : Nat) : Nat :=
  if sub32 origHoleSize newSize < sizeofHeader + sizeofFooter then origHoleSize else newSize

namespace KState

/-- `old_length` of `alloc` -/
def oldLength (K : KState) : Nat := sub32 K.heap.hAddrEnd K.heap.hAddrStart

/-- The two assertions of `expand`. -/
def ExpandPasses (K : KState) (newSize : Nat) : Prop :=
  sub32 K.heap.hAddrEnd K.heap.hAddrStart < newSize ∧
    add32 K.heap.hAddrStart (pageAlign newSize) ≤ K.heap.hAddrMax

/-- Where the heap ends that `expand` is asked for, as a number. -/
def exactEnd (K : KState) (size : Nat) : Nat :=
  K.heap.hAddrStart + roundedSize (K.oldLength + (size + 20))

end KState

/-- The hole with index `i`, and its `hh_size`. -/
structure HoleAt (K : KState) (i hole origHoleSize : Nat) : Prop where
  lookup : lookupIndex i K = .ok (hole, K)
  size : hhSize hole K = .ok (origHoleSize, K)

/-- The attempt in `K` gives the request no less than it asked for. -/
structure ExactAttempt (size : Nat) (pageAlign : Bool) (K : KState) : Prop where
  hole : ∀ i hole origHoleSize, findSmallestHole (allocNewSize size) pageAlign K = .ok (some i, K) →
    HoleAt K i hole origHoleSize →
    size + 20 ≤ origHoleSize ∧ size + 20 ≤ blockSize (allocNewSize size) origHoleSize
  growth : findSmallestHole (allocNewSize size) pageAlign K = .ok (none, K) →
    K.ExpandPasses (add32 K.oldLength (allocNewSize size)) → K.exactEnd size ≤ K.heap.hAddrMax

/-- The sums of the attempt are words, and a size that is compared as a signed integer is
not negative. -/
structure NoWrap (size : Nat) (pageAlign : Bool) (K : KState) : Prop where
  hole : ∀ i, findSmallestHole (allocNewSize size) pageAlign K = .ok (some i, K) →
    size + 20 < 4294967296 ∧ (pageAlign = true → size + 20 < 2147483648)
  growth : findSmallestHole (allocNewSize size) pageAlign K = .ok (none, K) →
    K.ExpandPasses (add32 K.oldLength (allocNewSize size)) → K.exactEnd size < 4294967296

/-! ## Holes -/

section Holes

variable {K : KState} {size i hole origHoleSize : Nat} {pageAlign : Bool}

theorem allocNewSize_eq (fits : size + 20 < 4294967296) : allocNewSize size = size + 20 := by
  unfold allocNewSize add32 sizeofHeader sizeofFooter
  omega

theorem HoleAt.word (at_i : HoleAt K i hole origHoleSize) : origHoleSize < 4294967296 := by
  have read := at_i.size
  unfold hhSize read32 at read
  split at read
  · rename_i v peeked
    obtain ⟨rfl, -⟩ := Prod.mk.inj (Except.ok.inj read)
    exact peek32_lt peeked
  · cases read

/-- `find_smallest_hole` returns the index of a hole it found large enough. -/
theorem holeFits_of_found {newSize : Nat}
    (found : findSmallestHole newSize pageAlign K = .ok (some i, K))
    (at_i : HoleAt K i hole origHoleSize) : holeFits newSize pageAlign hole origHoleSize = true := by
  have loop : ∀ n j, wp (findFrom newSize pageAlign n j)
      (fun r _ => r = some i → holeFits newSize pageAlign hole origHoleSize = true)
      (fun _ => True) K := by
    intro n
    induction n with
    | zero =>
        intro j none
        cases none
    | succ n ih =>
        intro j
        rw [findFrom]
        refine wp_bind_of (wp_ran (lookupIndex_keeps j K)) ?_
        rintro hdr K₁ ⟨at_j, rfl⟩
        refine wp_bind_of (wp_ran (read32_keeps _ _)) ?_
        rintro s K₂ ⟨sized, rfl⟩
        rw [wp_ite]
        refine ⟨fun fits same => ?_, fun _ => ih (j + 1)⟩
        obtain rfl := Option.some.inj same
        obtain ⟨rfl, -⟩ := Prod.mk.inj (Except.ok.inj (at_j.symm.trans at_i.lookup))
        obtain ⟨rfl, -⟩ := Prod.mk.inj (Except.ok.inj (sized.symm.trans at_i.size))
        exact fits
  have search : wp (findSmallestHole newSize pageAlign)
      (fun r _ => r = some i → holeFits newSize pageAlign hole origHoleSize = true)
      (fun _ => True) K := loop _ _
  exact wp_ok search found rfl

/-- A hole that is found is large enough, when the comparison is one of numbers. -/
theorem le_of_holeFits {newSize : Nat} (word : origHoleSize < 4294967296)
    (signed : pageAlign = true → newSize < 2147483648)
    (fits : holeFits newSize pageAlign hole origHoleSize = true) : newSize ≤ origHoleSize := by
  cases pageAlign with
  | false => simpa [holeFits] using fits
  | true =>
      have positive := signed rfl
      simp only [holeFits, if_true, decide_eq_true_eq] at fits
      generalize offset_eq : (if add32 hole sizeofHeader &&& pageMask ≠ 0 then
        0x1000 - add32 hole sizeofHeader % 0x1000 else 0) = offset at fits
      have small : offset ≤ 0x1000 := by
        rw [← offset_eq]
        split <;> omega
      unfold int32 sub32 at fits
      split_ifs at fits <;> omega

theorem le_blockSize {newSize need : Nat} (hole : need ≤ origHoleSize) (block : need ≤ newSize) :
    need ≤ blockSize newSize origHoleSize := by
  unfold blockSize
  split
  · exact hole
  · exact block

/-- Without a wrap, an attempt is exact. -/
theorem exactAttempt_of_noWrap (h : NoWrap size pageAlign K) : ExactAttempt size pageAlign K where
  hole i hole origHoleSize found at_i := by
    obtain ⟨fits, signed⟩ := h.hole i found
    rw [allocNewSize_eq fits] at found ⊢
    have enough := le_of_holeFits at_i.word signed (holeFits_of_found found at_i)
    exact ⟨enough, le_blockSize enough (Nat.le_refl _)⟩
  growth missing passes := by
    have ends := h.growth missing passes
    have small := le_roundedSize (K.oldLength + (size + 20))
    unfold KState.exactEnd at ends ⊢
    have sum : add32 K.oldLength (allocNewSize size) = K.oldLength + (size + 20) := by
      rw [allocNewSize_eq (by omega), add32_eq (by omega)]
    have below := passes.2
    rw [sum, pageAlign_roundedSize (by omega), add32_eq ends] at below
    exact below

/-- A hole that is found in a heap that is in order. -/
theorem holeAt_of_found {bs : List Block} (h : HeapInv K bs) {newSize : Nat}
    (found : findSmallestHole newSize pageAlign K = .ok (some i, K)) :
    ∃ hole origHoleSize, HoleAt K i hole origHoleSize ∧ origHoleSize < 0x1000000 := by
  have top := h.top
  have search : wp (findSmallestHole newSize pageAlign)
      (fun r _ => r = firstFit K.view newSize pageAlign K.indexed) (fun _ => True) K :=
    (wp_findSmallestHole h.sees (by omega) h.indexIn).mpr rfl
  have first := wp_ok search found
  obtain ⟨less, -⟩ := List.findIdx?_eq_some_iff_findIdx_eq.mp first.symm
  have at_i : K.indexed[i]? = some K.indexed[i] := List.getElem?_eq_getElem less
  generalize K.indexed[i] = hole at at_i
  have listed := mem_indexed at_i
  obtain ⟨hlo, hhi⟩ := h.indexIn hole listed
  have bounds := h.blocks.bounds (h.hole_of_indexed listed)
  have short := h.length_le
  dsimp only at bounds
  have lookup := (wp_lookupIndex (E := fun _ => False) (Q := fun v K' => v = hole ∧ K' = K) at_i).mpr
    ⟨rfl, rfl⟩
  have size := (wp_hhSize (E := fun _ => False)
    (Q := fun v K' => v = K.view.word (hole + 8) ∧ K' = K) h.sees (by omega) hlo hhi).mpr ⟨rfl, rfl⟩
  obtain ⟨_, _, looked, rfl, rfl⟩ := wp_some lookup
  obtain ⟨_, _, sized, rfl, rfl⟩ := wp_some size
  exact ⟨_, _, ⟨looked, sized⟩, by omega⟩

/-- **Limits of one attempt.**  In a heap that is in order, an attempt is exact when nothing
wraps, and only then. -/
theorem exactAttempt_iff {bs : List Block} (h : HeapInv K bs)
    (limit : K.heap.hAddrMax < 4294967296) :
    ExactAttempt size pageAlign K ↔ NoWrap size pageAlign K := by
  constructor
  · intro exact_
    refine ⟨fun i found => ?_, fun missing passes =>
      Nat.lt_of_le_of_lt (exact_.growth missing passes) limit⟩
    obtain ⟨hole, origHoleSize, at_i, short⟩ := holeAt_of_found h found
    have enough := (exact_.hole i hole origHoleSize found at_i).1
    exact ⟨by omega, fun _ => by omega⟩
  · exact exactAttempt_of_noWrap

end Holes

/-! ## The block that is returned -/

section Returned

variable {K K' : KState} {size i hole origHoleSize p : Nat} {pageAlign : Bool}

/-- The attempt in `K` takes the block at `p` out of a hole that is large enough, and gives
it an `hh_size` that is large enough. -/
structure Granted (size : Nat) (pageAlign : Bool) (K : KState) (p : Nat) (K' : KState) : Prop where
  hole : ∃ i hole origHoleSize, HoleAt K i hole origHoleSize ∧
    findSmallestHole (allocNewSize size) pageAlign K = .ok (some i, K) ∧ size + 20 ≤ origHoleSize
  header : ∃ pos s hhSize r K₁, p = add32 pos sizeofHeader ∧ size + 20 ≤ hhSize ∧
    carve pos s hhSize r K₁ = .ok (p, K')

theorem place_carves {newSize : Nat} (at_i : HoleAt K i hole origHoleSize)
    (ran : place i size newSize pageAlign K = .ok (p, K')) :
    ∃ pos s r K₁, p = add32 pos sizeofHeader ∧
      carve pos s (blockSize newSize origHoleSize) r K₁ = .ok (p, K') := by
  have carved : ∀ {pos s r : Nat} {L : KState}, wp (carve pos s (blockSize newSize origHoleSize) r)
      (fun p K' => ∃ pos s r K₁, p = add32 pos sizeofHeader ∧
        carve pos s (blockSize newSize origHoleSize) r K₁ = .ok (p, K')) (fun _ => True) L :=
    wp_mono (wp_ran (carve_result _ _ _ _)) (fun p K' done => ⟨_, _, _, _, done.2, done.1⟩)
      fun _ h => h
  have placed : wp (place i size newSize pageAlign) (fun p K' => ∃ pos s r K₁,
      p = add32 pos sizeofHeader ∧
        carve pos s (blockSize newSize origHoleSize) r K₁ = .ok (p, K')) (fun _ => True) K := by
    rw [place, wp_bind, wp_of_ok at_i.lookup, wp_bind, wp_of_ok at_i.size, wp_ite]
    refine ⟨fun _ => ?_, fun _ => wp_bind_of (wp_true _ _) fun _ _ _ => carved⟩
    exact wp_bind_of (wp_true _ _) fun _ _ _ => wp_bind_of (wp_true _ _) fun _ _ _ =>
      wp_bind_of (wp_true _ _) fun _ _ _ => carved
  exact wp_ok placed ran

theorem holeAt_of_place {newSize : Nat} (ran : place i size newSize pageAlign K = .ok (p, K')) :
    ∃ hole origHoleSize, HoleAt K i hole origHoleSize := by
  have placed : wp (place i size newSize pageAlign) (fun _ _ => ∃ hole origHoleSize,
      HoleAt K i hole origHoleSize) (fun _ => True) K := by
    rw [place]
    refine wp_bind_of (wp_ran (lookupIndex_keeps i K)) ?_
    rintro hole K₁ ⟨lookup, rfl⟩
    refine wp_bind_of (wp_ran (read32_keeps _ _)) ?_
    rintro origHoleSize K₂ ⟨size, rfl⟩
    exact wp_mono (wp_true _ _) (fun _ _ _ => ⟨hole, origHoleSize, lookup, size⟩) fun _ h => h
  have found := wp_ok placed ran
  exact found

/-- The attempt in `K` takes a hole, and returns `p`. -/
def Takes (size : Nat) (pageAlign : Bool) (K : KState) (p : Nat) (K' : KState) : Prop :=
  ∃ i, findSmallestHole (allocNewSize size) pageAlign K = .ok (some i, K) ∧
    place i size (allocNewSize size) pageAlign K = .ok (p, K')

theorem Takes.granted (takes : Takes size pageAlign K p K') (noWrap : NoWrap size pageAlign K) :
    Granted size pageAlign K p K' := by
  obtain ⟨i, found, ran⟩ := takes
  obtain ⟨hole, origHoleSize, at_i⟩ := holeAt_of_place ran
  obtain ⟨enough, block⟩ := (exactAttempt_of_noWrap noWrap).hole i hole origHoleSize found at_i
  obtain ⟨pos, s, r, K₁, result, carved⟩ := place_carves at_i ran
  exact ⟨⟨i, hole, origHoleSize, at_i, found, enough⟩, pos, s, _, r, K₁, result, block, carved⟩

/-- What an attempt of `alloc` does when no hole fits. -/
inductive AttemptStep (size : Nat) (pageAlign : Bool) : KState → Nat → KState → Prop where
  | grow {K K' : KState} {fuel : Nat}
      (missing : findSmallestHole (allocNewSize size) pageAlign K = .ok (none, K))
      (ran : grow (alloc fuel) (allocNewSize size) K = .ok ((), K')) :
      AttemptStep size pageAlign K fuel K'

/-- A call that returns took its block in one of its attempts. -/
theorem attempt_of_alloc (fuel : Nat) (ran : alloc fuel size pageAlign K = .ok (p, K')) :
    ∃ L, Reachable (AttemptStep size pageAlign) K L ∧ Takes size pageAlign L p K' := by
  induction fuel generalizing K p K' with
  | zero => cases ran
  | succ fuel ih =>
      have attempt : wp (alloc (fuel + 1) size pageAlign) (fun p K' =>
          ∃ L, Reachable (AttemptStep size pageAlign) K L ∧ Takes size pageAlign L p K')
          (fun _ => True) K := by
        rw [alloc]
        refine wp_bind_of (wp_ran (findSmallestHole_keeps _ _ K)) ?_
        rintro found L ⟨search, rfl⟩
        cases found with
        | none =>
            refine wp_bind_of (wp_ran (wp_true _ _)) fun _ L' grown => ?_
            refine wp_mono (wp_ran (wp_true _ _)) (fun p K' retried => ?_) fun _ _ => trivial
            obtain ⟨M, reached, takes⟩ := ih retried.1
            exact ⟨M, .trans (.single (i := fuel) trivial (.grow search grown.1)) reached, takes⟩
        | some i =>
            refine wp_mono (wp_ran (wp_true _ _)) (fun p K' placed => ?_) fun _ _ => trivial
            exact ⟨_, .refl, i, search, placed.1⟩
      exact wp_ok attempt ran

/-- The block of a sound call has its `hh_size` in memory. -/
theorem size_of_sound {bs : List Block} {fuel : Nat} (h : HeapInv K bs)
    (sound : AllocSound Resize.any size pageAlign K)
    (ran : alloc fuel size pageAlign K = .ok (p, K')) : size + 20 ≤ K'.view.word (p - 12 + 8) := by
  obtain ⟨bs', allocated⟩ := wp_ok (wp_alloc sound fuel h) ran
  obtain ⟨a, z, rfl, member⟩ := mem_liveRanges.mp
    (allocated.live.mem_iff.mpr List.mem_cons_self)
  have tagged := allocated.inv.blocks.tagged _ member
  have fits := tagged.fits _ rfl
  have header := tagged.header.size
  dsimp only at fits header
  rw [Nat.add_sub_cancel, header]
  exact fits

/-- **Limits of `alloc`.**  In a heap that is in order, an attempt is exact when nothing
wraps, and only then.  An attempt after a growth is exact too when nothing wraps in it, and if it
takes a block, it takes it out of a hole that is large enough and gives it a size that is large
enough.  So a call in which nothing wraps returns such a block; where the call is sound, that size
is what the memory holds in the end. -/
theorem alloc_limits {bs : List Block} (h : HeapInv K bs) (limit : K.heap.hAddrMax < 4294967296)
    (size : Nat) (pageAlign : Bool) :
    (ExactAttempt size pageAlign K ↔ NoWrap size pageAlign K) ∧
      (∀ L, Reachable (AttemptStep size pageAlign) K L → NoWrap size pageAlign L →
        ExactAttempt size pageAlign L ∧
          ∀ p K', Takes size pageAlign L p K' → Granted size pageAlign L p K') ∧
      ∀ fuel p K', alloc fuel size pageAlign K = .ok (p, K') →
        ((∀ L, Reachable (AttemptStep size pageAlign) K L → NoWrap size pageAlign L) →
          ∃ L, Reachable (AttemptStep size pageAlign) K L ∧ Granted size pageAlign L p K') ∧
        (AllocSound Resize.any size pageAlign K → size + 20 ≤ K'.view.word (p - 12 + 8)) := by
  refine ⟨exactAttempt_iff h limit, fun L _ noWrap =>
    ⟨exactAttempt_of_noWrap noWrap, fun p K' takes => takes.granted noWrap⟩, fun fuel p K' ran => ?_⟩
  refine ⟨fun noWrap => ?_, fun sound => size_of_sound h sound ran⟩
  obtain ⟨L, reached, takes⟩ := attempt_of_alloc fuel ran
  exact ⟨L, reached, takes.granted (noWrap L reached)⟩

end Returned

theorem bootHeap_bounds :
    bootHeap.kernel.bounds = (0xC0081000, 0xC0100000, 0xCFFFF000) := by decide +kernel

/-- A page that is aligned, in the heap after `init_heap`. -/
theorem page_within_limits : ExactAttempt 0x1000 true bootHeap.kernel := by
  have inv := (started_runInv bootKState_regionMapped bootHeap_started).inv
  obtain ⟨start, stop⟩ := Prod.mk.inj bootHeap_bounds
  obtain ⟨stop, max⟩ := Prod.mk.inj stop
  refine (alloc_limits inv (by rw [max]; decide) 0x1000 true).1.mpr ⟨fun i _ => by decide, ?_⟩
  intro _ _
  rw [KState.exactEnd, KState.oldLength, start, stop]
  decide

/-- A size whose sum with the tags is 12: the rest of the hole begins where the block should.
For 1 GiB no hole fits, and `expand` passes its assertions though the heap would end behind the
address space. -/
theorem wrapped_request_granted :
    ∃ bs p K', HeapInv bootHeap.kernel bs ∧ bootHeap.kernel.heap.hAddrMax < 4294967296 ∧
      alloc 1 0xFFFFFFF8 false bootHeap.kernel = .ok (p, K') ∧
      K'.view.word (p - 12 + 8) < 0xFFFFFFF8 + 20 ∧ K'.indexed = [p] ∧
      ∃ K₁, findSmallestHole (allocNewSize 0x40000000) false bootHeap.kernel = .ok (none, K₁) ∧
        bootHeap.kernel.ExpandPasses
          (add32 bootHeap.kernel.oldLength (allocNewSize 0x40000000)) ∧
        bootHeap.kernel.heap.hAddrMax < bootHeap.kernel.exactEnd 0x40000000 := by
  have inv := (started_runInv bootKState_regionMapped bootHeap_started).inv
  obtain ⟨start, stop⟩ := Prod.mk.inj bootHeap_bounds
  obtain ⟨stop, max⟩ := Prod.mk.inj stop
  have ran : (alloc 1 0xFFFFFFF8 false bootHeap.kernel).toOption.map
      (fun r => decide (r.2.indexed = [r.1])) = some true := by decide +kernel
  have searched : (findSmallestHole (allocNewSize 0x40000000) false bootHeap.kernel).toOption.map
      (fun r => decide (r.1 = none)) = some true := by decide +kernel
  obtain ⟨⟨p, K'⟩, taken, rest⟩ := Option.map_eq_some_iff.mp ran
  obtain ⟨⟨found, K₁⟩, missing, none⟩ := Option.map_eq_some_iff.mp searched
  obtain rfl := of_decide_eq_true none
  have word := Mem.word_lt K'.view (p - 12 + 8)
  refine ⟨_, p, K', inv, by rw [max]; decide, ok_of_toOption taken, by omega,
    of_decide_eq_true rest, K₁,
    ok_of_toOption missing, ?_, ?_⟩
  · rw [KState.ExpandPasses, KState.oldLength, start, stop, max]
    decide
  · rw [KState.exactEnd, KState.oldLength, start, stop, max]
    decide

end MiniKernel.Kernel
