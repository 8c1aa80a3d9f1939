/-
# Kernel.HeapAligned -- page-aligned allocation

`find_smallest_hole` and `alloc` compute the gap in front of an aligned block by
different formulas, and whether the rest behind the block is absorbed is decided
before the gap is subtracted.  `TakenFrom` is what an aligned allocation should do
to its hole; it does so exactly when `PlaceSound` holds of the hole, and the index
has room for the rest.
-/
import MiniKernel.Kernel.HeapRuns

namespace MiniKernel.Kernel

open Theory VmPageDirectory

set_option autoImplicit false

/-- The address `alloc` returns for an aligned block in the hole at `hole`. -/
def alignedPlace (hole : Nat) : Nat := hole - hole % 0x1000 + 0x1000

/-! ## The address -/

section Result

variable {K : KState}

theorem carve_result (pos size newSize holeSize : Nat) :
    Program.wp (carve pos size newSize holeSize) (fun p _ => p = add32 pos sizeofHeader)
      (fun _ => True) K := by
  rw [carve]
  refine Program.wp_bind_of (Program.wp_true _ _) fun _ _ _ => ?_
  refine Program.wp_bind_of (Program.wp_true _ _) fun _ _ _ => ?_
  refine (Program.wp_ite _ _ _ _ _ _).mpr ⟨fun _ => ?_, fun _ => rfl⟩
  refine Program.wp_bind_of (Program.wp_true _ _) fun _ _ _ => ?_
  refine Program.wp_bind_of (Program.wp_true _ _) fun _ _ _ => ?_
  refine (Program.wp_ite _ _ _ _ _ _).mpr ⟨fun _ => ?_, fun _ => ?_⟩
  · refine Program.wp_bind_of (Program.wp_true _ _) fun _ _ _ => ?_
    exact Program.wp_bind_of (Program.wp_true _ _) fun _ _ _ => rfl
  · exact Program.wp_bind_of (Program.wp_true _ _) fun _ _ _ => rfl

theorem place_result {i hole size newSize : Nat} (at_i : K.indexed[i]? = some hole)
    (low : 0x1000 ≤ hole) (high : hole < 4294963200) :
    Program.wp (place i size newSize true) (fun p _ => p = alignedPlace hole) (fun _ => True) K := by
  have nonzero : hole &&& pageMask ≠ 0 := by
    rw [Ne, land_pageMask_eq_zero (by omega)]
    omega
  rw [place, Program.wp_bind, wp_lookupIndex at_i]
  refine Program.wp_bind_of (Program.wp_true _ _) fun _ _ _ => ?_
  dsimp only
  rw [if_pos ⟨rfl, nonzero⟩]
  refine Program.wp_bind_of (Program.wp_true _ _) fun _ _ _ => ?_
  refine Program.wp_bind_of (Program.wp_true _ _) fun _ _ _ => ?_
  refine Program.wp_bind_of (Program.wp_true _ _) fun _ _ _ => ?_
  refine Program.wp_mono (carve_result _ _ _ _) (fun p _ here => ?_) fun _ h => h
  rw [here, land_pageOffset]
  unfold add32 sub32 sizeofHeader alignedPlace
  omega

end Result

/-! ## A rest without room for tags -/

/-- The last word of a page of the range. -/
structure LastWord (lo hi w : Nat) : Prop where
  lower : lo ≤ w
  upper : w + 4 ≤ hi
  last : w % 0x1000 = 0xFFC
  aligned : hi % 0x1000 = 0

section Behind

variable {K : KState} {lo hi w : Nat}

/-- A write leaves a byte alone that lies elsewhere in the range or elsewhere in
its page. -/
theorem view_put8_of_apart {lo hi w x : Nat} (backed : Backed K lo hi) (h1 : lo ≤ w) (h2 : w < hi)
    (apart : lo ≤ x ∧ x < hi ∧ x ≠ w ∨ x % 0x1000 ≠ w % 0x1000) (v : UInt8) :
    (K.put8 x v).view w = K.view w := by
  obtain ⟨a, -, at_w⟩ := backed.translate h1 h2
  rw [KState.view, KState.view, KState.put8_translate, at_w, KState.put8]
  cases at_x : K.translate x with
  | none => rfl
  | some q =>
      refine if_neg fun same => ?_
      rcases apart with ⟨h3, h4, other⟩ | offset
      · exact other (backed.translate_inj h3 h4 h1 h2 at_x (same ▸ at_w))
      · rw [KState.translate, if_pos backed.on] at at_x
        split at at_x
        · split at at_x
          · have := Option.some.inj at_x
            omega
          · cases at_x
        · cases at_x

/-- Writes behind the last word of a page leave it alone, up to the last word of the
page behind the range. -/
theorem wp_write8_behind (backed : Backed K lo hi) (at_w : LastWord lo hi w) {x : Nat} (v : UInt8)
    (above : w + 4 ≤ x) (near : x < hi + 0xFFC) :
    Program.wp (write8 x v)
      (fun _ K' => Backed K' lo hi ∧ K'.view.word w = K.view.word w) (fun _ => True) K := by
  obtain ⟨lower, upper, last, aligned⟩ := at_w
  unfold Program.wp write8
  cases K.translate x with
  | none => trivial
  | some q =>
      refine ⟨backed.congr (by simp) (by simp), Mem.word_congr fun b h1 h2 => ?_⟩
      exact view_put8_of_apart backed (by omega) (by omega) (by omega) v

theorem wp_write32_behind (backed : Backed K lo hi) (at_w : LastWord lo hi w) {x : Nat} (v : Nat)
    (above : w + 4 ≤ x) (near : x + 4 ≤ hi + 0xFFC) :
    Program.wp (write32 x v)
      (fun _ K' => Backed K' lo hi ∧ K'.view.word w = K.view.word w) (fun _ => True) K := by
  rw [write32]
  refine Program.wp_bind_of (wp_write8_behind backed at_w _ above (by omega)) ?_
  rintro ⟨⟩ K₁ ⟨backed, word₁⟩
  refine Program.wp_bind_of (wp_write8_behind backed at_w _ (by omega) (by omega)) ?_
  rintro ⟨⟩ K₂ ⟨backed, word₂⟩
  refine Program.wp_bind_of (wp_write8_behind backed at_w _ (by omega) (by omega)) ?_
  rintro ⟨⟩ K₃ ⟨backed, word₃⟩
  refine Program.wp_mono (wp_write8_behind backed at_w _ (by omega) (by omega)) ?_ fun _ h => h
  rintro ⟨⟩ K₄ ⟨backed, word₄⟩
  exact ⟨backed, by rw [word₄, word₃, word₂, word₁]⟩

theorem wp_setHeader_behind (backed : Backed K lo hi) (at_w : LastWord lo hi w) {x : Nat}
    (isHole size : Nat) (top : hi + 0xFFC < 4294967296) (above : w + 4 ≤ x)
    (near : x + 12 ≤ hi + 0xFFC) :
    Program.wp (setHeader x isHole size)
      (fun _ K' => Backed K' lo hi ∧ K'.view.word w = K.view.word w) (fun _ => True) K := by
  rw [setHeader, setHhMagic, setHhIsHole, setHhSize, add32_eq (by omega), add32_eq (by omega)]
  refine Program.wp_bind_of (wp_write32_behind backed at_w _ above (by omega)) ?_
  rintro ⟨⟩ K₁ ⟨backed, word₁⟩
  refine Program.wp_bind_of (wp_write32_behind backed at_w _ (by omega) (by omega)) ?_
  rintro ⟨⟩ K₂ ⟨backed, word₂⟩
  refine Program.wp_mono (wp_write32_behind backed at_w _ (by omega) (by omega)) ?_ fun _ h => h
  rintro ⟨⟩ K₃ ⟨backed, word₃⟩
  exact ⟨backed, by rw [word₃, word₂, word₁]⟩

theorem wp_setFooter_behind (backed : Backed K lo hi) (at_w : LastWord lo hi w) {x : Nat}
    (header : Nat) (top : hi + 0xFFC < 4294967296) (above : w + 4 ≤ x)
    (near : x + 8 ≤ hi + 0xFFC) :
    Program.wp (setFooter x header)
      (fun _ K' => Backed K' lo hi ∧ K'.view.word w = K.view.word w) (fun _ => True) K := by
  rw [setFooter, setHfMagic, setHfHeader, add32_eq (by omega)]
  refine Program.wp_bind_of (wp_write32_behind backed at_w _ above (by omega)) ?_
  rintro ⟨⟩ K₁ ⟨backed, word₁⟩
  refine Program.wp_mono (wp_write32_behind backed at_w _ (by omega) (by omega)) ?_ fun _ h => h
  rintro ⟨⟩ K₂ ⟨backed, word₂⟩
  exact ⟨backed, by rw [word₂, word₁]⟩

/-- An insertion changes the index only. -/
theorem insertIndex_view (header : Nat) :
    Program.wp (insertIndex header) (fun _ K' => K'.view = K.view) (fun _ => True) K := by
  unfold Program.wp insertIndex
  cases K.heap.hIndex.insertSortedArray (callCmp K) header with
  | error e => trivial
  | ok index => rfl

/-- A rest too small for the tags of a hole gets them all the same, behind the
block. -/
theorem carve_small_rest {m : Mem} (sees : Sees K lo hi m) (top : hi < 4294967296)
    (aligned : hi % 0x1000 = 0) {pos size holeSize : Nat} (hlo : lo ≤ pos)
    (hhi : pos + holeSize ≤ hi) (page : pos % 0x1000 = 0xFF4)
    (more : size + 20 < holeSize) (less : holeSize < size + 40) :
    Program.wp (carve pos size (size + 20) holeSize)
      (fun _ K' => K'.view.word (pos + 8) = size + 20) (fun _ => True) K := by
  have at_w : LastWord lo hi (pos + 8) := ⟨by omega, by omega, by omega, aligned⟩
  have footer : add32 (add32 pos sizeofHeader) size = pos + size + 12 := by
    unfold add32 sizeofHeader; omega
  have behind : add32 (pos + size + 12) sizeofFooter = pos + (size + 20) := by
    unfold add32 sizeofFooter; omega
  have left : sub32 holeSize (size + 20) = holeSize - (size + 20) := sub32_eq (by omega) (by omega)
  have last : sub32 (sub32 (add32 (pos + (size + 20)) holeSize) (size + 20)) sizeofFooter =
      pos + holeSize - 8 := by
    unfold sub32 add32 sizeofFooter; omega
  rw [carve, footer, behind, left]
  refine (Program.wp_bind _ _ _ _ _).mpr (wp_setHeader sees (by omega) hlo (by omega)
    fun mem sees => ?_)
  have header : IsHeader (headerAt m pos 0 (size + 20)) pos 0 (size + 20) :=
    isHeader_headerAt (by decide) (by omega)
  have start := (sees.word (by omega) (by omega)).trans header.size
  refine Program.wp_bind_of (wp_setFooter_behind sees.backed at_w pos (by omega) (by omega)
    (by omega)) ?_
  rintro ⟨⟩ K₁ ⟨backed, word₁⟩
  refine (Program.wp_ite _ _ _ _ _ _).mpr ⟨fun _ => ?_, fun none => absurd (by omega) none⟩
  refine Program.wp_bind_of (wp_setHeader_behind backed at_w 1 _ (by omega) (by omega) (by omega)) ?_
  rintro ⟨⟩ K₂ ⟨backed, word₂⟩
  rw [Program.wp_bind, Program.wp_get, last]
  refine (Program.wp_ite _ _ _ _ _ _).mpr ⟨fun _ => ?_, fun _ => ?_⟩
  · refine Program.wp_bind_of (wp_setFooter_behind backed at_w _ (by omega) (by omega) (by omega)) ?_
    rintro ⟨⟩ K₃ ⟨-, word₃⟩
    refine Program.wp_bind_of (insertIndex_view _) fun _ K₄ same => ?_
    rw [Program.wp_pure, same, word₃, word₂, word₁, start]
  · refine Program.wp_bind_of (insertIndex_view _) fun _ K₄ same => ?_
    rw [Program.wp_pure, same, word₂, word₁, start]

end Behind

/-! ## Taking an aligned block -/

section Aligned

variable {K : KState} {bs : List Block}

/-- `alloc` takes a page-aligned block out of the hole that fits. -/
theorem wp_alloc_aligned (h : HeapInv K bs) (n : Nat) {size hole : Nat} {E : Stop → Prop}
    (fit : K.fit size true = some hole)
    (sound : PlaceSound size true hole (K.view.word (hole + 8)))
    (full : K.view.word (hole + 8) ≠ paddingSize hole + size + 20 →
      K.heap.hIndex.saMaxsize ≤ K.heap.hIndex.saSize → E (.panic (.assertion .hasRoom))) :
    Program.wp (alloc (n + 1) size true)
      (fun p K' => p % 0x1000 = 0 ∧ TakenFrom K K' hole (K.view.word (hole + 8)) p size ∧
        (K.view.word (hole + 8) = paddingSize hole + size + 20 ∨
          K.heap.hIndex.saSize < K.heap.hIndex.saMaxsize)) E K := by
  obtain ⟨i, found, at_i⟩ := firstFit_of_fit fit
  have small := Mem.word_lt K.view (hole + 8)
  have fits := sound.fits
  have need : add32 (add32 size sizeofHeader) sizeofFooter = size + 20 := by
    unfold add32 sizeofHeader sizeofFooter
    omega
  have top := h.top
  rw [alloc, Program.wp_bind, wp_findSmallestHole h.sees (by omega) h.indexIn, found]
  dsimp only
  rw [need]
  refine wp_place_aligned h at_i sound full fun mem index bs' placed _ taken _ left => ?_
  exact ⟨placed.aligned rfl, taken, left⟩

/-- A hole whose data begins on a page: the footer of the padding, which has no
bytes, goes in front of the hole. -/
theorem wp_place_edge (h : HeapInv K bs) {i hole size : Nat} (at_i : K.indexed[i]? = some hole)
    (edge : hole % 0x1000 = 0xFF4) (fits : size + 20 ≤ K.view.word (hole + 8)) :
    Program.wp (place i size (size + 20) true)
      (fun _ K' => K'.view.word (hole - 4) = hole) (fun _ => True) K := by
  obtain ⟨hlo, hhi⟩ := h.indexIn hole (mem_indexed at_i)
  have bounds := h.blocks.bounds (h.hole_of_indexed (mem_indexed at_i))
  have top := h.top
  have low := h.low
  have aligned := h.endAligned
  dsimp only at bounds
  have gap : sub32 (sub32 0x1000 (hole &&& 0xFFF)) sizeofHeader = 0 := by
    rw [land_pageOffset, edge]
    rfl
  have location : sub32 (sub32 (add32 hole 0x1000) (hole &&& 0xFFF)) sizeofHeader = hole := by
    rw [land_pageOffset, edge]
    unfold sub32 add32 sizeofHeader
    omega
  have footer : sub32 hole sizeofFooter = hole - 8 := by
    unfold sub32 sizeofFooter
    omega
  have nonzero : hole &&& pageMask ≠ 0 := by
    rw [Ne, land_pageMask_eq_zero (by omega)]
    omega
  obtain ⟨size', le, rest, asize, anew⟩ := absorbed fits (Mem.word_lt _ _)
  rw [place, Program.wp_bind, wp_lookupIndex at_i, Program.wp_bind,
    wp_hhSize h.sees (by omega) hlo hhi]
  dsimp only
  rw [asize, anew, if_pos ⟨rfl, nonzero⟩, gap, location, footer]
  refine (Program.wp_bind _ _ _ _ _).mpr (wp_setHeader h.sees (by omega) hlo (by omega)
    fun mem sees => ?_)
  refine (Program.wp_bind _ _ _ _ _).mpr (wp_setFooter sees (by omega) (by omega) (by omega)
    fun mem sees => ?_)
  dsimp only at sees ⊢
  have header : (footerAt (headerAt K.view hole 1 0) (hole - 8) hole).word (hole + 8) = 0 :=
    ((isHeader_headerAt (by decide) (by decide)).of_agreeOff
      (agreeOff_footerAt hole (.refl (hole - 8) hole _) (Nat.le_refl _) (by omega)) (by omega)).size
  have pointer : (footerAt (headerAt K.view hole 1 0) (hole - 8) hole).word (hole - 4) = hole := by
    have := (isFooter_footerAt (m := headerAt K.view hole 1 0) (f := hole - 8)
      (by omega : hole < 4294967296)).header
    rwa [show hole - 8 + 4 = hole - 4 by omega] at this
  rw [Program.wp_bind, wp_hhSize sees (by omega) hlo hhi, header, sub32_eq (by omega) (Mem.word_lt _ _)]
  refine wp_carve sees rfl h.top h.indexIn h.cmp (by omega) (by omega) le rest (fun _ _ => trivial)
    fun mem index m' sees agree _ _ _ _ _ _ _ => ?_
  exact (sees.word (by omega) (by omega)).trans ((agree.word (by omega)).trans pointer)

/-- A block that ends up inside its hole, with holes or nothing around it, was
taken out of the hole as it should be. -/
theorem placeSound_of_taken (h : HeapInv K bs) (footed : Footed K.view bs) {n size hole p : Nat}
    {K' : KState} (fit : K.fit size true = some hole)
    (ran : alloc (n + 1) size true K = .ok (p, K'))
    (taken : TakenFrom K K' hole (K.view.word (hole + 8)) p size) :
    PlaceSound size true hole (K.view.word (hole + 8)) := by
  obtain ⟨i, found, at_i⟩ := firstFit_of_fit fit
  have member := h.hole_of_indexed (mem_indexed at_i)
  have bounds := h.blocks.bounds member
  have small := Mem.word_lt K.view (hole + 8)
  have top := h.top
  have low := h.low
  have aligned := h.endAligned
  have start := h.startAligned
  dsimp only at bounds
  obtain ⟨⟨front, blockSize, back, blocks, footers, atFront, atBack⟩, outside⟩ := taken
  have inside : (⟨p - 12, blockSize, some size⟩ : Block) ∈
      front ++ ⟨p - 12, blockSize, some size⟩ :: back := by simp
  have within := blocks.bounds inside
  have tagged := blocks.tagged _ inside
  have data := tagged.fits size rfl
  dsimp only at within data
  have need : add32 (add32 size sizeofHeader) sizeofFooter = size + 20 := by
    unfold add32 sizeofHeader sizeofFooter
    omega
  have placed : place i size (size + 20) true K = .ok (p, K') := by
    have call : Program.wp (alloc (n + 1) size true)
        (fun p K' => place i size (size + 20) true K = .ok (p, K')) (fun _ => True) K := by
      rw [alloc, Program.wp_bind, wp_findSmallestHole h.sees (by omega) h.indexIn, found]
      dsimp only
      rw [need]
      refine Program.wp_mono (Program.wp_ran (Program.wp_true _ _)) (fun p K' ran => ran.1)
        fun _ h => h
    have called := Program.wp_ok call ran
    exact called
  have here := Program.wp_ok (place_result at_i (by omega) (by omega)) placed
  unfold alignedPlace at here
  obtain ⟨atStart, ends⟩ := blocks.tiles.cut
  dsimp only at atStart ends
  rcases atFront with rfl | ⟨gap, rfl⟩
  · obtain rfl : hole = p - 12 := atStart
    have written := Program.wp_ok (wp_place_edge h at_i (by omega) (by omega)) placed
    obtain ⟨pre, post, rfl⟩ := List.append_of_mem member
    obtain ⟨c, before, stops⟩ := h.blocks.cut.1.tiles.exists_last (by dsimp only; omega)
    have there := (footed c (List.mem_append_left _ before)).header
    have size := (h.blocks.cut.1.tagged c before).big
    dsimp only at stops
    rw [show c.addr + c.size - 8 + 4 = p - 12 - 4 by omega] at there
    have kept : K'.view.word (p - 12 - 4) = K.view.word (p - 12 - 4) :=
      Mem.word_congr fun a _ _ => outside a (by omega) (by omega) (by omega)
    omega
  · obtain ⟨-, stop⟩ := atStart
    have at_block : hole + gap = p - 12 := stop
    have large := (blocks.tagged _ List.mem_cons_self).big
    dsimp only at large
    have padding : gap = paddingSize hole := by
      unfold paddingSize
      omega
    refine ⟨by omega, fun _ => by omega, fun _ => ?_⟩
    by_contra wrong
    have written := Program.wp_ok (wp_place_padded h at_i (by omega) (by omega) fun mem sees =>
      carve_small_rest sees h.top h.endAligned (by omega) (by omega) (by omega) (by omega) (by omega))
      placed
    have block_size := tagged.header.size
    dsimp only at block_size
    rw [show p - 12 + 8 = hole + paddingSize hole + 8 by omega, written] at block_size
    rcases atBack with rfl | ⟨a, rest, rfl⟩
    · have stop : p - 12 + blockSize = hole + K.view.word (hole + 8) := ends
      omega
    · obtain ⟨-, stop⟩ := ends
      have stop : p - 12 + blockSize + rest = hole + K.view.word (hole + 8) := stop
      have big := (blocks.tagged ⟨a, rest, none⟩ (by simp)).big
      dsimp only at big
      omega

/-- On a heap in order, with footers, an aligned request that a hole is found for is
served as it should be exactly when the request fits behind the padding, the padding
and the rest have room for tags, and the index has room for the rest. -/
theorem takes_aligned_iff (h : HeapInv K bs) (footed : Footed K.view bs) (n : Nat) {size hole : Nat}
    (fit : K.fit size true = some hole) :
    (∃ p K', alloc (n + 1) size true K = .ok (p, K') ∧ p % 0x1000 = 0 ∧
        TakenFrom K K' hole (K.view.word (hole + 8)) p size) ↔
      PlaceSound size true hole (K.view.word (hole + 8)) ∧
        (K.view.word (hole + 8) = paddingSize hole + size + 20 ∨
          K.heap.hIndex.saSize < K.heap.hIndex.saMaxsize) := by
  constructor
  · rintro ⟨p, K', ran, -, taken⟩
    have sound := placeSound_of_taken h footed fit ran taken
    refine ⟨sound, ?_⟩
    have called := Program.wp_ok (wp_alloc_aligned (E := fun _ => True) h n fit sound
      fun _ _ => trivial) ran
    exact called.2.2
  · rintro ⟨sound, room⟩
    have called := wp_alloc_aligned (E := fun _ => False) h n fit sound fun more full => by omega
    obtain ⟨p, K', ran, aligned, taken, -⟩ := Program.wp_some called
    exact ⟨p, K', ran, aligned, taken⟩

end Aligned

/-- Behind a block of 276 bytes. -/
theorem takes_aligned_behind_block :
    ∃ K p K', K.fit 0x1000 true = some 0xC0081114 ∧ alloc 1 0x1000 true K = .ok (p, K') ∧
      p % 0x1000 = 0 ∧ TakenFrom K K' 0xC0081114 519916 p 0x1000 := by
  have ran : ((([.alloc 0x100 false] : List HeapOp).foldlM
      (HeapState.nextSound Resize.any 1) bootHeap).map fun s =>
        decide (tags s.kernel.view s.kernel.heap.hAddrEnd 3 s.kernel.heap.hAddrStart =
            some [(0xC0081000, 0, 276), (0xC0081114, 1, 519916)] ∧
          TagsFooted s.kernel.view [(0xC0081000, 0, 276), (0xC0081114, 1, 519916)] ∧
          s.kernel.fit 0x1000 true = some 0xC0081114 ∧
          s.kernel.view.word (0xC0081114 + 8) = 519916 ∧
          s.kernel.heap.hIndex.saSize < s.kernel.heap.hIndex.saMaxsize)) = some true := by
    decide +kernel
  obtain ⟨s, taken, shape⟩ := Option.map_eq_some_iff.mp ran
  obtain ⟨read, checked, fit, size, room⟩ := of_decide_eq_true shape
  obtain ⟨bs, inv, footed, -⟩ := inv_of_run taken read checked
  obtain ⟨p, K', served, aligned, within⟩ := (takes_aligned_iff inv footed 0 fit).mpr (by
    rw [size]
    exact ⟨⟨by decide, fun _ => by decide, fun _ => by decide⟩, .inr room⟩)
  rw [size] at within
  exact ⟨s.kernel, p, K', fit, served, aligned, within⟩

/-- A hole 12 bytes in front of a page, behind a block of 4084 bytes. -/
theorem aligned_block_breaks_hole :
    ∃ K bs hole, HeapInv K bs ∧ Footed K.view bs ∧ K.fit 0x1000 true = some hole ∧
      ∀ n p K', alloc (n + 1) 0x1000 true K = .ok (p, K') →
        ¬TakenFrom K K' hole (K.view.word (hole + 8)) p 0x1000 := by
  have ran : ((([.alloc 0xFE0 false] : List HeapOp).foldlM
      (HeapState.nextSound Resize.any 1) bootHeap).map fun s =>
        decide (tags s.kernel.view s.kernel.heap.hAddrEnd 3 s.kernel.heap.hAddrStart =
            some [(0xC0081000, 0, 4084), (0xC0081FF4, 1, 516108)] ∧
          TagsFooted s.kernel.view [(0xC0081000, 0, 4084), (0xC0081FF4, 1, 516108)] ∧
          s.kernel.fit 0x1000 true = some 0xC0081FF4)) = some true := by
    decide +kernel
  obtain ⟨s, taken, shape⟩ := Option.map_eq_some_iff.mp ran
  obtain ⟨read, checked, fit⟩ := of_decide_eq_true shape
  obtain ⟨bs, inv, footed, -⟩ := inv_of_run taken read checked
  refine ⟨s.kernel, bs, _, inv, footed, fit, fun n p K' called within => ?_⟩
  exact absurd ((placeSound_of_taken inv footed fit called within).padding rfl) (by decide)

end MiniKernel.Kernel
