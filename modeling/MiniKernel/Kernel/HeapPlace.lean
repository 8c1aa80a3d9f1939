/-
# Kernel.HeapPlace -- carving a block out of a hole

`alloc` takes a hole, cuts the padding of an aligned block off its front, and
leaves what is behind the block as a new hole.  `PlaceSound` is when this keeps
the heap in order: the size does not wrap, the padding has room for the tags of a
hole, and what is behind the block is nothing or has room for them too.
-/
import MiniKernel.Kernel.HeapInvariant

namespace MiniKernel.Kernel

open Theory

set_option autoImplicit false

/-- A live block of `size` bytes at `pos`, and a hole behind it up to `holeSize`. -/
def carved (pos size holeSize asked : Nat) : List Block :=
  ⟨pos, size, some asked⟩ ::
    if holeSize = size then [] else [⟨pos + size, holeSize - size, none⟩]

@[simp] theorem liveRanges_carved (pos size holeSize asked : Nat) :
    liveRanges (carved pos size holeSize asked) = [(pos + 12, asked)] := by
  unfold carved
  split <;> rfl

/-- What is behind the block is nothing or a hole. -/
theorem carved_eq (pos size holeSize asked : Nat) : ∃ back,
    carved pos size holeSize asked = ⟨pos, size, some asked⟩ :: back ∧
      (back = [] ∨ ∃ a s, back = [⟨a, s, none⟩]) := by
  refine ⟨_, rfl, ?_⟩
  by_cases whole : holeSize = size
  · exact .inl (if_pos whole)
  · exact .inr ⟨_, _, if_neg whole⟩

/-- Of `left` bytes, nothing is left, or the hole at `rest` is new in the index. -/
inductive Filed (K : KState) (index : SortedArray Nat CmpFunc) (rest left : Nat) : Prop where
  | nothing (none : left = 0) (same : index.toList = K.indexed) : Filed K index rest left
  | rest {k : Nat} (some : 0 < left) (space : K.heap.hIndex.saSize < K.heap.hIndex.saMaxsize)
      (le : k ≤ K.indexed.length)
      (list : index.toList = K.indexed.insertIdx k rest) : Filed K index rest left

section Rules

variable {K : KState} {lo hi : Nat} {m : Mem} {E : Stop → Prop}

/-- The block at `pos` after the header and the footer are written. -/
theorem tagged_block {pos size asked : Nat} (fits : pos + size + 20 < 4294967296)
    (room : asked ≤ size) :
    Block.Tagged (footerAt (headerAt m pos 0 (size + 20)) (pos + size + 12) pos)
      ⟨pos, size + 20, some asked⟩ := by
  refine Block.tagged_live ?_ ?_ (by omega)
  · exact (isHeader_headerAt (by decide) (by omega)).of_agreeOff
      (agreeOff_footerAt pos (Mem.AgreeOff.refl (pos + size + 12) (pos + size + 20) _) (by omega)
        (by omega)) (by omega)
  · rw [show pos + (size + 20) - 8 = pos + size + 12 by omega]
    exact isFooter_footerAt (by omega)

/-- The hole behind the block after its header and its footer are written. -/
theorem tagged_rest {pos size holeSize : Nat} (fits : pos + holeSize < 4294967296)
    (large : size + 40 ≤ holeSize) :
    Block.Tagged (footerAt (headerAt m (pos + (size + 20)) 1 (holeSize - (size + 20)))
      (pos + holeSize - 8) (pos + (size + 20)))
      ⟨pos + (size + 20), holeSize - (size + 20), none⟩ :=
  Block.tagged_hole ((isHeader_headerAt (by decide) (by omega)).of_agreeOff
    (agreeOff_footerAt _ (Mem.AgreeOff.refl (pos + holeSize - 8) (pos + holeSize) _) (Nat.le_refl _)
      (by omega)) (by omega)) (by omega)

/-- The block and the hole behind it. -/
theorem blocks_carved_rest {pos size holeSize asked : Nat} (fits : pos + holeSize < 4294967296)
    (large : size + 40 ≤ holeSize) (block : Block.Tagged m ⟨pos, size + 20, some asked⟩) :
    Blocks (footerAt (headerAt m (pos + (size + 20)) 1 (holeSize - (size + 20)))
        (pos + holeSize - 8) (pos + (size + 20))) pos (carved pos (size + 20) holeSize asked)
        (pos + holeSize) ∧
      Footed (footerAt (headerAt m (pos + (size + 20)) 1 (holeSize - (size + 20)))
        (pos + holeSize - 8) (pos + (size + 20))) (carved pos (size + 20) holeSize asked) := by
  have pair : carved pos (size + 20) holeSize asked =
      [⟨pos, size + 20, some asked⟩, ⟨pos + (size + 20), holeSize - (size + 20), none⟩] := by
    simp [carved, show holeSize ≠ size + 20 by omega]
  have behind_block : Mem.AgreeOff (pos + (size + 20)) (pos + holeSize) m _ :=
    agreeOff_footerAt (pos + (size + 20)) (agreeOff_headerAt 1 (holeSize - (size + 20))
      (.refl _ _ m) (Nat.le_refl _) (by omega)) (f := pos + holeSize - 8) (by omega) (by omega)
  have kept := block.of_agreeOff behind_block (.inl (Nat.le_refl _))
  rw [pair]
  constructor
  · refine .cons kept ?_
    have tail := Blocks.cons (tagged_rest (m := m) fits large) (.nil _ _)
    dsimp only at tail ⊢
    rwa [show pos + (size + 20) + (holeSize - (size + 20)) = pos + holeSize by omega] at tail
  · rw [footed_cons, footed_cons]
    refine ⟨kept.footer _ rfl, ?_, footed_nil _⟩
    dsimp only
    rw [show pos + (size + 20) + (holeSize - (size + 20)) - 8 = pos + holeSize - 8 by omega]
    exact isFooter_footerAt (by omega)

theorem wp_carve (sees : Sees K lo hi m) (ends : K.heap.hAddrEnd = hi) (top : hi < 4294967296)
    (inside : K.IndexIn lo hi) (cmp : K.heap.hIndex.saCmp = some .vmHeapHeader)
    {pos size asked holeSize : Nat} (hlo : lo ≤ pos) (hhi : pos + holeSize ≤ hi)
    (room : asked ≤ size) (rest : holeSize = size + 20 ∨ size + 40 ≤ holeSize)
    {Q : Nat → KState → Prop}
    (full : holeSize ≠ size + 20 → K.heap.hIndex.saMaxsize ≤ K.heap.hIndex.saSize →
      E (.panic (.assertion .hasRoom)))
    (post : ∀ mem index m', Sees { K with mem := mem } lo hi m' →
      Mem.AgreeOff pos (pos + holeSize) m m' →
      Blocks m' pos (carved pos (size + 20) holeSize asked) (pos + holeSize) →
      index.toList.Perm (holes (carved pos (size + 20) holeSize asked) ++ K.indexed) →
      index.saCmp = K.heap.hIndex.saCmp → index.saMaxsize = K.heap.hIndex.saMaxsize →
      (SortedBySize m' K.indexed → (∀ a ∈ K.indexed, m'.word (a + 8) < 2147483648) →
        holeSize < 2147483648 → SortedBySize m' index.toList) →
      Footed m' (carved pos (size + 20) holeSize asked) →
      Filed K index (pos + (size + 20)) (holeSize - (size + 20)) →
      Q (pos + 12) (KState.setIndex { K with mem := mem } index)) :
    Program.wp (carve pos size (size + 20) holeSize) Q E K := by
  have footer : add32 (add32 pos sizeofHeader) size = pos + size + 12 := by
    unfold add32 sizeofHeader; omega
  have behind : add32 (pos + size + 12) sizeofFooter = pos + (size + 20) := by
    unfold add32 sizeofFooter; omega
  have left : sub32 holeSize (size + 20) = holeSize - (size + 20) := sub32_eq (by omega) (by omega)
  have result : add32 pos sizeofHeader = pos + 12 := by
    unfold add32 sizeofHeader; omega
  have agree₁ : Mem.AgreeOff pos (pos + holeSize) m (headerAt m pos 0 (size + 20)) :=
    agreeOff_headerAt _ _ (.refl _ _ _) (Nat.le_refl _) (by omega)
  have agree₂ := agreeOff_footerAt pos agree₁ (f := pos + size + 12) (by omega) (by omega)
  have block : Block.Tagged _ ⟨pos, size + 20, some asked⟩ := tagged_block (m := m) (by omega) room
  rw [carve, footer, behind, left, result]
  refine (Program.wp_bind _ _ _ _ _).mpr (wp_setHeader sees (by omega) hlo (by omega)
    fun mem sees => ?_)
  refine (Program.wp_bind _ _ _ _ _).mpr (wp_setFooter sees (by omega) (by omega) (by omega)
    fun mem sees => ?_)
  dsimp only at sees ⊢
  rw [Program.wp_ite]
  refine ⟨fun more => ?_, fun none => ?_⟩
  · have large : size + 40 ≤ holeSize := by omega
    have last : sub32 (sub32 (add32 (pos + (size + 20)) holeSize) (size + 20)) sizeofFooter =
        pos + holeSize - 8 := by
      unfold sub32 add32 sizeofFooter; omega
    rw [last]
    refine (Program.wp_bind _ _ _ _ _).mpr (wp_setHeader sees (by omega) (by omega) (by omega)
      fun mem sees => ?_)
    rw [Program.wp_bind, Program.wp_get, if_pos (by dsimp only; omega)]
    refine (Program.wp_bind _ _ _ _ _).mpr (wp_setFooter sees (by omega) (by omega) (by omega)
      fun mem sees => ?_)
    dsimp only at sees ⊢
    have behind_block : Mem.AgreeOff (pos + (size + 20)) (pos + holeSize) _ _ :=
      agreeOff_footerAt (pos + (size + 20)) (agreeOff_headerAt 1 (holeSize - (size + 20))
        (.refl _ _ (footerAt (headerAt m pos 0 (size + 20)) (pos + size + 12) pos)) (Nat.le_refl _)
        (by omega)) (f := pos + holeSize - 8) (by omega) (by omega)
    obtain ⟨tiled, footed⟩ := blocks_carved_rest (by omega) large block
    refine (Program.wp_bind _ _ _ _ _).mpr (wp_insertIndex sees (by omega) inside cmp
      (h := pos + (size + 20)) (by omega) (by omega) (full (by omega))
      fun space index k le list below stop same capacity => ?_)
    refine post _ index _ sees (agree₂.trans (behind_block.mono (by omega) (Nat.le_refl _)))
      tiled ?_ same capacity (fun sorted small fits => ?_) footed (.rest (by omega) space le list)
    · rw [carved, if_neg (by omega), list]
      exact List.perm_insertIdx _ _ le
    · rw [list]
      refine sorted.insertIdx small ?_ le below stop
      rw [(tagged_rest (by omega) large).header.size]
      exact Nat.lt_of_le_of_lt (Nat.sub_le _ _) fits
  · have whole : holeSize = size + 20 := by omega
    subst whole
    have alone : carved pos (size + 20) (size + 20) asked = [⟨pos, size + 20, some asked⟩] := by
      simp [carved]
    refine post mem K.heap.hIndex _ sees agree₂ ?_ ?_ rfl rfl (fun sorted _ _ => sorted) ?_
      (.nothing (Nat.sub_self _) rfl)
    · rw [alone]
      exact .cons block (.nil _ _)
    · rw [alone]
      exact List.Perm.refl _
    · rw [alone, footed_cons]
      exact ⟨block.footer _ rfl, footed_nil _⟩

end Rules

/-! ## place -/

/-- The bytes in front of a page-aligned block in a hole at `hole`. -/
def paddingSize (hole : Nat) : Nat := 0x1000 - hole % 0x1000 - 12

/-- When a block can be taken out of the hole of `hhSize` bytes at `hole`. -/
structure PlaceSound (size : Nat) (pageAlign : Bool) (hole hhSize : Nat) : Prop where
  fits : size + 20 ≤ hhSize
  padding : pageAlign = true → hole % 0x1000 + 32 ≤ 0x1000
  rest : pageAlign = true → hhSize = paddingSize hole + size + 20 ∨
    paddingSize hole + size + 40 ≤ hhSize

/-- What `alloc` does to the heap when it returns `p`. -/
structure Placed (K K' : KState) (bs bs' : List Block) (p size : Nat) (pageAlign : Bool) : Prop where
  inv : HeapInv K' bs'
  kept : ∀ b ∈ bs, b.live ≠ none → Kept K K' bs' b
  live : (liveRanges bs').Perm ((p, size) :: liveRanges bs)
  aligned : pageAlign = true → p % 0x1000 = 0

/-- The hole of `holeSize` bytes at `hole` gave way to the block of `p`, with a hole
or nothing on each side of it; every byte of the heap outside stayed. -/
structure TakenFrom (K K' : KState) (hole holeSize p size : Nat) : Prop where
  pieces : ∃ front blockSize back,
    Blocks K'.view hole (front ++ ⟨p - 12, blockSize, some size⟩ :: back) (hole + holeSize) ∧
      Footed K'.view (front ++ ⟨p - 12, blockSize, some size⟩ :: back) ∧
      (front = [] ∨ ∃ s, front = [⟨hole, s, none⟩]) ∧ (back = [] ∨ ∃ a s, back = [⟨a, s, none⟩])
  outside : ∀ a, K.heap.hAddrStart ≤ a → a < K.heap.hAddrEnd → a < hole ∨ hole + holeSize ≤ a →
    K'.view a = K.view a

/-- The hole at `hole` is the padding of an aligned block now, in its cell of the index; what
is left behind the block is new there, or nothing. -/
structure PaddedFrom (K K' : KState) (hole size : Nat) : Prop where
  padding : K'.view.word (hole + 8) = paddingSize hole
  others : ∀ a ∈ K.indexed, a ≠ hole → K'.view.word (a + 8) = K.view.word (a + 8)
  rest : K.view.word (hole + 8) = paddingSize hole + size + 20 ∧ K'.indexed = K.indexed ∨
    ∃ k rest, k ≤ K.indexed.length ∧ K'.indexed = K.indexed.insertIdx k rest ∧
      rest = hole + paddingSize hole + (size + 20) ∧
      K'.view.word (rest + 8) = K.view.word (hole + 8) - (paddingSize hole + (size + 20))

/-- The hole at `hole` gave way to a live block and what is left behind it, nothing or a
hole; everything else in the heap stayed. -/
structure CarvedFrom (K K' : KState) (bs bs' : List Block) (hole size : Nat) : Prop where
  shape : ∃ pre after z, bs = pre ++ ⟨hole, K.view.word (hole + 8), none⟩ :: after ∧
    bs' = pre ++ (carved hole z (K.view.word (hole + 8)) size ++ after) ∧ size + 20 ≤ z ∧
    (K.view.word (hole + 8) = z ∨ z + 20 ≤ K.view.word (hole + 8))
  footed : Footed K.view bs → Footed K'.view bs'
  outside : ∀ a, K.heap.hAddrStart ≤ a → a < K.heap.hAddrEnd →
    a < hole ∨ hole + K.view.word (hole + 8) ≤ a → K'.view a = K.view a
  capacity : K.heap.hIndex.saSize ≤ K.heap.hIndex.saMaxsize →
    K'.heap.hIndex.saSize ≤ K'.heap.hIndex.saMaxsize

/-- The sizes `alloc` goes on with: a rest too small for the tags of a hole is
added to the block. -/
theorem absorbed {size hhSize : Nat} (fits : size + 20 ≤ hhSize) (small : hhSize < 4294967296) :
    ∃ size', size ≤ size' ∧ (hhSize = size' + 20 ∨ size' + 40 ≤ hhSize) ∧
      (if sub32 hhSize (size + 20) < sizeofHeader + sizeofFooter then
        add32 size (sub32 hhSize (size + 20)) else size) = size' ∧
      (if sub32 hhSize (size + 20) < sizeofHeader + sizeofFooter then hhSize else size + 20) =
        size' + 20 := by
  rw [sub32_eq fits small, show sizeofHeader + sizeofFooter = 20 from rfl]
  by_cases absorb : hhSize - (size + 20) < 20
  · rw [if_pos absorb, if_pos absorb, add32_eq (by omega)]
    exact ⟨_, by omega, by omega, rfl, by omega⟩
  · rw [if_neg absorb, if_neg absorb]
    exact ⟨_, Nat.le_refl _, by omega, rfl, rfl⟩

section Place

variable {K : KState} {bs : List Block} {E : Stop → Prop}

/-- Blocks with one live block in the place of a hole. -/
theorem HeapInv.placed {pre after seg : List Block} {hole hhSize p size : Nat} {pageAlign : Bool}
    {mem : Mem} {m : Mem} {index : SortedArray Nat CmpFunc}
    (h : HeapInv K (pre ++ ⟨hole, hhSize, none⟩ :: after))
    (sees : Sees { K with mem := mem } (K.heap.hAddrStart - 0x1000) K.heap.hAddrEnd m)
    (agree : Mem.AgreeOff hole (hole + hhSize) K.view m)
    (tiled : Blocks m hole seg (hole + hhSize)) (live : liveRanges seg = [(p, size)])
    (perm : index.toList.Perm (holes (pre ++ (seg ++ after))))
    (cmp : index.saCmp = K.heap.hIndex.saCmp) (aligned : pageAlign = true → p % 0x1000 = 0) :
    Placed K (KState.setIndex { K with mem := mem } index)
      (pre ++ ⟨hole, hhSize, none⟩ :: after) (pre ++ (seg ++ after)) p size pageAlign := by
  obtain ⟨inv, kept⟩ := h.replace (u := []) sees agree tiled perm cmp
  refine ⟨inv, fun b mem live => kept b mem ?_, ?_, aligned⟩
  · rintro rfl
    exact live rfl
  · simp only [liveRanges_append, liveRanges_hole, live, List.singleton_append]
    exact List.perm_middle

/-- The order of the index, read in the memory that is left. -/
theorem HeapInv.sorted_of_sees {bs' : List Block} {mem m : Mem} {index : SortedArray Nat CmpFunc}
    (h : HeapInv (KState.setIndex { K with mem := mem } index) bs')
    (sees : Sees { K with mem := mem } (K.heap.hAddrStart - 0x1000) K.heap.hAddrEnd m)
    (sorted : SortedBySize m index.toList) :
    SortedBySize (KState.view { K with mem := mem }) index.toList := by
  refine sorted.congr fun a listed => ?_
  obtain ⟨h1, h2⟩ : K.heap.hAddrStart - 0x1000 ≤ a ∧ a + 12 ≤ K.heap.hAddrEnd := h.indexIn a listed
  exact sees.word (by omega) (by omega)

/-- The index is one cell shorter without the hole in cell `i`. -/
theorem saSize_of_erased {i hole : Nat} {index : SortedArray Nat CmpFunc}
    (at_i : K.indexed[i]? = some hole) (erased : index.toList = K.indexed.eraseIdx i) :
    index.saSize + 1 = K.heap.hIndex.saSize := by
  have listed := (List.getElem?_eq_some_iff.mp at_i).1
  have left := congrArg List.length erased
  rw [SortedArray.length_toList, List.length_eraseIdx_of_lt listed] at left
  rw [length_indexed] at left listed
  omega

/-- The other holes keep their sizes. -/
theorem HeapInv.size_of_erased (h : HeapInv K bs) {i hole a : Nat} {m : Mem}
    (at_i : K.indexed[i]? = some hole)
    (agree : Mem.AgreeOff hole (hole + K.view.word (hole + 8)) K.view m)
    (mem : a ∈ K.indexed.eraseIdx i) : m.word (a + 8) = K.view.word (a + 8) := by
  obtain ⟨j, other, at_j⟩ := List.mem_eraseIdx_iff_getElem?.mp mem
  refine h.size_of_agreeOff (h.hole_of_indexed (mem_indexed at_i)) agree (mem_indexed at_j)
    fun same => other ?_
  exact (List.getElem?_inj (List.getElem?_eq_some_iff.mp at_j).1 h.nodup).mp
    (at_j.trans (by rw [at_i, same]))

/-- What `carve` leaves when it takes the block from the start of the hole. -/
theorem HeapInv.carvedFrom {pre after : List Block} {hole z size : Nat} {mem m : Mem}
    {index : SortedArray Nat CmpFunc}
    (h : HeapInv K (pre ++ ⟨hole, K.view.word (hole + 8), none⟩ :: after))
    (sees : Sees { K with mem := mem } (K.heap.hAddrStart - 0x1000) K.heap.hAddrEnd m)
    (agree : Mem.AgreeOff hole (hole + K.view.word (hole + 8)) K.view m)
    (tiled : Blocks m hole (carved hole z (K.view.word (hole + 8)) size)
      (hole + K.view.word (hole + 8)))
    (carved_footed : Footed m (carved hole z (K.view.word (hole + 8)) size)) (le : size + 20 ≤ z)
    (rest : K.view.word (hole + 8) = z ∨ z + 20 ≤ K.view.word (hole + 8))
    (capacity : K.heap.hIndex.saSize ≤ K.heap.hIndex.saMaxsize → index.saSize ≤ index.saMaxsize) :
    CarvedFrom K (KState.setIndex { K with mem := mem } index)
      (pre ++ ⟨hole, K.view.word (hole + 8), none⟩ :: after)
      (pre ++ (carved hole z (K.view.word (hole + 8)) size ++ after)) hole size := by
  have bounds := h.blocks.bounds (List.mem_append_right pre List.mem_cons_self)
  obtain ⟨front, back⟩ := h.blocks.cut
  dsimp only at bounds front back
  have seen : ∀ a, K.heap.hAddrStart ≤ a → a < K.heap.hAddrEnd →
      KState.view { K with mem := mem } a = m a := fun a h1 h2 => sees.eq a (by omega) h2
  have outside : ∀ a, K.heap.hAddrStart ≤ a → a < K.heap.hAddrEnd →
      a < hole ∨ hole + K.view.word (hole + 8) ≤ a →
      KState.view { K with mem := mem } a = K.view a :=
    fun a h1 h2 off => (seen a h1 h2).trans (agree a off)
  refine ⟨⟨pre, after, z, rfl, rfl, le, rest⟩, fun footed => ?_, outside, capacity⟩
  rw [footed_append, footed_cons] at footed
  obtain ⟨footed₁, -, footed₂⟩ := footed
  rw [footed_append, footed_append]
  refine ⟨?_, ?_, ?_⟩
  · exact Footed.congr front footed₁ fun a h1 h2 => outside a h1 (by omega) (.inl h2)
  · exact Footed.congr tiled carved_footed fun a h1 h2 => seen a (by omega) (by omega)
  · exact Footed.congr back footed₂ fun a h1 h2 => outside a (by omega) h2 (.inr h1)

/-- A block without padding: from the start of the hole. -/
theorem wp_place_plain (h : HeapInv K bs) {i hole size : Nat}
    (at_i : K.indexed[i]? = some hole) (fits : size + 20 ≤ K.view.word (hole + 8))
    {Q : Nat → KState → Prop}
    (full : K.heap.hIndex.saMaxsize < K.heap.hIndex.saSize → E (.panic (.assertion .hasRoom)))
    (post : ∀ mem index bs',
      Placed K (KState.setIndex { K with mem := mem } index) bs bs' (hole + 12) size false →
      CarvedFrom K (KState.setIndex { K with mem := mem } index) bs bs' hole size →
      (SortedBySize K.view K.indexed → (∀ a ∈ K.indexed, K.view.word (a + 8) < 2147483648) →
        SortedBySize (KState.view { K with mem := mem }) index.toList) →
      Q (hole + 12) (KState.setIndex { K with mem := mem } index)) :
    Program.wp (place i size (size + 20) false) Q E K := by
  have member := h.hole_of_indexed (mem_indexed at_i)
  obtain ⟨pre, after, rfl⟩ := List.append_of_mem member
  obtain ⟨hlo, hhi⟩ := h.indexIn hole (mem_indexed at_i)
  have bounds := h.blocks.bounds member
  have top := h.top
  dsimp only at bounds
  obtain ⟨size', le, rest, asize, anew⟩ := absorbed fits (Mem.word_lt _ _)
  rw [place, Program.wp_bind, wp_lookupIndex at_i, Program.wp_bind,
    wp_hhSize h.sees (by omega) hlo hhi]
  dsimp only
  rw [asize, anew, if_neg (by simp)]
  refine (Program.wp_bind _ _ _ _ _).mpr (wp_removeIndex at_i fun index erased same capacity => ?_)
  have fewer := saSize_of_erased at_i erased
  have sees : Sees (K.setIndex index) (K.heap.hAddrStart - 0x1000) K.heap.hAddrEnd K.view :=
    h.sees.congr rfl rfl fun _ _ _ => rfl
  have inside : (K.setIndex index).IndexIn (K.heap.hAddrStart - 0x1000) K.heap.hAddrEnd := by
    intro a mem
    refine h.indexIn a ?_
    rw [KState.indexed, KState.setIndex, erased] at mem
    exact List.mem_of_mem_eraseIdx mem
  refine wp_carve sees rfl h.top inside (same.trans h.cmp) (by omega) (by omega) le rest
    (fun _ filled => full ?_)
    fun mem index' m' sees agree tiled perm same' capacity' order footed' _ => ?_
  · have filled : index.saMaxsize ≤ index.saSize := filled
    omega
  have others : (K.setIndex index).indexed.Perm (holes pre ++ holes after) := by
    refine (List.Perm.of_eq erased).trans (eraseIdx_perm at_i ?_)
    simpa using h.index
  have listed : index'.toList.Perm
      (holes (pre ++ (carved hole (size' + 20) (K.view.word (hole + 8)) size ++ after))) := by
    simp only [holes_append]
    refine (perm.trans (others.append_left _)).trans ?_
    rw [← List.append_assoc, ← List.append_assoc]
    exact List.perm_append_comm.append_right _
  have sees : Sees { K with mem := mem } (K.heap.hAddrStart - 0x1000) K.heap.hAddrEnd m' :=
    sees.congr rfl rfl fun _ _ _ => rfl
  have placed : Placed K _ _ _ (hole + 12) size false :=
    h.placed sees agree tiled (liveRanges_carved _ _ _ _) listed (same'.trans same)
      fun aligned => by cases aligned
  have sizes : ∀ a ∈ (K.setIndex index).indexed, m'.word (a + 8) = K.view.word (a + 8) := by
    intro a mem
    rw [KState.indexed, KState.setIndex, erased] at mem
    exact h.size_of_erased at_i agree mem
  have space : K.heap.hIndex.saSize ≤ K.heap.hIndex.saMaxsize →
      index'.saSize ≤ index'.saMaxsize := by
    intro capable
    have length := perm.length_eq
    rw [List.length_append, SortedArray.length_toList] at length
    have left : (K.setIndex index).indexed.length = index.saSize := SortedArray.length_toList index
    have most : index'.saMaxsize = K.heap.hIndex.saMaxsize := capacity'.trans capacity
    have one : (holes (carved hole (size' + 20) (K.view.word (hole + 8)) size)).length ≤ 1 := by
      unfold carved
      split <;> simp
    omega
  have carvedFrom := h.carvedFrom sees agree tiled footed' (by omega) (by omega) space
  refine post mem index' _ placed carvedFrom fun sorted small => ?_
  refine placed.inv.sorted_of_sees sees (order ?_ ?_ (small _ (mem_indexed at_i)))
  · refine SortedBySize.congr ?_ sizes
    rw [KState.indexed, KState.setIndex, erased]
    exact List.Pairwise.sublist (List.eraseIdx_sublist _ _) sorted
  · intro a mem
    rw [sizes a mem]
    rw [KState.indexed, KState.setIndex, erased] at mem
    exact small a (List.mem_of_mem_eraseIdx mem)

/-- The addresses `alloc` computes for the padding. -/
theorem padding_words {hole : Nat} (room : hole % 0x1000 + 32 ≤ 0x1000) (top : hole < 4294963200) :
    sub32 (sub32 0x1000 (hole &&& 0xFFF)) sizeofHeader = paddingSize hole ∧
      sub32 (sub32 (add32 hole 0x1000) (hole &&& 0xFFF)) sizeofHeader = hole + paddingSize hole ∧
      sub32 (hole + paddingSize hole) sizeofFooter = hole + paddingSize hole - 8 := by
  rw [land_pageOffset]
  unfold sub32 add32 sizeofHeader sizeofFooter paddingSize
  omega

/-- The padding as a hole. -/
theorem tagged_padding {m : Mem} {hole gap : Nat} (fits : hole + gap < 4294967296)
    (large : 20 ≤ gap) :
    Block.Tagged (footerAt (headerAt m hole 1 gap) (hole + gap - 8) hole) ⟨hole, gap, none⟩ :=
  Block.tagged_hole ((isHeader_headerAt (by decide) (by omega)).of_agreeOff
    (agreeOff_footerAt _ (Mem.AgreeOff.refl (hole + gap - 8) (hole + gap) _) (Nat.le_refl _)
      (by omega)) (by omega)) large

/-- The padding of an aligned block becomes a hole, and the block is taken from the
rest. -/
theorem wp_place_padded (h : HeapInv K bs) {i hole size : Nat} {E : Stop → Prop}
    (at_i : K.indexed[i]? = some hole) (padding : hole % 0x1000 + 32 ≤ 0x1000)
    (fits : paddingSize hole + size + 20 ≤ K.view.word (hole + 8)) {Q : Nat → KState → Prop}
    (post : ∀ mem, Sees { K with mem := mem } (K.heap.hAddrStart - 0x1000) K.heap.hAddrEnd
        (footerAt (headerAt K.view hole 1 (paddingSize hole)) (hole + paddingSize hole - 8) hole) →
      Program.wp (carve (hole + paddingSize hole) size (size + 20)
        (K.view.word (hole + 8) - paddingSize hole)) Q E { K with mem := mem }) :
    Program.wp (place i size (size + 20) true) Q E K := by
  obtain ⟨hlo, hhi⟩ := h.indexIn hole (mem_indexed at_i)
  have bounds := h.blocks.bounds (h.hole_of_indexed (mem_indexed at_i))
  have top := h.top
  have low := h.low
  have aligned := h.endAligned
  dsimp only at bounds
  have large : 20 ≤ paddingSize hole := by unfold paddingSize; omega
  obtain ⟨gap, location, footer⟩ := padding_words padding (by omega : hole < 4294963200)
  have whole : ¬sub32 (K.view.word (hole + 8)) (size + 20) < sizeofHeader + sizeofFooter := by
    rw [sub32_eq (by omega) (Mem.word_lt _ _)]
    unfold sizeofHeader sizeofFooter
    omega
  have nonzero : hole &&& pageMask ≠ 0 := by
    rw [Ne, land_pageMask_eq_zero (by omega)]
    omega
  rw [place, Program.wp_bind, wp_lookupIndex at_i, Program.wp_bind,
    wp_hhSize h.sees (by omega) hlo hhi]
  dsimp only
  rw [if_neg whole, if_neg whole, if_pos ⟨rfl, nonzero⟩, gap, location, footer]
  refine (Program.wp_bind _ _ _ _ _).mpr (wp_setHeader h.sees (by omega) hlo (by omega)
    fun mem sees => ?_)
  refine (Program.wp_bind _ _ _ _ _).mpr (wp_setFooter sees (by omega) (by omega) (by omega)
    fun mem sees => ?_)
  dsimp only at sees ⊢
  have front : Block.Tagged _ ⟨hole, paddingSize hole, none⟩ :=
    tagged_padding (m := K.view) (by omega) large
  rw [Program.wp_bind, wp_hhSize sees (by omega) hlo hhi, front.header.size]
  dsimp only
  rw [sub32_eq (by omega) (Mem.word_lt _ _)]
  exact post mem sees

/-- The hole gave way to its padding, the block and what is left behind it. -/
theorem takenFrom_of_padded {hole hhSize size : Nat} {mem m : Mem}
    {index : SortedArray Nat CmpFunc}
    (sees : Sees { K with mem := mem } (K.heap.hAddrStart - 0x1000) K.heap.hAddrEnd m)
    (agree : Mem.AgreeOff hole (hole + hhSize) K.view m) (first : K.heap.hAddrStart ≤ hole)
    (last : hole + hhSize ≤ K.heap.hAddrEnd)
    (tiled : Blocks m hole (⟨hole, paddingSize hole, none⟩ ::
      carved (hole + paddingSize hole) (size + 20) (hhSize - paddingSize hole) size) (hole + hhSize))
    (front : IsFooter m (hole + paddingSize hole - 8) hole)
    (footed : Footed m
      (carved (hole + paddingSize hole) (size + 20) (hhSize - paddingSize hole) size)) :
    TakenFrom K (KState.setIndex { K with mem := mem } index) hole hhSize
      (hole + paddingSize hole + 12) size := by
  obtain ⟨back, shape, rest⟩ := carved_eq (hole + paddingSize hole) (size + 20)
    (hhSize - paddingSize hole) size
  rw [shape] at tiled footed
  have inside : ∀ a, hole ≤ a → a < hole + hhSize →
      KState.view { K with mem := mem } a = m a := fun a h1 h2 => sees.eq a (by omega) (by omega)
  refine ⟨⟨[⟨hole, paddingSize hole, none⟩], size + 20, back, ?_, ?_, .inr ⟨_, rfl⟩, rest⟩,
    fun a h1 h2 off => ?_⟩
  · exact tiled.congr inside
  · exact Footed.congr tiled (footed_cons.mpr ⟨front, footed⟩) inside
  · exact (sees.eq a (by omega) h2).trans (agree a off)

/-- The padding is in the cell of the hole, and what is left behind the block is new. -/
theorem paddedFrom_of_filed {hole size : Nat} {mem₀ mem m : Mem} {index : SortedArray Nat CmpFunc}
    (rest : K.view.word (hole + 8) = paddingSize hole + size + 20 ∨
      paddingSize hole + size + 40 ≤ K.view.word (hole + 8))
    (tiled : Blocks m (hole + paddingSize hole) (carved (hole + paddingSize hole) (size + 20)
      (K.view.word (hole + 8) - paddingSize hole) size) (hole + K.view.word (hole + 8)))
    (filed : Filed { K with mem := mem₀ } index (hole + paddingSize hole + (size + 20))
      (K.view.word (hole + 8) - paddingSize hole - (size + 20)))
    (seen : ∀ a ∈ index.toList, (KState.view { K with mem := mem }).word (a + 8) = m.word (a + 8))
    (old : ∀ a ∈ K.indexed, a ∈ index.toList) (listed : hole ∈ K.indexed)
    (here : m.word (hole + 8) = paddingSize hole)
    (others : ∀ a ∈ K.indexed, a ≠ hole → m.word (a + 8) = K.view.word (a + 8)) :
    PaddedFrom K (KState.setIndex { K with mem := mem } index) hole size := by
  refine ⟨(seen hole (old hole listed)).trans here,
    fun a listed other => (seen a (old a listed)).trans (others a listed other), ?_⟩
  cases filed with
  | nothing none same => exact .inl ⟨by omega, same⟩
  | @rest k some _ le list =>
      have behind : (⟨hole + paddingSize hole + (size + 20),
          K.view.word (hole + 8) - paddingSize hole - (size + 20), none⟩ : Block) ∈
          carved (hole + paddingSize hole) (size + 20) (K.view.word (hole + 8) - paddingSize hole)
            size := by
        rw [carved, if_neg (by omega)]
        exact List.mem_cons_of_mem _ (List.mem_singleton_self _)
      have listed : hole + paddingSize hole + (size + 20) ∈ index.toList := by
        rw [list]
        exact (List.mem_insertIdx le).mpr (.inl rfl)
      have left := (tiled.tagged _ behind).header.size
      dsimp only at left
      refine .inr ⟨k, _, le, list, rfl, (seen _ listed).trans ?_⟩
      rw [left]
      omega

/-- A page-aligned block: the front of the hole stays a hole, in its place in the
index. -/
theorem wp_place_aligned (h : HeapInv K bs) {i hole size : Nat}
    (at_i : K.indexed[i]? = some hole)
    (sound : PlaceSound size true hole (K.view.word (hole + 8)))
    {Q : Nat → KState → Prop}
    (full : K.view.word (hole + 8) ≠ paddingSize hole + size + 20 →
      K.heap.hIndex.saMaxsize ≤ K.heap.hIndex.saSize → E (.panic (.assertion .hasRoom)))
    (post : ∀ mem index bs',
      Placed K (KState.setIndex { K with mem := mem } index) bs bs' (hole + paddingSize hole + 12)
        size true →
      (KeepsRank K.view K.indexed hole (paddingSize hole) →
        (∀ a ∈ K.indexed, K.view.word (a + 8) < 2147483648) →
        SortedBySize (KState.view { K with mem := mem }) index.toList) →
      TakenFrom K (KState.setIndex { K with mem := mem } index) hole (K.view.word (hole + 8))
        (hole + paddingSize hole + 12) size →
      PaddedFrom K (KState.setIndex { K with mem := mem } index) hole size →
      (K.view.word (hole + 8) = paddingSize hole + size + 20 ∨
        K.heap.hIndex.saSize < K.heap.hIndex.saMaxsize) →
      Q (hole + paddingSize hole + 12) (KState.setIndex { K with mem := mem } index)) :
    Program.wp (place i size (size + 20) true) Q E K := by
  have member := h.hole_of_indexed (mem_indexed at_i)
  obtain ⟨pre, after, rfl⟩ := List.append_of_mem member
  obtain ⟨hlo, hhi⟩ := h.indexIn hole (mem_indexed at_i)
  have bounds := h.blocks.bounds member
  have top := h.top
  have low := h.low
  have aligned := h.endAligned
  dsimp only at bounds
  have fits := sound.fits
  have room := sound.padding rfl
  have rest := sound.rest rfl
  have large : 20 ≤ paddingSize hole := by unfold paddingSize; omega
  have padded : Mem.AgreeOff hole (hole + paddingSize hole) K.view
      (footerAt (headerAt K.view hole 1 (paddingSize hole)) (hole + paddingSize hole - 8) hole) :=
    agreeOff_footerAt _ (agreeOff_headerAt _ _ (.refl _ _ _) (Nat.le_refl _) (by omega)) (by omega)
      (by omega)
  have padding : Block.Tagged _ ⟨hole, paddingSize hole, none⟩ :=
    tagged_padding (m := K.view) (by omega) large
  refine wp_place_padded h at_i room (by omega) fun mem sees => ?_
  refine wp_carve sees rfl h.top h.indexIn h.cmp (by omega) (by omega) (Nat.le_refl size) (by omega)
    (fun more => full (by omega))
    fun mem index m' sees agree tiled perm same _ order footed filed => ?_
  have ends : hole + paddingSize hole + (K.view.word (hole + 8) - paddingSize hole) =
      hole + K.view.word (hole + 8) := by omega
  rw [ends] at agree tiled
  have agree_all : Mem.AgreeOff hole (hole + K.view.word (hole + 8)) K.view m' :=
    (padded.mono (Nat.le_refl _) (by omega)).trans (agree.mono (by omega) (Nat.le_refl _))
  have tiled_all := Blocks.cons (padding.of_agreeOff agree (.inl (Nat.le_refl _))) tiled
  have listed : index.toList.Perm (holes (pre ++ ((⟨hole, paddingSize hole, none⟩ ::
      carved (hole + paddingSize hole) (size + 20) (K.view.word (hole + 8) - paddingSize hole)
        size) ++ after))) := by
    have old : K.indexed.Perm (holes pre ++ hole :: holes after) := by simpa using h.index
    rw [List.cons_append, holes_append, holes_hole, holes_append]
    refine (perm.trans (old.append_left _)).trans ?_
    exact (List.perm_append_comm_assoc _ _ _).trans (List.perm_middle.append_left _)
  have placed : Placed K _ _ _ (hole + paddingSize hole + 12) size true :=
    h.placed sees agree_all tiled_all (liveRanges_carved _ _ _ _) listed same fun _ => by
      unfold paddingSize
      omega
  have here : m'.word (hole + 8) = paddingSize hole :=
    (agree.word (by omega)).trans padding.header.size
  have others : ∀ a ∈ K.indexed, a ≠ hole → m'.word (a + 8) = K.view.word (a + 8) :=
    fun a listed other => h.size_of_agreeOff member agree_all listed other
  have front : IsFooter m' (hole + paddingSize hole - 8) hole :=
    (isFooter_footerAt (m := headerAt K.view hole 1 (paddingSize hole)) (by omega)).of_agreeOff agree
      (by omega)
  have seen : ∀ a ∈ index.toList,
      (KState.view { K with mem := mem }).word (a + 8) = m'.word (a + 8) := by
    intro a listed
    obtain ⟨h1, h2⟩ : K.heap.hAddrStart - 0x1000 ≤ a ∧ a + 12 ≤ K.heap.hAddrEnd :=
      placed.inv.indexIn a listed
    exact sees.word (by omega) (by omega)
  have old : ∀ a ∈ K.indexed, a ∈ index.toList := by
    intro a listed
    exact perm.mem_iff.mpr (List.mem_append_right _ listed)
  refine post mem index _ placed (fun rank small => ?_)
    (takenFrom_of_padded sees agree_all (by omega) (by omega) tiled_all front footed)
    (paddedFrom_of_filed rest tiled filed seen old (mem_indexed at_i) here others) ?_
  · refine placed.inv.sorted_of_sees sees (order (rank.sorted here others) (fun a listed => ?_) ?_)
    · by_cases at_hole : a = hole
      · rw [at_hole, here]
        unfold paddingSize
        omega
      · rw [others a listed at_hole]
        exact small a listed
    · exact Nat.lt_of_le_of_lt (Nat.sub_le _ _) (small _ (mem_indexed at_i))
  · cases filed with
    | nothing none _ => exact .inl (by omega)
    | rest _ space _ _ => exact .inr space

end Place

end MiniKernel.Kernel
