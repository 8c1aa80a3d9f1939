/-
# Kernel.HeapInvariant -- what a sound run keeps true of the kernel heap

`HeapInv K bs`: tagged blocks `bs` tile the memory between `h_addr_start` and
`h_addr_end`, the index lists the holes among them, and the pages below are the
heap's own.  The pages reach one below the heap, since `free` reads the word in
front of the first header.

`free_frame` clears bit 0 whatever page it is given (`Kernel.Frames`), so a page
of the heap may come to hold frame 0, which is also the mark of a page without a
frame.  `Mapped.zero` says which: a page the first `VM_HEAP_MIN_SIZE` bytes do
not reach, and only while bit 0 is set.  Such a page leaves the heap with the
next contraction, before bit 0 can be handed out again.
-/
import MiniKernel.Kernel.HeapIndex
import MiniKernel.Theory.Comparison
import Mathlib.Data.Finset.Card

namespace MiniKernel.Kernel

open Theory

set_option autoImplicit false

/-! ## Frames and pages -/

/-- The entries that hold a frame hold one of their own, and it is marked used. -/
structure FramesOk (K : KState) : Prop where
  nframes : K.bits.nframes = 0x1000
  owned : ∀ p v, K.dir.page p = some v → v.pFrame ≠ 0 →
    v.pPresent = true ∧ v.pFrame < 0x1000 ∧ K.bits.used v.pFrame = true
  unique : ∀ p q v w, K.dir.page p = some v → K.dir.page q = some w → v.pFrame ≠ 0 →
    v.pFrame = w.pFrame → p = q

/-- The pages of the heap up to `hi`, and the one below it. -/
structure Mapped (K : KState) (hi : Nat) : Prop where
  backed : Backed K (K.heap.hAddrStart - 0x1000) hi
  zero : ∀ a v, K.heap.hAddrStart - 0x1000 ≤ a → a < hi → K.dir.page (pagePtr a) = some v →
    v.pFrame = 0 → K.heap.hAddrStart + vmHeapMinSize ≤ a ∧ K.bits.used 0 = true

theorem Mapped.mono {K : KState} {hi hi' : Nat} (h : Mapped K hi) (le : hi' ≤ hi) :
    Mapped K hi' where
  backed := h.backed.mono (Nat.le_refl _) le
  zero a v h1 h2 := h.zero a v h1 (by omega)

/-! ## The invariant -/

/-- The kernel heap is made of the blocks `bs`, and the index lists the holes, all
but the ones in `unlisted`. -/
structure HeapInv (K : KState) (bs : List Block) (unlisted : List Nat := []) : Prop where
  ready : K.heapReady = true
  low : 0x1000 ≤ K.heap.hAddrStart
  startAligned : K.heap.hAddrStart % 0x1000 = 0
  endAligned : K.heap.hAddrEnd % 0x1000 = 0
  nonempty : K.heap.hAddrStart < K.heap.hAddrEnd
  top : K.heap.hAddrEnd < 4294967296
  blocks : Blocks K.view K.heap.hAddrStart bs K.heap.hAddrEnd
  index : (unlisted ++ K.indexed).Perm (holes bs)
  cmp : K.heap.hIndex.saCmp = some .vmHeapHeader
  frames : FramesOk K
  mapped : Mapped K K.heap.hAddrEnd
  zeroUsed : K.bits.used 0 = true ∨ vmHeapMinSize ≤ K.heap.hAddrEnd - K.heap.hAddrStart

/-- A block that is still there, with the bytes it had. -/
structure Kept (K K' : KState) (bs' : List Block) (b : Block) : Prop where
  mem : b ∈ bs'
  bytes : ∀ a, b.addr + 12 ≤ a → a < b.addr + b.size - 8 → K'.view a = K.view a

theorem Kept.trans {K K' K'' : KState} {bs bs' : List Block} {b : Block} (first : Kept K K' bs b)
    (second : Kept K' K'' bs' b) : Kept K K'' bs' b where
  mem := second.mem
  bytes a h1 h2 := (second.bytes a h1 h2).trans (first.bytes a h1 h2)

namespace HeapInv

variable {K : KState} {bs bs' : List Block} {b : Block} {mem : Mem} {m m' : Mem}
  {index : SortedArray Nat CmpFunc} {unlisted u : List Nat}

theorem sees (h : HeapInv K bs unlisted) :
    Sees K (K.heap.hAddrStart - 0x1000) K.heap.hAddrEnd K.view where
  backed := h.mapped.backed
  eq _ _ _ := rfl

/-- The heap up to another end, on pages that are mapped. -/
theorem reach (h : HeapInv K bs unlisted) {hi : Nat} (longer : K.heap.hAddrEnd ≤ hi) (top : hi < 4294967296)
    (aligned : hi % 0x1000 = 0) (mapped : Mapped K hi)
    (sees : Sees { K with mem := mem } (K.heap.hAddrStart - 0x1000) hi m)
    (blocks : Blocks m K.heap.hAddrStart bs' hi)
    (perm : (u ++ index.toList).Perm (holes bs')) (cmp : index.saCmp = K.heap.hIndex.saCmp) :
    HeapInv { K with
      mem := mem
      heap := { K.heap with hAddrEnd := hi, hIndex := index } } bs' u where
  ready := h.ready
  low := h.low
  startAligned := h.startAligned
  endAligned := aligned
  nonempty := Nat.lt_of_lt_of_le h.nonempty longer
  top := top
  blocks := blocks.congr fun a h1 h2 => sees.eq a (by omega) h2
  index := perm
  cmp := cmp.trans h.cmp
  frames := ⟨h.frames.nframes, h.frames.owned, h.frames.unique⟩
  mapped := ⟨mapped.backed.congr rfl fun _ _ _ => rfl, mapped.zero⟩
  zeroUsed := h.zeroUsed.imp_right fun long => by
    have := h.nonempty
    dsimp only
    omega

/-- A header in the index is the header of a hole. -/
theorem hole_of_indexed (h : HeapInv K bs unlisted) {a : Nat} (mem : a ∈ K.indexed) :
    (⟨a, K.view.word (a + 8), none⟩ : Block) ∈ bs := by
  obtain ⟨s, at_a⟩ := mem_holes.mp (h.index.mem_iff.mp (List.mem_append_right _ mem))
  have size := (h.blocks.tagged _ at_a).header.size
  dsimp only at size
  rwa [size]

theorem indexIn (h : HeapInv K bs unlisted) :
    K.IndexIn (K.heap.hAddrStart - 0x1000) K.heap.hAddrEnd := by
  intro a mem
  have hole := h.hole_of_indexed mem
  have bounds := h.blocks.bounds hole
  have big := (h.blocks.tagged _ hole).big
  dsimp only at bounds big
  omega

theorem nodup (h : HeapInv K bs unlisted) : K.indexed.Nodup :=
  (List.nodup_append.mp (h.index.nodup_iff.mpr
    (h.blocks.holes_pairwise.imp fun less => Nat.ne_of_lt less))).2.1

/-- Writes into one block leave the sizes of the other holes alone. -/
theorem size_of_agreeOff (h : HeapInv K bs unlisted) (member : b ∈ bs)
    (agree : Mem.AgreeOff b.addr (b.addr + b.size) K.view m) {a : Nat} (listed : a ∈ K.indexed)
    (other : a ≠ b.addr) : m.word (a + 8) = K.view.word (a + 8) := by
  have hole := h.hole_of_indexed listed
  have big := (h.blocks.tagged _ hole).big
  dsimp only at big
  refine agree.word ?_
  rcases h.blocks.tiles.eq_or_disjoint hole member with rfl | before | after
  · exact absurd rfl other
  · dsimp only at before
    omega
  · dsimp only at after
    omega

/-- New contents of the heap and of the index. -/
theorem update (h : HeapInv K bs unlisted)
    (sees : Sees { K with mem := mem } (K.heap.hAddrStart - 0x1000) K.heap.hAddrEnd m)
    (blocks : Blocks m K.heap.hAddrStart bs' K.heap.hAddrEnd)
    (perm : (u ++ index.toList).Perm (holes bs')) (cmp : index.saCmp = K.heap.hIndex.saCmp) :
    HeapInv (KState.setIndex { K with mem := mem } index) bs' u :=
  h.reach (Nat.le_refl _) h.top h.endAligned h.mapped sees blocks perm cmp

/-- A live block off the range that is written keeps its bytes. -/
theorem bytes_of_agreeOff (h : HeapInv K bs unlisted) (member : b ∈ bs) {x y : Nat}
    (sees : Sees { K with mem := mem } (K.heap.hAddrStart - 0x1000) K.heap.hAddrEnd m)
    (agree : Mem.AgreeOff x y K.view m) (off : b.addr + b.size ≤ x ∨ y ≤ b.addr) {a : Nat}
    (h1 : b.addr + 12 ≤ a) (h2 : a < b.addr + b.size - 8) :
    KState.view { K with mem := mem } a = K.view a := by
  have bounds := h.blocks.bounds member
  exact (sees.eq a (by omega) (by omega)).trans (agree a (by omega))

/-- Other blocks in the place of one. -/
theorem replace {pre post seg : List Block} (h : HeapInv K (pre ++ b :: post) unlisted)
    (sees : Sees { K with mem := mem } (K.heap.hAddrStart - 0x1000) K.heap.hAddrEnd m)
    (agree : Mem.AgreeOff b.addr (b.addr + b.size) K.view m)
    (tiled : Blocks m b.addr seg (b.addr + b.size))
    (perm : (u ++ index.toList).Perm (holes (pre ++ (seg ++ post))))
    (cmp : index.saCmp = K.heap.hIndex.saCmp) :
    HeapInv (KState.setIndex { K with mem := mem } index) (pre ++ (seg ++ post)) u ∧
      ∀ c ∈ pre ++ b :: post, c ≠ b →
        Kept K (KState.setIndex { K with mem := mem } index) (pre ++ (seg ++ post)) c := by
  refine ⟨h.update sees (h.blocks.replace agree tiled) perm cmp, fun c member other => ⟨?_, ?_⟩⟩
  · rcases List.mem_append.mp member with left | right
    · exact List.mem_append_left _ left
    · rcases List.mem_cons.mp right with same | right
      · exact absurd same other
      · exact List.mem_append_right _ (List.mem_append_right _ right)
  · intro a h1 h2
    have here : b ∈ pre ++ b :: post := List.mem_append_right _ List.mem_cons_self
    have apart := (h.blocks.tiles.eq_or_disjoint member here).resolve_left other
    exact h.bytes_of_agreeOff member sees agree apart h1 h2

end HeapInv

/-- The heap and the page in front of it fit into the frames: their pages have different
ones, of 4096. -/
theorem HeapInv.length_le {K : KState} {bs : List Block} {unlisted : List Nat}
    (h : HeapInv K bs unlisted) :
    K.heap.hAddrEnd - K.heap.hAddrStart < 0x1000000 := by
  have low := h.low
  have less := h.nonempty
  have start := h.startAligned
  let page (q : Nat) : Nat := K.heap.hAddrStart - 0x1000 + q * 0x1000
  let frame (q : Nat) : Nat := ((K.dir.page (pagePtr (page q))).map VmPage.pFrame).getD 0
  generalize pages_eq : (K.heap.hAddrEnd - (K.heap.hAddrStart - 0x1000)) / 0x1000 = pages
  have within : ∀ q, q < pages → K.heap.hAddrStart - 0x1000 ≤ page q ∧ page q < K.heap.hAddrEnd := by
    intro q mem
    dsimp only [page]
    omega
  have entry : ∀ q, q < pages → ∃ v, K.dir.page (pagePtr (page q)) = some v ∧ frame q = v.pFrame := by
    intro q mem
    obtain ⟨h1, h2⟩ := within q mem
    obtain ⟨v, at_q, -⟩ := h.mapped.backed.present (page q) h1 h2
    exact ⟨v, at_q, by simp [frame, at_q]⟩
  have maps : Set.MapsTo frame (Finset.range pages) (Finset.range 0x1000) := by
    intro q mem
    obtain ⟨v, at_q, same⟩ := entry q (by simpa using mem)
    rw [Finset.coe_range, Set.mem_Iio, same]
    by_cases held : v.pFrame = 0
    · omega
    · exact (h.frames.owned _ v at_q held).2.1
  have inj : Set.InjOn frame (Finset.range pages) := by
    intro q mem r mem' same
    have hq : q < pages := by simpa using mem
    have hr : r < pages := by simpa using mem'
    obtain ⟨v, at_q, framed⟩ := entry q hq
    obtain ⟨w, at_r, framed'⟩ := entry r hr
    have equal := h.mapped.backed.distinct (page q) (page r) v w (within q hq).1 (within q hq).2
      (within r hr).1 (within r hr).2 at_q at_r (by rw [← framed, same, framed'])
    have number := Backed.pagePtr_inj equal
    dsimp only [page] at number
    omega
  have few := Finset.card_le_card_of_injOn frame maps inj
  rw [Finset.card_range, Finset.card_range] at few
  have ends := h.endAligned
  omega

theorem eraseIdx_perm {l pre post : List Nat} {i a : Nat} (at_i : l[i]? = some a)
    (perm : l.Perm (pre ++ a :: post)) : (l.eraseIdx i).Perm (pre ++ post) := by
  obtain ⟨inside, rfl⟩ := List.getElem?_eq_some_iff.mp at_i
  have front := (List.getElem_cons_eraseIdx_perm inside).trans (perm.trans List.perm_middle)
  exact front.cons_inv

/-! ## The order of the index -/

/-- The sizes of the listed holes do not decrease. -/
def SortedBySize (m : Mem) (l : List Nat) : Prop :=
  l.Pairwise fun a b => m.word (a + 8) ≤ m.word (b + 8)

/-- The order there is when the hole at `h` has `size` bytes. -/
def KeepsRank (m : Mem) (l : List Nat) (h size : Nat) : Prop :=
  l.Pairwise fun a b => (if a = h then size else m.word (a + 8)) ≤
    (if b = h then size else m.word (b + 8))

theorem KeepsRank.sorted {m m' : Mem} {l : List Nat} {h size : Nat} (rank : KeepsRank m l h size)
    (here : m'.word (h + 8) = size) (same : ∀ a ∈ l, a ≠ h → m'.word (a + 8) = m.word (a + 8)) :
    SortedBySize m' l := by
  have words : ∀ a ∈ l, m'.word (a + 8) = if a = h then size else m.word (a + 8) := by
    intro a mem
    by_cases at_h : a = h
    · rw [if_pos at_h, at_h, here]
    · rw [if_neg at_h, same a mem at_h]
  exact rank.imp_of_mem fun {a b} ha hb le => by rwa [words a ha, words b hb]

theorem SortedBySize.congr {m m' : Mem} {l : List Nat} (h : SortedBySize m l)
    (same : ∀ a ∈ l, m'.word (a + 8) = m.word (a + 8)) : SortedBySize m' l :=
  h.imp_of_mem fun {a b} ha hb le => by rwa [same a ha, same b hb]

/-- `vm_heap_header_cmp` orders sizes below 2 GiB as numbers. -/
theorem sizeCmp_neg {x y : Nat} (hx : x < 2147483648) (hy : y < 2147483648) :
    sizeCmp x y < 0 ↔ x < y := by
  rw [sizeCmp, int32_sub32_neg (by omega) (by omega)]
  omega

/-- An insertion at the place the comparison finds keeps the order. -/
theorem SortedBySize.insertIdx {m : Mem} {l : List Nat} {k h : Nat} (sorted : SortedBySize m l)
    (small : ∀ a ∈ l, m.word (a + 8) < 2147483648) (small' : m.word (h + 8) < 2147483648)
    (le : k ≤ l.length)
    (below : ∀ i, (hi : i < l.length) → i < k → sizeCmp (m.word (l[i] + 8)) (m.word (h + 8)) < 0)
    (stop : (hk : k < l.length) → ¬sizeCmp (m.word (l[k] + 8)) (m.word (h + 8)) < 0) :
    SortedBySize m (l.insertIdx k h) := by
  have sought : Sought (fun a => sizeCmp (m.word (a + 8)) (m.word (h + 8)) < 0) l k :=
    .of_getElem le below stop
  refine (pairwise_insertIdx_iff le sorted).mpr ⟨fun a mem => ?_,
    Sought.behind sorted (fun a at_k => ?_) fun x _ y _ more first => Nat.le_trans first more⟩
  · have less := sought.before a mem
    rw [sizeCmp_neg (small a (List.mem_of_mem_take mem)) small'] at less
    exact Nat.le_of_lt less
  · have less := sought.stop a at_k
    rw [sizeCmp_neg (small a (List.mem_of_getElem? at_k)) small'] at less
    exact Nat.le_of_not_lt less

/-- What is asked of a step that gives the hole at `h` another size in place, with
the list and the memory before it. -/
abbrev Resize := Mem → List Nat → Nat → Nat → Prop

/-- In a sorted list, the resized hole keeps its rank. -/
def Resize.Orders (R : Resize) : Prop :=
  ∀ m l h size, SortedBySize m l → l.Nodup → R m l h size → KeepsRank m l h size

/-- The index is sorted. -/
def Ordered (K : KState) : Prop := SortedBySize K.view K.indexed

/-- The index lists the same holes in the same cells, and they have their sizes. -/
structure SameIndex (K K' : KState) : Prop where
  list : K'.indexed = K.indexed
  sizes : ∀ a ∈ K.indexed, K'.view.word (a + 8) = K.view.word (a + 8)

theorem Ordered.congr {K K' : KState} (h : Ordered K) (same : SameIndex K K') : Ordered K' := by
  rw [Ordered, same.list]
  exact SortedBySize.congr h same.sizes

/-- No hole is as large as 2 GiB, where the comparison of the index would go wrong. -/
theorem HeapInv.small {K : KState} {bs : List Block} {unlisted : List Nat}
    (h : HeapInv K bs unlisted) : ∀ a ∈ K.indexed, K.view.word (a + 8) < 2147483648 := by
  intro a listed
  have bounds := h.blocks.bounds (h.hole_of_indexed listed)
  have short := h.length_le
  dsimp only at bounds
  omega

/-- Writes into the data of one block. -/
theorem HeapInv.write {K : KState} {bs : List Block} {b : Block} {mem : Mem} {m : Mem} {x y : Nat}
    (h : HeapInv K bs) (member : b ∈ bs)
    (sees : Sees { K with mem := mem } (K.heap.hAddrStart - 0x1000) K.heap.hAddrEnd m)
    (agree : Mem.AgreeOff x y K.view m) (hx : b.addr + 12 ≤ x) (hy : y ≤ b.addr + b.size - 8) :
    HeapInv { K with mem := mem } bs ∧
      (∀ c ∈ bs, c ≠ b → Kept K { K with mem := mem } bs c) ∧
      SameIndex K { K with mem := mem } := by
  have big := (h.blocks.tagged b member).big
  have inv : HeapInv { K with mem := mem } bs :=
    h.update sees (h.blocks.write member agree hx hy) h.index rfl
  refine ⟨inv, fun c mem' other => ⟨mem', ?_⟩, rfl, fun a listed => ?_⟩
  · intro a h1 h2
    have apart := (h.blocks.tiles.eq_or_disjoint mem' member).resolve_left other
    have whole : Mem.AgreeOff b.addr (b.addr + b.size) K.view m := agree.mono (by omega) (by omega)
    exact h.bytes_of_agreeOff mem' sees whole apart h1 h2
  · have before := h.hole_of_indexed listed
    have after := inv.hole_of_indexed (a := a) listed
    have same := h.blocks.eq_of_addr before after rfl
    simp only [Block.mk.injEq, true_and, and_true] at same
    exact same.symm

end MiniKernel.Kernel
