/-
# Kernel.HeapCoalesce -- unifying a freed block with its neighbours

`Unified` is what `free` should leave of a block inside the heap: the block and the
holes next to it as one hole, with a footer that points back to its header.  A
unification to the left sets the pointer in the footer; a unification to the right
does not touch the footer of the right hole, which goes on pointing to the header
that was there.
-/
import MiniKernel.Kernel.HeapRuns
import Mathlib.Data.List.Chain

namespace MiniKernel.Kernel

open Theory VmPageDirectory

set_option autoImplicit false

/-- No two holes are next to each other. -/
def NoAdjacentHoles (bs : List Block) : Prop :=
  bs.IsChain fun b c => b.live = none → c.live ≠ none

/-- At most one block, a hole. -/
def AtMostHole (bs : List Block) : Prop := bs = [] ∨ ∃ a s, bs = [⟨a, s, none⟩]

/-- The block of `s` bytes at `header`, between `pre` and `post`, became one hole with
its free neighbours; the heap is in order and every other block stayed. -/
structure Unified (K K' : KState) (pre post : List Block) (header s : Nat) (bs' : List Block) :
    Prop where
  shape : ∃ before left right after x, pre = before ++ left ∧ post = right ++ after ∧
    AtMostHole left ∧ AtMostHole right ∧
    bs' = before ++
      ⟨x, ((left ++ ⟨header, s, none⟩ :: right).map Block.size).sum, none⟩ :: after ∧
    ∀ c ∈ before ++ after, ∀ a, c.addr ≤ a → a < c.addr + c.size → K'.view a = K.view a
  inv : HeapInv K' bs'
  footed : Footed K'.view bs'
  apart : NoAdjacentHoles bs'

section Neighbours

variable {K : KState} {pre post before : List Block} {header s r : Nat} {c : Block}

theorem marked_keeps (h : HeapInv K (pre ++ ⟨header, s, some r⟩ :: post)) :
    KeepsOutside K (K.marked header) (header + 4) (header + 8) := by
  have member : (⟨header, s, some r⟩ : Block) ∈ pre ++ ⟨header, s, some r⟩ :: post := by simp
  have bounds := h.blocks.bounds member
  have big := (h.blocks.tagged _ member).big
  dsimp only at bounds big
  intro a h1 h2 off
  have sees := h.sees.put32 (a := header + 4) (by omega) (by omega) 1
  exact (sees.eq a (by omega) h2).trans (Mem.setWord_apply_of_disjoint _ _ (by omega))

/-- The footers, but for the block that is marked, whose footer is right too. -/
theorem marked_footed (h : HeapInv K (pre ++ ⟨header, s, some r⟩ :: post))
    (footed : Footed K.view (pre ++ ⟨header, s, some r⟩ :: post)) :
    Footed (K.marked header).view (pre ++ ⟨header, s, none⟩ :: post) := by
  have keeps := marked_keeps h
  have member : (⟨header, s, some r⟩ : Block) ∈ pre ++ ⟨header, s, some r⟩ :: post := by simp
  have big := (h.blocks.tagged _ member).big
  have all : ∀ c ∈ pre ++ ⟨header, s, some r⟩ :: post,
      IsFooter (K.marked header).view (c.addr + c.size - 8) c.addr := by
    intro c mem
    have bounds := h.blocks.bounds mem
    have big' := (h.blocks.tagged c mem).big
    refine keeps.footer (by omega) (by omega) ?_ (footed c mem)
    rcases h.blocks.tiles.eq_or_disjoint member mem with rfl | less | less
    · dsimp only at big ⊢
      omega
    · dsimp only at less big
      omega
    · dsimp only at less big
      omega
  have here := all _ member
  rw [footed_append, footed_cons]
  exact ⟨fun c mem => all c (by simp [mem]), here, fun c mem => all c (by simp [mem])⟩

/-- What `free` finds on the left of a marked block is the neighbour, when that is a
hole. -/
theorem leftHole_of_footed {u : List Nat}
    (h : HeapInv K (before ++ c :: ⟨header, s, none⟩ :: post) u)
    (footed : Footed K.view (before ++ c :: ⟨header, s, none⟩ :: post)) :
    K.leftHole header = if c.live = none then some c.addr else none := by
  have member : c ∈ before ++ c :: ⟨header, s, none⟩ :: post := by simp
  have tagged := h.blocks.tagged c member
  have bounds := h.blocks.bounds member
  have big := tagged.big
  have top := h.top
  have next : header = c.addr + c.size := h.blocks.cut.2.tiles.1
  have footer := footed c member
  rw [← next] at footer
  have pointer := footer.header
  rw [show header - 8 + 4 = header - 4 by omega] at pointer
  rw [KState.leftHole, footer.magic, pointer, add32_eq (by omega), tagged.header.isHole]
  by_cases hole : c.live = none
  · rw [if_pos hole, if_pos ⟨rfl, by rw [Block.flag, if_pos hole]⟩]
  · rw [if_neg hole, if_neg]
    rintro ⟨-, flag⟩
    rw [Block.flag, if_neg hole] at flag
    cases flag

/-- The neighbour that is found is in the index and ends where the block starts. -/
theorem leftHole_sound (h : HeapInv K (before ++ c :: ⟨header, s, none⟩ :: post) [header])
    (footed : Footed K.view (before ++ c :: ⟨header, s, none⟩ :: post)) {l : Nat}
    (found : K.leftHole header = some l) : l ∈ K.indexed ∧ l + K.view.word (l + 8) = header := by
  have member : c ∈ before ++ c :: ⟨header, s, none⟩ :: post := by simp
  have tagged := h.blocks.tagged c member
  have big := tagged.big
  have next : header = c.addr + c.size := h.blocks.cut.2.tiles.1
  rw [leftHole_of_footed h footed] at found
  split at found
  · rename_i hole
    obtain rfl := Option.some.inj found
    refine ⟨?_, by rw [tagged.header.size, next]⟩
    have listed : c.addr ∈ holes (before ++ c :: ⟨header, s, none⟩ :: post) := by
      obtain ⟨a, z, live⟩ := c
      obtain rfl : live = none := hole
      simp
    rcases List.mem_append.mp (h.index.mem_iff.mpr listed) with same | listed
    · have := List.mem_singleton.mp same
      omega
    · exact listed
  · cases found

/-- The header of the hole that takes in the block at `header` behind `c`. -/
def mergedBehind (c : Block) (header : Nat) : Nat := if c.live = none then c.addr else header

/-- `free` on a block inside the heap that is not the first one. -/
theorem wp_free_inner (h : HeapInv K ((before ++ [c]) ++ ⟨header, s, some r⟩ :: post))
    (footed : Footed K.view ((before ++ [c]) ++ ⟨header, s, some r⟩ :: post))
    (inner : endOver (header + s) post ≠ K.heap.hAddrEnd) :
    Program.wp (free (header + 12))
      (fun _ K' => ∃ pre',
        InFront (if c.live = none then some c.addr else none) header (before ++ [c]) pre' ∧
        HeapInv K' (pre' ++ ⟨mergedBehind c header,
          endOver (header + s) post - mergedBehind c header, none⟩ :: overHole post) ∧
        KeepsOutside K K' (mergedBehind c header) (header + s) ∧
        IsFooter K'.view (header + s - 8) (mergedBehind c header) ∧
        (c.live ≠ none → (K.indexed.erase (header + s)).length < K.heap.hIndex.saMaxsize))
      (fun _ => c.live ≠ none ∧
        K.heap.hIndex.saMaxsize ≤ (K.indexed.erase (header + s)).length) K := by
  have member : (⟨header, s, some r⟩ : Block) ∈ (before ++ [c]) ++ ⟨header, s, some r⟩ :: post := by
    simp
  have bounds := h.blocks.bounds member
  have big := (h.blocks.tagged _ member).big
  have top := h.top
  dsimp only at bounds big
  obtain ⟨inv, -, -⟩ := marked_inv h
  have footed' := marked_footed h footed
  have keeps := marked_keeps h
  have marks : K.marked header = { K with mem := (K.marked header).mem } := K.put32_eq _ _
  have start : (K.marked header).heap = K.heap := by rw [marks]
  have indexed : (K.marked header).indexed = K.indexed := by rw [marks]; rfl
  have right := rightEnd_of_cut inv
  have own := footed' ⟨header, s, none⟩ (by simp)
  have size := (inv.blocks.tagged ⟨header, s, none⟩ (by simp)).header.size
  dsimp only at right own size
  have blockEnd : (K.marked header).blockEnd header = header + s := by rw [KState.blockEnd, size]
  have shape : (before ++ [c]) ++ ⟨header, s, none⟩ :: post =
      before ++ c :: ⟨header, s, none⟩ :: post := by simp
  have left := leftHole_of_footed (shape ▸ inv) (shape ▸ footed')
  have at_left : (K.marked header).mergedAt header = mergedBehind c header := by
    rw [KState.mergedAt, left, mergedBehind]
    split <;> rfl
  have finish : (K.marked header).finalEnd header = endOver (header + s) post := by
    rw [KState.finalEnd, blockEnd, right, start, if_neg inner]
  have next : header = c.addr + c.size := (shape ▸ inv).blocks.cut.2.tiles.1
  have neighbour : c ∈ (before ++ [c]) ++ ⟨header, s, none⟩ :: post := by simp
  have tagged := inv.blocks.tagged c neighbour
  have big_left := tagged.big
  have bounds_left := inv.blocks.bounds neighbour
  rw [start] at bounds_left
  have sound : FreeSound Resize.any (K.marked header) header := by
    refine ⟨fun l found => leftHole_sound (shape ▸ inv) (shape ▸ footed') found, fun last => ?_,
      fun _ _ => trivial⟩
    rw [blockEnd, right, start] at last
    exact absurd last inner
  have safe : FreeSafe (K.marked header) header := by
    refine ⟨fun _ => ?_, fun _ _ _ last => ?_⟩
    · have pointer := (footed' c neighbour).header
      rw [show c.addr + c.size - 8 + 4 = header - 4 by omega] at pointer
      rw [pointer, add32_eq (by omega)]
      exact ⟨_, inv.sees.peek32 (by rw [start]; omega) (by rw [start]; omega)⟩
    · rw [blockEnd, start] at last
      obtain rfl := h.blocks.cut.2.eq_nil (Nat.le_of_eq last.symm)
      exact absurd last inner
  refine wp_free_marked h member (Program.wp_mono (wp_coalesce inv sound) ?_ ?_)
  · rintro ⟨⟩ K' ⟨pre', front, inv', -, -, written⟩
    rw [KState.coalesced, at_left, finish] at inv'
    have inside : (K.marked header).rightEnd (header + s) ≠ (K.marked header).heap.hAddrEnd := by
      rw [right, start]
      exact inner
    refine ⟨pre', left ▸ front, inv', ?_, at_left ▸ written.footer inside own, fun live => ?_⟩
    · have behind : mergedBehind c header ≤ header := by
        rw [mergedBehind]
        split <;> omega
      have rest := written.inner inside
      rw [at_left] at rest
      exact (keeps.mono (by omega) (by omega)).trans rest (by rw [start]) (by rw [start])
    · have filed := written.filed (by rw [left, if_neg live])
      rwa [indexed, start] at filed
  · intro e stop
    obtain ⟨-, none, full⟩ := stop safe
    rw [indexed, start] at full
    refine ⟨fun hole => ?_, full⟩
    rw [left, if_pos hole] at none
    cases none

end Neighbours

/-- A live block behind the block is in no index. -/
theorem HeapInv.live_not_indexed {K : KState} {pre post : List Block} {b : Block}
    (h : HeapInv K (pre ++ b :: post)) (live : ∀ c ∈ post.head?, c.live ≠ none) :
    b.addr + b.size ∉ K.indexed := by
  intro listed
  have hole := h.hole_of_indexed listed
  have behind := h.blocks.cut.2
  cases post with
  | nil =>
      have bounds := h.blocks.bounds hole
      have big := (h.blocks.tagged _ hole).big
      have stop : b.addr + b.size = K.heap.hAddrEnd := behind.tiles
      dsimp only at bounds big
      omega
  | cons c post =>
      have same := h.blocks.eq_of_addr hole (c := c) (by simp) behind.tiles.1.symm
      exact live c rfl (congrArg Block.live same).symm

/-! ## Unifying on both sides -/

section Coalesced

variable {K : KState} {pre post before : List Block} {header s r : Nat} {c : Block}

/-- The block in front, as part of the hole or not. -/
theorem InFront.split {pre' : List Block}
    (front : InFront (if c.live = none then some c.addr else none) header (before ++ [c]) pre')
    (next : header = c.addr + c.size) (apart : NoAdjacentHoles (before ++ [c])) :
    ∃ left, before ++ [c] = pre' ++ left ∧ AtMostHole left ∧
      mergedBehind c header + (left.map Block.size).sum = header ∧
      ∀ b ∈ pre'.getLast?, b.live ≠ none := by
  rw [mergedBehind]
  by_cases hole : c.live = none
  · rw [if_pos hole] at front ⊢
    have front : before ++ [c] = pre' ++ [⟨c.addr, header - c.addr, none⟩] := front
    obtain ⟨rfl, same⟩ := List.append_inj' front rfl
    refine ⟨[c], rfl, .inr ⟨c.addr, c.size, ?_⟩, ?_, fun b last live => ?_⟩
    · rw [← hole]
    · rw [next]
      simp
    · exact (List.isChain_append.mp apart).2.2 b last c (by simp) live hole
  · rw [if_neg hole] at front ⊢
    obtain rfl : pre' = before ++ [c] := front
    refine ⟨[], by simp, .inl rfl, by simp, fun b last => ?_⟩
    obtain rfl : c = b := by simpa using last
    exact hole

theorem endOver_of_live (live : ∀ c ∈ post.head?, c.live ≠ none) (e : Nat) :
    endOver e post = e ∧ overHole post = post := by
  cases post with
  | nil => exact ⟨rfl, rfl⟩
  | cons c post =>
      obtain ⟨a, z, held⟩ := c
      cases held with
      | none => exact absurd rfl (live _ rfl)
      | some r => exact ⟨rfl, rfl⟩

/-- What `free` leaves when the block behind is live. -/
theorem unified_of_live (h : HeapInv K ((before ++ [c]) ++ ⟨header, s, some r⟩ :: post))
    (footed : Footed K.view ((before ++ [c]) ++ ⟨header, s, some r⟩ :: post))
    (apart : NoAdjacentHoles ((before ++ [c]) ++ ⟨header, s, some r⟩ :: post))
    (live : ∀ c ∈ post.head?, c.live ≠ none) {K' : KState} {pre' : List Block}
    (front : InFront (if c.live = none then some c.addr else none) header (before ++ [c]) pre')
    (inv : HeapInv K' (pre' ++ ⟨mergedBehind c header, header + s - mergedBehind c header, none⟩ ::
      post))
    (keeps : KeepsOutside K K' (mergedBehind c header) (header + s))
    (footer : IsFooter K'.view (header + s - 8) (mergedBehind c header)) :
    Unified K K' (before ++ [c]) post header s (pre' ++
      ⟨mergedBehind c header, header + s - mergedBehind c header, none⟩ :: post) := by
  obtain ⟨frontApart, restApart, -⟩ := List.isChain_append.mp apart
  have afterApart := (List.isChain_cons.mp restApart).2
  have next : header = c.addr + c.size := by
    have whole := h.blocks
    rw [List.append_assoc, List.singleton_append] at whole
    exact whole.cut.2.tiles.1
  obtain ⟨left, split, atMost, sum, quiet⟩ := front.split next frontApart
  obtain ⟨ahead, behind⟩ := inv.blocks.cut
  dsimp only at ahead behind
  have le : mergedBehind c header ≤ header := by omega
  rw [show mergedBehind c header + (header + s - mergedBehind c header) = header + s by omega]
    at behind
  have still : ∀ b ∈ pre' ++ post, b ∈ (before ++ [c]) ++ ⟨header, s, some r⟩ :: post ∧
      (b.addr + b.size ≤ mergedBehind c header ∨ header + s ≤ b.addr) := by
    intro b mem
    rcases List.mem_append.mp mem with mem | mem
    · refine ⟨?_, .inl (ahead.bounds mem).2⟩
      rw [split]
      simp [mem]
    · exact ⟨by simp [mem], .inr (behind.bounds mem).1⟩
  refine ⟨⟨pre', left, [], post, mergedBehind c header, split, rfl, atMost, .inl rfl, ?_, ?_⟩, inv,
    ?_, ?_⟩
  · rw [List.map_append, List.sum_append]
    simp only [List.map_cons, List.map_nil, List.sum_cons, List.sum_nil]
    rw [show header + s - mergedBehind c header = (left.map Block.size).sum + (s + 0) by omega]
  · intro b mem a h1 h2
    obtain ⟨old, off⟩ := still b mem
    have bounds := h.blocks.bounds old
    exact keeps a (by omega) (by omega) (by omega)
  · have others : ∀ b ∈ pre' ++ post, IsFooter K'.view (b.addr + b.size - 8) b.addr := by
      intro b mem
      obtain ⟨old, off⟩ := still b mem
      have bounds := h.blocks.bounds old
      have big := (h.blocks.tagged b old).big
      exact keeps.footer (by omega) (by omega) (by omega) (footed b old)
    rw [footed_append, footed_cons]
    refine ⟨fun b mem => others b (List.mem_append_left _ mem), ?_,
      fun b mem => others b (List.mem_append_right _ mem)⟩
    dsimp only
    rwa [show mergedBehind c header + (header + s - mergedBehind c header) - 8 = header + s - 8 by
      omega]
  · refine List.isChain_append.mpr ⟨?_, List.isChain_cons.mpr ⟨fun b first _ => live b first,
      afterApart⟩, fun b last d _ hole => absurd hole (quiet b last)⟩
    rw [split] at frontApart
    exact (List.isChain_append.mp frontApart).1

/-- The footer of a right neighbour that is unified with stays as it was. -/
theorem live_of_unified {bs' : List Block}
    (h : HeapInv K ((before ++ [c]) ++ ⟨header, s, some r⟩ :: post))
    (footed : Footed K.view ((before ++ [c]) ++ ⟨header, s, some r⟩ :: post)) {K' : KState}
    {pre' : List Block} (le : mergedBehind c header ≤ header)
    (inv : HeapInv K' (pre' ++ ⟨mergedBehind c header,
      endOver (header + s) post - mergedBehind c header, none⟩ :: overHole post))
    (keeps : KeepsOutside K K' (mergedBehind c header) (header + s))
    (unified : Unified K K' (before ++ [c]) post header s bs') : ∀ c ∈ post.head?, c.live ≠ none := by
  intro d first hole
  obtain ⟨rest, rfl⟩ : ∃ rest, post = d :: rest := by
    cases post with
    | nil => cases first
    | cons d' rest =>
        obtain rfl := Option.some.inj first
        exact ⟨rest, rfl⟩
  have member : d ∈ (before ++ [c]) ++ ⟨header, s, some r⟩ :: d :: rest := by simp
  have bounds := h.blocks.bounds member
  have big := (h.blocks.tagged d member).big
  have own := (h.blocks.tagged ⟨header, s, some r⟩ (by simp)).big
  have start : d.addr = header + s := h.blocks.cut.2.tiles.1
  have pointer := (footed d member).header
  obtain ⟨e, z, live⟩ := d
  obtain rfl : live = none := hole
  dsimp only at start bounds big pointer own
  subst start
  rw [endOver, overHole] at inv
  have here : (mergedBehind c header, 1, header + s + z - mergedBehind c header) ∈
      bs'.map fun b => (b.addr, b.flag, b.size) := by
    rw [← inv.blocks.unique unified.inv.blocks]
    simp
  obtain ⟨b, mem, same⟩ := List.mem_map.mp here
  obtain ⟨addr, size⟩ := Prod.mk.inj same
  have size := (Prod.mk.inj size).2
  have footer := (unified.footed b mem).header
  rw [addr, size, keeps.word (by omega) (by omega) (by omega)] at footer
  rw [show mergedBehind c header + (header + s + z - mergedBehind c header) - 8 + 4 =
    header + s + z - 8 + 4 by omega, pointer] at footer
  omega

/-- On a heap in order, with footers and without adjacent holes, `free` of a block
inside it unifies the block with its neighbours exactly when the block behind is live
and the hole has a place in the index: that of the hole in front, or a free one. -/
theorem unifies_iff (h : HeapInv K (pre ++ ⟨header, s, some r⟩ :: post))
    (footed : Footed K.view (pre ++ ⟨header, s, some r⟩ :: post))
    (apart : NoAdjacentHoles (pre ++ ⟨header, s, some r⟩ :: post)) (notFirst : pre ≠ [])
    (inner : endOver (header + s) post ≠ K.heap.hAddrEnd) :
    (∃ K' bs', free (header + 12) K = .ok ((), K') ∧ Unified K K' pre post header s bs') ↔
      (∀ c ∈ post.head?, c.live ≠ none) ∧
        ((∃ c ∈ pre.getLast?, c.live = none) ∨
          K.heap.hIndex.saSize < K.heap.hIndex.saMaxsize) := by
  obtain rfl | ⟨before, c, rfl⟩ := List.eq_nil_or_concat pre
  · exact absurd rfl notFirst
  rw [List.concat_eq_append] at h footed apart ⊢
  have run := wp_free_inner h footed inner
  have next : header = c.addr + c.size := by
    have whole := h.blocks
    rw [List.append_assoc, List.singleton_append] at whole
    exact whole.cut.2.tiles.1
  have le : mergedBehind c header ≤ header := by
    rw [mergedBehind]
    split <;> omega
  have fresh : (∀ c ∈ post.head?, c.live ≠ none) →
      (K.indexed.erase (header + s)).length = K.heap.hIndex.saSize := by
    intro live
    rw [List.erase_of_not_mem (h.live_not_indexed live), length_indexed]
  constructor
  · rintro ⟨K', bs', ran, unified⟩
    obtain ⟨pre', -, inv, keeps, -, filed⟩ := Program.wp_ok run ran
    have live := live_of_unified h footed le inv keeps unified
    refine ⟨live, ?_⟩
    by_cases hole : c.live = none
    · exact .inl ⟨c, by simp, hole⟩
    · right
      rw [← fresh live]
      exact filed hole
  · rintro ⟨live, place⟩
    have returns := Program.wp_mono run (fun _ _ h => h) fun e full => (?_ : False)
    · obtain ⟨⟨⟩, K', ran, pre', front, inv, keeps, footer, -⟩ := Program.wp_some returns
      obtain ⟨stop, rest⟩ := endOver_of_live live (header + s)
      rw [stop, rest] at inv
      exact ⟨K', _, ran, unified_of_live h footed apart live front inv keeps footer⟩
    · obtain ⟨held, full⟩ := full
      rw [fresh live] at full
      rcases place with ⟨d, last, hole⟩ | room
      · obtain rfl : c = d := by simpa using last
        exact held hole
      · omega

end Coalesced

/-- The third of four blocks, behind a hole. -/
theorem unifies_with_hole_in_front :
    ∃ K K' pre post bs', free (0xC00810F0 + 12) K = .ok ((), K') ∧
      Unified K K' (pre ++ [⟨0xC0081078, 120, none⟩]) post 0xC00810F0 120 bs' ∧
      pre.length = 1 ∧ post.length = 2 := by
  have ran : ((([.alloc 100 false, .alloc 100 false, .alloc 100 false, .alloc 100 false,
      .free 0xC0081084] : List HeapOp).foldlM
      (HeapState.nextSound Resize.any 1) bootHeap).map fun s =>
        decide (tags s.kernel.view s.kernel.heap.hAddrEnd 6 s.kernel.heap.hAddrStart =
            some [(0xC0081000, 0, 120), (0xC0081078, 1, 120), (0xC00810F0, 0, 120),
              (0xC0081168, 0, 120), (0xC00811E0, 1, 519712)] ∧
          TagsFooted s.kernel.view [(0xC0081000, 0, 120), (0xC0081078, 1, 120),
            (0xC00810F0, 0, 120), (0xC0081168, 0, 120), (0xC00811E0, 1, 519712)] ∧
          s.kernel.heap.hAddrEnd = 0xC0100000)) = some true := by
    decide +kernel
  obtain ⟨s, taken, shape⟩ := Option.map_eq_some_iff.mp ran
  obtain ⟨read, checked, end_⟩ := of_decide_eq_true shape
  obtain ⟨bs, inv, footed, listed⟩ := inv_of_run taken read checked
  obtain ⟨b₁, bs, rfl, tag₁, listed⟩ := List.map_eq_cons_iff.mp listed
  obtain ⟨b₂, bs, rfl, tag₂, listed⟩ := List.map_eq_cons_iff.mp listed
  obtain ⟨b₃, bs, rfl, tag₃, listed⟩ := List.map_eq_cons_iff.mp listed
  obtain ⟨b₄, bs, rfl, tag₄, listed⟩ := List.map_eq_cons_iff.mp listed
  obtain ⟨b₅, bs, rfl, tag₅, listed⟩ := List.map_eq_cons_iff.mp listed
  obtain rfl := List.map_eq_nil_iff.mp listed
  obtain ⟨r₁, rfl⟩ := eq_of_tags_live tag₁
  obtain rfl := eq_of_tags_hole tag₂
  obtain ⟨r₃, rfl⟩ := eq_of_tags_live tag₃
  obtain ⟨r₄, rfl⟩ := eq_of_tags_live tag₄
  obtain rfl := eq_of_tags_hole tag₅
  have apart : NoAdjacentHoles (([⟨0xC0081000, 120, some r₁⟩] ++ [⟨0xC0081078, 120, none⟩]) ++
      ⟨0xC00810F0, 120, some r₃⟩ :: [⟨0xC0081168, 120, some r₄⟩, ⟨0xC00811E0, 519712, none⟩]) := by
    simp [NoAdjacentHoles]
  have live : ∀ c ∈ ([⟨0xC0081168, 120, some r₄⟩, ⟨0xC00811E0, 519712, none⟩] : List Block).head?,
      c.live ≠ none := by simp
  have inner : endOver (0xC00810F0 + 120)
      [⟨0xC0081168, 120, some r₄⟩, ⟨0xC00811E0, 519712, none⟩] ≠ s.kernel.heap.hAddrEnd := by
    rw [end_, (endOver_of_live live _).1]
    decide
  have inv : HeapInv s.kernel (([⟨0xC0081000, 120, some r₁⟩] ++ [⟨0xC0081078, 120, none⟩]) ++
      ⟨0xC00810F0, 120, some r₃⟩ :: [⟨0xC0081168, 120, some r₄⟩, ⟨0xC00811E0, 519712, none⟩]) := inv
  obtain ⟨K', bs', freed, unified⟩ := (unifies_iff inv footed apart (by simp) inner).mpr
    ⟨live, .inl ⟨⟨0xC0081078, 120, none⟩, by simp, rfl⟩⟩
  exact ⟨s.kernel, K', _, _, bs', freed, unified, rfl, rfl⟩

/-- The second of four blocks, with a hole behind it. -/
theorem right_footer_stays :
    ∃ K pre post r, HeapInv K (pre ++ ⟨0xC0081078, 120, some r⟩ :: post) ∧
      Footed K.view (pre ++ ⟨0xC0081078, 120, some r⟩ :: post) ∧
      NoAdjacentHoles (pre ++ ⟨0xC0081078, 120, some r⟩ :: post) ∧ pre ≠ [] ∧
      endOver (0xC0081078 + 120) post ≠ K.heap.hAddrEnd ∧
      ∀ K' bs', free (0xC0081078 + 12) K = .ok ((), K') →
        ¬Unified K K' pre post 0xC0081078 120 bs' := by
  have ran : ((([.alloc 100 false, .alloc 100 false, .alloc 100 false, .alloc 100 false,
      .free 0xC00810FC] : List HeapOp).foldlM
      (HeapState.nextSound Resize.any 1) bootHeap).map fun s =>
        decide (tags s.kernel.view s.kernel.heap.hAddrEnd 6 s.kernel.heap.hAddrStart =
            some [(0xC0081000, 0, 120), (0xC0081078, 0, 120), (0xC00810F0, 1, 120),
              (0xC0081168, 0, 120), (0xC00811E0, 1, 519712)] ∧
          TagsFooted s.kernel.view [(0xC0081000, 0, 120), (0xC0081078, 0, 120),
            (0xC00810F0, 1, 120), (0xC0081168, 0, 120), (0xC00811E0, 1, 519712)] ∧
          s.kernel.heap.hAddrEnd = 0xC0100000)) = some true := by
    decide +kernel
  obtain ⟨s, taken, shape⟩ := Option.map_eq_some_iff.mp ran
  obtain ⟨read, checked, end_⟩ := of_decide_eq_true shape
  obtain ⟨bs, inv, footed, listed⟩ := inv_of_run taken read checked
  obtain ⟨b₁, bs, rfl, tag₁, listed⟩ := List.map_eq_cons_iff.mp listed
  obtain ⟨b₂, bs, rfl, tag₂, listed⟩ := List.map_eq_cons_iff.mp listed
  obtain ⟨b₃, bs, rfl, tag₃, listed⟩ := List.map_eq_cons_iff.mp listed
  obtain ⟨b₄, bs, rfl, tag₄, listed⟩ := List.map_eq_cons_iff.mp listed
  obtain ⟨b₅, bs, rfl, tag₅, listed⟩ := List.map_eq_cons_iff.mp listed
  obtain rfl := List.map_eq_nil_iff.mp listed
  obtain ⟨r₁, rfl⟩ := eq_of_tags_live tag₁
  obtain ⟨r₂, rfl⟩ := eq_of_tags_live tag₂
  obtain rfl := eq_of_tags_hole tag₃
  obtain ⟨r₄, rfl⟩ := eq_of_tags_live tag₄
  obtain rfl := eq_of_tags_hole tag₅
  have inner : endOver (0xC0081078 + 120) [⟨0xC00810F0, 120, none⟩, ⟨0xC0081168, 120, some r₄⟩,
      ⟨0xC00811E0, 519712, none⟩] ≠ s.kernel.heap.hAddrEnd := by
    rw [end_, endOver]
    decide
  have inv : HeapInv s.kernel (([] ++ [⟨0xC0081000, 120, some r₁⟩]) ++
      ⟨0xC0081078, 120, some r₂⟩ :: [⟨0xC00810F0, 120, none⟩, ⟨0xC0081168, 120, some r₄⟩,
        ⟨0xC00811E0, 519712, none⟩]) := inv
  have footed : Footed s.kernel.view (([] ++ [⟨0xC0081000, 120, some r₁⟩]) ++
      ⟨0xC0081078, 120, some r₂⟩ :: [⟨0xC00810F0, 120, none⟩, ⟨0xC0081168, 120, some r₄⟩,
        ⟨0xC00811E0, 519712, none⟩]) := footed
  refine ⟨s.kernel, _, _, r₂, inv, footed, by simp [NoAdjacentHoles], by simp, inner,
    fun K' bs' freed unified => ?_⟩
  obtain ⟨pre', -, inv', keeps, -, -⟩ := Program.wp_ok (wp_free_inner inv footed inner) freed
  exact live_of_unified inv footed (by simp [mergedBehind]) inv' keeps unified _ rfl rfl

end MiniKernel.Kernel
