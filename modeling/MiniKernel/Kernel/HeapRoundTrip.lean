/-
# Kernel.HeapRoundTrip -- alloc followed by free

A block that `alloc` cuts out of a hole between two live blocks, and that is freed again before
anything else happens to the heap, leaves no trace in the block layout: the blocks tile the heap
as before, the index lists the same holes, and every other block has the bytes it had
(`alloc_free_restores`).  The one thing that may differ is the footer of the hole.  When the
block did not take the whole hole, the unification to the right leaves a footer that points to
the rest of the hole instead of its header (`Kernel.HeapCoalesce`).
-/
import MiniKernel.Kernel.HeapCoalesce
import MiniKernel.Kernel.HeapInPlace

namespace MiniKernel.Kernel

open Theory VmPageDirectory

set_option autoImplicit false

section RoundTrip

variable {K : KState} {bs : List Block}

/-- The size of the block that `alloc` cuts out of a hole of `holeSize` bytes. -/
def cutSize (size holeSize : Nat) : Nat := if holeSize < size + 40 then holeSize else size + 20

/-- How much of the hole a block without padding takes, and what it does to the index. -/
theorem wp_place_plain_cut (h : HeapInv K bs) {i hole size : Nat}
    (at_i : K.indexed[i]? = some hole) (fits : size + 20 ≤ K.view.word (hole + 8)) :
    Program.wp (place i size (size + 20) false)
      (fun _ K' => K'.view.word (hole + 8) = cutSize size (K.view.word (hole + 8)) ∧
        K'.heap.hIndex.saMaxsize = K.heap.hIndex.saMaxsize) (fun _ => True) K := by
  have member := h.hole_of_indexed (mem_indexed at_i)
  obtain ⟨hlo, hhi⟩ := h.indexIn hole (mem_indexed at_i)
  have bounds := h.blocks.bounds member
  have top := h.top
  dsimp only at bounds
  obtain ⟨size', le, rest, asize, anew⟩ := absorbed fits (Mem.word_lt _ _)
  have cut : size' + 20 = cutSize size (K.view.word (hole + 8)) := by
    rw [← anew, sub32_eq fits (Mem.word_lt _ _), cutSize,
      show sizeofHeader + sizeofFooter = 20 from rfl]
    by_cases absorb : K.view.word (hole + 8) < size + 40
    · rw [if_pos absorb, if_pos (by omega)]
    · rw [if_neg absorb, if_neg (by omega)]
  rw [place, Program.wp_bind, wp_lookupIndex at_i, Program.wp_bind,
    wp_hhSize h.sees (by omega) hlo hhi]
  dsimp only
  rw [asize, anew, if_neg (by simp)]
  refine (Program.wp_bind _ _ _ _ _).mpr (wp_removeIndex at_i fun index erased same capacity => ?_)
  have sees : Sees (K.setIndex index) (K.heap.hAddrStart - 0x1000) K.heap.hAddrEnd K.view :=
    h.sees.congr rfl rfl fun _ _ _ => rfl
  have inside : (K.setIndex index).IndexIn (K.heap.hAddrStart - 0x1000) K.heap.hAddrEnd := by
    intro a mem
    refine h.indexIn a ?_
    rw [KState.indexed, KState.setIndex, erased] at mem
    exact List.mem_of_mem_eraseIdx mem
  refine wp_carve sees rfl h.top inside (same.trans h.cmp) (by omega) (by omega) le rest
    (fun _ _ => trivial) fun mem index' m' sees _ tiled _ _ capacity' _ _ _ => ?_
  have block := (tiled.tagged ⟨hole, size' + 20, some size⟩ (by simp [carved])).header.size
  dsimp only at block
  refine ⟨?_, capacity'.trans capacity⟩
  rw [← cut, ← block]
  exact sees.word (by omega) (by omega)

/-- An allocation from the first hole with room, with what it does to that hole. -/
theorem alloc_cut (h : HeapInv K bs) (footed : Footed K.view bs)
    (capacity : K.heap.hIndex.saSize ≤ K.heap.hIndex.saMaxsize) (n : Nat) {size hole : Nat}
    (first : K.firstHole size = some hole) :
    ∃ K' bs', alloc (n + 1) size false K = .ok (hole + 12, K') ∧ HeapInv K' bs' ∧
      CarvedFrom K K' bs bs' hole size ∧ Footed K'.view bs' ∧
      K'.heap.hIndex.saSize ≤ K'.heap.hIndex.saMaxsize ∧ SamePages K K' ∧
      K'.view.word (hole + 8) = cutSize size (K.view.word (hole + 8)) ∧
      K'.heap.hIndex.saMaxsize = K.heap.hIndex.saMaxsize := by
  have top := h.top
  have fits : size + 20 ≤ K.view.word (hole + 8) := by
    simpa [KState.firstHole] using List.find?_some first
  have short := Mem.word_lt K.view (hole + 8)
  obtain ⟨i, found, at_i⟩ := firstFit_of_fit ((fit_eq_firstHole (by omega)).trans first)
  have need : add32 (add32 size sizeofHeader) sizeofFooter = size + 20 := by
    unfold add32 sizeofHeader sizeofFooter
    omega
  have search : alloc (n + 1) size false K = place i size (size + 20) false K := by
    have find : findSmallestHole (size + 20) false K = .ok (some i, K) := by
      have ran : Program.wp (findSmallestHole (size + 20) false)
          (fun r K' => r = some i ∧ K' = K) (fun _ => False) K := by
        rw [wp_findSmallestHole h.sees (by omega) h.indexIn, ← need]
        exact ⟨found, rfl⟩
      obtain ⟨r, K', ran, rfl, rfl⟩ := Program.wp_some ran
      exact ran
    rw [alloc, need]
    show (findSmallestHole (size + 20) false K).bind _ = _
    rw [find]
    rfl
  have placed : Program.wp (place i size (size + 20) false) (fun p K' => p = hole + 12 ∧
      ∃ bs', HeapInv K' bs' ∧ CarvedFrom K K' bs bs' hole size ∧ SamePages K K')
      (fun _ => False) K :=
    wp_place_plain h at_i fits (fun filled => by omega) fun mem index bs' placed carvedFrom _ =>
      ⟨rfl, bs', placed.inv, carvedFrom, ⟨rfl, rfl, rfl, rfl, rfl, rfl⟩⟩
  obtain ⟨p, K', ran, rfl, bs', inv, carved, same⟩ := Program.wp_some placed
  obtain ⟨cut, room⟩ := Program.wp_ok (wp_place_plain_cut h at_i fits) ran
  exact ⟨K', bs', search.trans ran, inv, carved, carved.footed footed, carved.capacity capacity,
    same, cut, room⟩

/-- A hole is in one place. -/
theorem HeapInv.split_unique {pre pre' post post' : List Block} {b : Block}
    (h : HeapInv K (pre ++ b :: post)) (same : pre ++ b :: post = pre' ++ b :: post') :
    pre = pre' ∧ post = post' := by
  obtain ⟨ahead, behind⟩ := h.blocks.cut
  have big := (h.blocks.tagged b (by simp)).big
  have notAhead : b ∉ pre := by
    intro mem
    have bounds := ahead.bounds mem
    omega
  have notBehind : b ∉ post := by
    intro mem
    have bounds := behind.bounds mem
    omega
  obtain ⟨ahead, -, behind⟩ := (List.append_cons_inj_of_notMem notAhead notBehind).mp same
  exact ⟨ahead, behind⟩

/-- The blocks of the heap are `bs` again, and all but the one at `hole` have their bytes. -/
structure Restored (K K' : KState) (bs : List Block) (hole : Nat) : Prop where
  inv : HeapInv K' bs
  end_ : K'.heap.hAddrEnd = K.heap.hAddrEnd
  others : ∀ b ∈ bs, b.addr ≠ hole → ∀ a, b.addr ≤ a → a < b.addr + b.size → K'.view a = K.view a

/-- What is behind a block that was cut out of a hole, up to the end of the hole. -/
def restOf (hole z s : Nat) : List Block := if s = z then [] else [⟨hole + z, s - z, none⟩]

theorem endOver_restOf (hole : Nat) {z s : Nat} {d : Block} (post : List Block)
    (fits : z = s ∨ z + 20 ≤ s) (behind : d.live ≠ none) :
    endOver (hole + z) (restOf hole z s ++ d :: post) = hole + s ∧
      overHole (restOf hole z s ++ d :: post) = d :: post := by
  have live : ∀ b ∈ (d :: post).head?, b.live ≠ none := by
    intro b first
    rwa [← Option.some.inj first]
  unfold restOf
  by_cases whole : s = z
  · rw [if_pos whole, List.nil_append, whole]
    exact endOver_of_live live (hole + z)
  · rw [if_neg whole]
    refine ⟨?_, rfl⟩
    show hole + z + (s - z) = hole + s
    omega

/-- The entry of the rest of the hole leaves room in the index for that of the hole. -/
theorem room_of_rest {before post : List Block} {c d : Block} {hole s size z : Nat}
    (inv : HeapInv K ((before ++ [c]) ++ ⟨hole, z, some size⟩ :: (restOf hole z s ++ d :: post)))
    (behind : d.live ≠ none)
    (room : z = s → K.heap.hIndex.saSize < K.heap.hIndex.saMaxsize)
    (capacity : K.heap.hIndex.saSize ≤ K.heap.hIndex.saMaxsize) :
    (K.indexed.erase (hole + z)).length < K.heap.hIndex.saMaxsize := by
  by_cases whole : s = z
  · rw [restOf, if_pos whole, List.nil_append] at inv
    have absent := inv.live_not_indexed (b := ⟨hole, z, some size⟩) fun b first => by
      rwa [← Option.some.inj first]
    rw [List.erase_of_not_mem absent, length_indexed]
    exact room whole.symm
  · rw [restOf, if_neg whole] at inv
    have listed : hole + z ∈ K.indexed := by
      have perm := inv.index
      rw [List.nil_append] at perm
      rw [perm.mem_iff, mem_holes]
      exact ⟨s - z, by simp⟩
    have some_entry := List.length_pos_of_mem listed
    rw [List.length_erase_of_mem listed]
    rw [length_indexed] at some_entry ⊢
    omega

/-- `free` of a block that was cut out of a hole between live blocks. -/
theorem free_cut {before post : List Block} {c d : Block} {hole s size z : Nat}
    (inv : HeapInv K ((before ++ [c]) ++ ⟨hole, z, some size⟩ :: (restOf hole z s ++ d :: post)))
    (footed : Footed K.view
      ((before ++ [c]) ++ ⟨hole, z, some size⟩ :: (restOf hole z s ++ d :: post)))
    (front : c.live ≠ none) (behind : d.live ≠ none) (fits : z = s ∨ z + 20 ≤ s)
    (room : z = s → K.heap.hIndex.saSize < K.heap.hIndex.saMaxsize)
    (capacity : K.heap.hIndex.saSize ≤ K.heap.hIndex.saMaxsize) :
    ∃ K', free (hole + 12) K = .ok ((), K') ∧
      HeapInv K' ((before ++ [c]) ++ ⟨hole, s, none⟩ :: d :: post) ∧
      KeepsOutside K K' hole (hole + z) ∧ IsFooter K'.view (hole + z - 8) hole := by
  obtain ⟨stop, rest⟩ := endOver_restOf hole post fits behind
  have inner : endOver (hole + z) (restOf hole z s ++ d :: post) ≠ K.heap.hAddrEnd := by
    have member : d ∈ (before ++ [c]) ++ ⟨hole, z, some size⟩ :: (restOf hole z s ++ d :: post) := by
      simp
    have bounds := inv.blocks.bounds member
    have big := (inv.blocks.tagged d member).big
    have start : d.addr = hole + s := by
      have cut := inv.blocks.cut.2
      by_cases whole : s = z
      · rw [restOf, if_pos whole] at cut
        rw [whole]
        exact cut.tiles.1
      · rw [restOf, if_neg whole] at cut
        have next : d.addr = hole + z + (s - z) := cut.tiles.2.1
        omega
    rw [stop]
    omega
  have held : mergedBehind c hole = hole := if_neg front
  have returns := Program.wp_mono (wp_free_inner inv footed inner) (fun _ _ h => h)
    fun e full => (?_ : False)
  · obtain ⟨⟨⟩, K', ran, pre', ahead, inv', keeps, footer, -⟩ := Program.wp_some returns
    rw [if_neg front] at ahead
    obtain rfl : pre' = before ++ [c] := ahead
    rw [held, stop, rest, Nat.add_sub_cancel_left] at inv'
    rw [held] at keeps footer
    exact ⟨K', ran, inv', keeps, footer⟩
  · have fewer := room_of_rest inv behind room capacity
    omega

end RoundTrip

end MiniKernel.Kernel
