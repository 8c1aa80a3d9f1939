/-
# Kernel.HeapFree -- freeing a block

`free` turns the block into a hole, unifies it with a hole on the left and with
one on the right, cuts the heap when the hole ends it, and files the hole.  Each
step keeps the heap in order up to the entry of the hole in the index, which is
missing until it is filed (`HeapInv K bs [h]`).

The left neighbour is found through the footer in front of the header.  That
footer is right when the neighbour is a live block; a hole may have no footer or
a stale one, and then the test may fail, or find a header that is a hole no
longer.  `FreeSound` asks that what the test finds is the hole that ends there.
-/
import MiniKernel.Kernel.HeapGrow
import Mathlib.Data.List.Nodup

namespace MiniKernel.Kernel

open Theory VmPageDirectory

set_option autoImplicit false

/-! ## Reads outside the heap -/

section Anywhere

variable {K : KState} {a v : Nat}

theorem view_of_peek8 {b : UInt8} (read : K.peek8 a = .ok b) : K.view a = b := by
  unfold KState.peek8 at read
  unfold KState.view
  split at read
  · exact Except.ok.inj read
  · cases read

/-- A read that returns yields the word that is seen. -/
theorem view_of_peek32 (read : K.peek32 a = .ok v) : K.view.word a = v := by
  unfold KState.peek32 at read
  cases h0 : K.peek8 a with
  | error e => simp [h0, bind, Except.bind] at read
  | ok b0 =>
  cases h1 : K.peek8 (a + 1) with
  | error e => simp [h0, h1, bind, Except.bind] at read
  | ok b1 =>
  cases h2 : K.peek8 (a + 2) with
  | error e => simp [h0, h1, h2, bind, Except.bind] at read
  | ok b2 =>
  cases h3 : K.peek8 (a + 3) with
  | error e => simp [h0, h1, h2, h3, bind, Except.bind] at read
  | ok b3 =>
  simp only [h0, h1, h2, h3, bind, Except.bind, Except.ok.injEq] at read
  rw [Mem.word, view_of_peek8 h0, view_of_peek8 h1, view_of_peek8 h2, view_of_peek8 h3, read]

/-- A read of any address. -/
theorem wp_read32_any {Q : Nat → KState → Prop} {E : Stop → Prop}
    (post : K.peek32 a = .ok (K.view.word a) → Q (K.view.word a) K)
    (stop : ∀ e, K.peek32 a = .error e → E e) : Program.wp (read32 a) Q E K := by
  cases read : K.peek32 a with
  | error e => exact (Program.wp_of_error (by rw [read32, read])).mpr (stop e read)
  | ok v =>
      have seen := view_of_peek32 read
      rw [← seen] at read
      exact (Program.wp_of_ok (by rw [read32, read])).mpr (post read)

end Anywhere

/-! ## What a step of `free` keeps -/

/-- The live blocks stay, and the holes other than the one at `x` keep their
sizes. -/
structure Reshaped (K K' : KState) (bs bs' : List Block) (x : Nat) : Prop where
  kept : ∀ c ∈ bs, c.live ≠ none → Kept K K' bs' c
  live : (liveRanges bs').Perm (liveRanges bs)
  sizes : ∀ a ∈ K'.indexed, a ≠ x → K'.view.word (a + 8) = K.view.word (a + 8)
  tables : ∀ t, K'.dir.tableAt t = K.dir.tableAt t
  start : K'.heap.hAddrStart = K.heap.hAddrStart
  max : K'.heap.hAddrMax = K.heap.hAddrMax
  room : K'.heap.hIndex.saMaxsize = K.heap.hIndex.saMaxsize

namespace Reshaped

variable {K K' K'' : KState} {bs bs' bs'' : List Block} {x : Nat}

theorem refl (K : KState) (bs : List Block) (x : Nat) : Reshaped K K bs bs x where
  kept _ mem _ := ⟨mem, fun _ _ _ => rfl⟩
  live := List.Perm.refl _
  sizes _ _ _ := rfl
  tables _ := rfl
  start := rfl
  max := rfl
  room := rfl

theorem trans (first : Reshaped K K' bs bs' x) (second : Reshaped K' K'' bs' bs'' x)
    (listed : ∀ a ∈ K''.indexed, a ≠ x → a ∈ K'.indexed) : Reshaped K K'' bs bs'' x where
  kept c mem live := (first.kept c mem live).trans (second.kept c (first.kept c mem live).mem live)
  live := second.live.trans first.live
  sizes a mem other := (second.sizes a mem other).trans (first.sizes a (listed a mem other) other)
  tables t := (second.tables t).trans (first.tables t)
  start := second.start.trans first.start
  max := second.max.trans first.max
  room := second.room.trans first.room

end Reshaped

/-- The bytes of the heap outside `[lo, hi)` are what they were. -/
def KeepsOutside (K K' : KState) (lo hi : Nat) : Prop :=
  ∀ a, K.heap.hAddrStart ≤ a → a < K.heap.hAddrEnd → a < lo ∨ hi ≤ a → K'.view a = K.view a

theorem KeepsOutside.trans {K K' K'' : KState} {lo hi : Nat} (first : KeepsOutside K K' lo hi)
    (second : KeepsOutside K' K'' lo hi) (start : K'.heap.hAddrStart = K.heap.hAddrStart)
    (end_ : K'.heap.hAddrEnd = K.heap.hAddrEnd) : KeepsOutside K K'' lo hi := fun a h1 h2 off =>
  (second a (start ▸ h1) (end_ ▸ h2) off).trans (first a h1 h2 off)

theorem KeepsOutside.word {K K' : KState} {lo hi a : Nat} (h : KeepsOutside K K' lo hi)
    (h1 : K.heap.hAddrStart ≤ a) (h2 : a + 4 ≤ K.heap.hAddrEnd) (off : a + 4 ≤ lo ∨ hi ≤ a) :
    K'.view.word a = K.view.word a :=
  Mem.word_congr fun b _ _ => h b (by omega) (by omega) (by omega)

theorem KeepsOutside.footer {K K' : KState} {lo hi f header : Nat} (h : KeepsOutside K K' lo hi)
    (h1 : K.heap.hAddrStart ≤ f) (h2 : f + 8 ≤ K.heap.hAddrEnd) (off : f + 8 ≤ lo ∨ hi ≤ f)
    (footer : IsFooter K.view f header) : IsFooter K'.view f header :=
  ⟨(h.word h1 (by omega) (by omega)).trans footer.magic,
    (h.word (by omega) (by omega) (by omega)).trans footer.header⟩

theorem KeepsOutside.mono {K K' : KState} {lo hi lo' hi' : Nat} (h : KeepsOutside K K' lo hi)
    (hlo : lo' ≤ lo) (hhi : hi ≤ hi') : KeepsOutside K K' lo' hi' :=
  fun a h1 h2 off => h a h1 h2 (by omega)

/-- Two neighbouring holes become one; the entry of the second one is gone. -/
theorem HeapInv.merge {K : KState} {pre post : List Block} {x sx y sy : Nat} {u u' : List Nat}
    {mem m : Mem} {index : SortedArray Nat CmpFunc}
    (h : HeapInv K (pre ++ ⟨x, sx, none⟩ :: ⟨y, sy, none⟩ :: post) u)
    (sees : Sees { K with mem := mem } (K.heap.hAddrStart - 0x1000) K.heap.hAddrEnd m)
    (agree : Mem.AgreeOff x (y + sy) K.view m) (block : Block.Tagged m ⟨x, y + sy - x, none⟩)
    (perm : (u' ++ index.toList).Perm (holes pre ++ x :: holes post))
    (cmp : index.saCmp = K.heap.hIndex.saCmp)
    (room : index.saMaxsize = K.heap.hIndex.saMaxsize) (listed : ∀ a ∈ index.toList, a ∈ K.indexed)
    (gone : y ∉ index.toList) :
    HeapInv (KState.setIndex { K with mem := mem } index)
        (pre ++ ⟨x, y + sy - x, none⟩ :: post) u' ∧
      Reshaped K (KState.setIndex { K with mem := mem } index)
        (pre ++ ⟨x, sx, none⟩ :: ⟨y, sy, none⟩ :: post)
        (pre ++ ⟨x, y + sy - x, none⟩ :: post) x := by
  obtain ⟨left, right⟩ := h.blocks.cut
  have start : y = x + sx := right.tiles.1
  have second : (⟨y, sy, none⟩ : Block) ∈ pre ++ ⟨x, sx, none⟩ :: ⟨y, sy, none⟩ :: post := by simp
  have first : (⟨x, sx, none⟩ : Block) ∈ pre ++ ⟨x, sx, none⟩ :: ⟨y, sy, none⟩ :: post := by simp
  have behind := (h.blocks.tagged _ second).big
  have bounds := h.blocks.bounds second
  have low := h.low
  dsimp only at behind left bounds
  have rest : Blocks K.view (y + sy) post K.heap.hAddrEnd :=
    ((List.append_cons pre (⟨x, sx, none⟩ : Block) _ ▸ h.blocks).cut).2
  have tiled : Blocks m K.heap.hAddrStart (pre ++ ⟨x, y + sy - x, none⟩ :: post) K.heap.hAddrEnd := by
    refine (left.of_agreeOff agree (.inl (Nat.le_refl _))).append (.cons block ?_)
    dsimp only
    rw [show x + (y + sy - x) = y + sy by omega]
    exact rest.of_agreeOff agree (.inr (Nat.le_refl _))
  -- every other block lies off the two
  have apart : ∀ c ∈ pre ++ ⟨x, sx, none⟩ :: ⟨y, sy, none⟩ :: post, c.addr ≠ x → c.addr ≠ y →
      c ∈ pre ++ ⟨x, y + sy - x, none⟩ :: post ∧ (c.addr + c.size ≤ x ∨ y + sy ≤ c.addr) := by
    intro c mem' notFirst notSecond
    rcases List.mem_append.mp mem' with mem' | mem'
    · exact ⟨List.mem_append_left _ mem', .inl (left.bounds mem').2⟩
    · rcases List.mem_cons.mp mem' with rfl | mem'
      · exact absurd rfl notFirst
      rcases List.mem_cons.mp mem' with rfl | mem'
      · exact absurd rfl notSecond
      · exact ⟨List.mem_append_right _ (List.mem_cons_of_mem _ mem'), .inr (rest.bounds mem').1⟩
  refine ⟨h.update sees tiled (by simpa using perm) cmp, ⟨fun c mem' live => ?_, by simp, ?_,
    fun _ => rfl, rfl, rfl, room⟩⟩
  · have notFirst : c.addr ≠ x := by
      intro same
      rw [h.blocks.eq_of_addr mem' first same] at live
      exact live rfl
    have notSecond : c.addr ≠ y := by
      intro same
      rw [h.blocks.eq_of_addr mem' second same] at live
      exact live rfl
    obtain ⟨stays, off⟩ := apart c mem' notFirst notSecond
    have bounds := h.blocks.bounds mem'
    refine ⟨stays, fun a h1 h2 => ?_⟩
    exact (sees.eq a (by omega) (by omega)).trans (agree a (by omega))
  · intro a mem' other
    have hole := h.hole_of_indexed (listed a mem')
    have big := (h.blocks.tagged _ hole).big
    have bounds := h.blocks.bounds hole
    obtain ⟨-, off⟩ := apart _ hole other (by
      rintro rfl
      exact gone mem')
    dsimp only at big bounds off
    exact (sees.word (by omega) (by omega)).trans (agree.word (by omega))

/-! ## The left neighbour -/

/-- The hole on the left that `free` finds for the block at `header`. -/
def KState.leftHole (K : KState) (header : Nat) : Option Nat :=
  if K.view.word (header - 8) = vmHeapFtrMagic ∧
      K.view.word (add32 (K.view.word (header - 4)) 4) = 1 then some (K.view.word (header - 4))
  else none

/-- `pre'` is what is in front of the hole that takes in the block at `header`. -/
def InFront (left : Option Nat) (header : Nat) (pre pre' : List Block) : Prop :=
  match left with
  | none => pre' = pre
  | some l => pre = pre' ++ [⟨l, header - l, none⟩]

section Left

variable {K : KState} {pre post : List Block} {header s : Nat}

/-- A hole that ends where the block starts is the block before it. -/
theorem left_neighbour {u : List Nat} (h : HeapInv K (pre ++ ⟨header, s, none⟩ :: post) u) {l : Nat}
    (listed : l ∈ K.indexed) (ends : l + K.view.word (l + 8) = header) :
    ∃ pre', pre = pre' ++ [⟨l, K.view.word (l + 8), none⟩] := by
  have hole := h.hole_of_indexed listed
  have big := (h.blocks.tagged _ hole).big
  obtain ⟨left, right⟩ := h.blocks.cut
  dsimp only at big left right
  rcases List.mem_append.mp hole with before | after
  · obtain ⟨pre', rest, rfl⟩ := List.append_of_mem before
    obtain ⟨-, between⟩ := left.cut
    obtain rfl := between.eq_nil (Nat.le_of_eq ends.symm)
    exact ⟨pre', rfl⟩
  · rcases List.mem_cons.mp after with same | after
    · have at_header := congrArg Block.addr same
      dsimp only at at_header
      omega
    · have := right.bounds after
      dsimp only at this
      omega

/-- The part of `unifyLeft` that unifies. -/
theorem wp_mergeLeft {l : Nat} {E : Stop → Prop}
    (h : HeapInv K (pre ++ ⟨header, s, none⟩ :: post) [header]) (listed : l ∈ K.indexed)
    (ends : l + K.view.word (l + 8) = header) :
    Program.wp (do
        let cacheSize ← hhSize header
        setHfHeader (header + s - 8) l
        let size ← hhSize l
        setHhSize l (add32 size cacheSize)
        pure (l, false))
      (fun r K' => ∃ pre', r = (l, false) ∧ K'.indexed = K.indexed ∧
        K'.heap.hAddrEnd = K.heap.hAddrEnd ∧
        Reshaped K K' (pre ++ ⟨header, s, none⟩ :: post)
          (pre' ++ ⟨l, header + s - l, none⟩ :: post) l ∧
        HeapInv K' (pre' ++ ⟨l, header + s - l, none⟩ :: post) ∧
        pre = pre' ++ [⟨l, header - l, none⟩] ∧ KeepsOutside K K' l (header + s) ∧
        (IsFooter K.view (header + s - 8) header → IsFooter K'.view (header + s - 8) l)) E K := by
  have member : (⟨header, s, none⟩ : Block) ∈ pre ++ ⟨header, s, none⟩ :: post :=
    List.mem_append_right _ List.mem_cons_self
  have tagged := h.blocks.tagged _ member
  have bounds := h.blocks.bounds member
  have big := tagged.big
  have size := tagged.header.size
  have top := h.top
  have low := h.low
  have hole := h.hole_of_indexed listed
  have tagged_left := h.blocks.tagged _ hole
  have big_left := tagged_left.big
  have bounds_left := h.blocks.bounds hole
  dsimp only at bounds big size big_left bounds_left
  have same_size : (K.view.setWord (header + s - 8 + 4) l).word (l + 8) = K.view.word (l + 8) :=
    Mem.word_setWord_of_disjoint (by omega)
  have sum : add32 (K.view.word (l + 8)) s = header + s - l := by
    unfold add32
    omega
  have agree : Mem.AgreeOff l (header + s) K.view _ :=
    Mem.AgreeOff.setWord (Mem.AgreeOff.setWord (.refl _ _ K.view) (a := header + s - 8 + 4) l
      (by omega) (by omega)) (a := l + 8) (header + s - l) (by omega) (by omega)
  have block : Block.Tagged ((K.view.setWord (header + s - 8 + 4) l).setWord (l + 8)
      (header + s - l)) ⟨l, header + s - l, none⟩ := by
    have agree_footer : Mem.AgreeOff (header + s - 4) (header + s) K.view
        (K.view.setWord (header + s - 8 + 4) l) :=
      Mem.AgreeOff.setWord (.refl _ _ K.view) l (by omega) (by omega)
    have still := tagged_left.header.of_agreeOff agree_footer (by
      dsimp only
      omega)
    exact Block.tagged_hole (still.setSize (by omega)) (by omega)
  rw [Program.wp_bind, wp_hhSize h.sees (by omega) (by omega) (by omega), size]
  refine (Program.wp_bind _ _ _ _ _).mpr (wp_setHfHeader h.sees (by omega) (by omega) (by omega)
    fun mem sees => ?_)
  rw [Program.wp_bind, wp_hhSize sees (by omega) (by omega) (by omega), same_size, sum]
  refine (Program.wp_bind _ _ _ _ _).mpr (wp_setHhSize sees (by omega) (by omega) (by omega)
    fun mem sees => ?_)
  dsimp only at sees
  obtain ⟨pre', rfl⟩ := left_neighbour h listed ends
  rw [List.append_assoc, List.singleton_append] at h ⊢
  have perm : (header :: K.indexed).Perm (holes pre' ++ l :: header :: holes post) := by
    simpa using h.index
  have fresh : header ∉ K.indexed :=
    (List.nodup_cons.mp (h.index.nodup_iff.mpr
      (h.blocks.holes_pairwise.imp fun less => Nat.ne_of_lt less))).1
  have left_only : ([] ++ K.heap.hIndex.toList).Perm (holes pre' ++ l :: holes post) :=
    List.Perm.cons_inv (perm.trans (((List.Perm.swap header l _).append_left _).trans
      List.perm_middle))
  obtain ⟨inv, reshaped⟩ := h.merge sees agree block left_only rfl rfl (fun _ listed => listed) fresh
  refine ⟨pre', rfl, rfl, rfl, reshaped, inv, ?_, fun a h1 h2 off => ?_, fun footer => ?_⟩
  · rw [show header - l = K.view.word (l + 8) by omega]
  · exact (sees.eq a (by omega) h2).trans (agree a off)
  · refine ⟨(sees.word (by omega) (by omega)).trans ?_, (sees.word (by omega) (by omega)).trans ?_⟩
    · rw [Mem.word_setWord_of_disjoint (by omega), Mem.word_setWord_of_disjoint (by omega)]
      exact footer.magic
    · rw [Mem.word_setWord_of_disjoint (by omega)]
      exact Mem.word_setWord (by omega)

/-- Two neighbours as one hole. -/
theorem wp_unifyLeft (h : HeapInv K (pre ++ ⟨header, s, none⟩ :: post) [header])
    (sound : ∀ l, K.leftHole header = some l →
      l ∈ K.indexed ∧ l + K.view.word (l + 8) = header) {safe : Prop}
    (readable : safe → K.view.word (header - 8) = vmHeapFtrMagic →
      ∃ v, K.peek32 (add32 (K.view.word (header - 4)) 4) = .ok v) :
    Program.wp (unifyLeft header (header + s - 8))
      (fun r K' => ∃ pre', r = ((K.leftHole header).getD header, (K.leftHole header).isNone) ∧
        K'.indexed = K.indexed ∧ K'.heap.hAddrEnd = K.heap.hAddrEnd ∧
        Reshaped K K' (pre ++ ⟨header, s, none⟩ :: post)
          (pre' ++ ⟨r.1, header + s - r.1, none⟩ :: post) r.1 ∧
        HeapInv K' (pre' ++ ⟨r.1, header + s - r.1, none⟩ :: post) (if r.2 then [header] else []) ∧
        InFront (K.leftHole header) header pre pre' ∧ KeepsOutside K K' r.1 (header + s) ∧
        (IsFooter K.view (header + s - 8) header → IsFooter K'.view (header + s - 8) r.1))
      (fun _ => ¬safe) K := by
  have member : (⟨header, s, none⟩ : Block) ∈ pre ++ ⟨header, s, none⟩ :: post :=
    List.mem_append_right _ List.mem_cons_self
  have tagged := h.blocks.tagged _ member
  have bounds := h.blocks.bounds member
  have big := tagged.big
  have top := h.top
  have low := h.low
  dsimp only at bounds big
  -- without a left neighbour to unify with, nothing changes
  have stays : K.leftHole header = none →
      Program.wp (pure (header, true) : KernelM (Nat × Bool))
        (fun r K' => ∃ pre', r = ((K.leftHole header).getD header, (K.leftHole header).isNone) ∧
          K'.indexed = K.indexed ∧ K'.heap.hAddrEnd = K.heap.hAddrEnd ∧
          Reshaped K K' (pre ++ ⟨header, s, none⟩ :: post)
            (pre' ++ ⟨r.1, header + s - r.1, none⟩ :: post) r.1 ∧
          HeapInv K' (pre' ++ ⟨r.1, header + s - r.1, none⟩ :: post)
            (if r.2 then [header] else []) ∧
          InFront (K.leftHole header) header pre pre' ∧ KeepsOutside K K' r.1 (header + s) ∧
          (IsFooter K.view (header + s - 8) header → IsFooter K'.view (header + s - 8) r.1))
        (fun _ => ¬safe) K := by
    intro none
    have size : header + s - header = s := Nat.add_sub_cancel_left _ _
    refine ⟨pre, by rw [none]; rfl, rfl, rfl, ?_, ?_, by rw [none]; rfl, fun _ _ _ _ => rfl,
      fun footer => footer⟩
    · rw [size]
      exact .refl _ _ _
    · rw [size, if_pos rfl]
      exact h
  have footer : sub32 header sizeofFooter = header - 8 := sub32_eq (by unfold sizeofFooter; omega) (by omega)
  rw [unifyLeft, footer, Program.wp_bind, wp_hfMagic h.sees (by omega) (by omega), Program.wp_ite]
  refine ⟨fun magic => ?_, fun other => stays (if_neg fun both => other both.1)⟩
  rw [Program.wp_bind, wp_hfHeader h.sees (by omega) (by omega) (by omega),
    show header - 8 + 4 = header - 4 by omega, Program.wp_bind]
  refine wp_read32_any (fun _ => ?_) fun e unread => fun safely => ?_
  · rw [Program.wp_ite]
    refine ⟨fun hole => ?_, fun other => stays (if_neg fun both => other both.2)⟩
    have found : K.leftHole header = some (K.view.word (header - 4)) := if_pos ⟨magic, hole⟩
    obtain ⟨listed, ends⟩ := sound _ found
    refine Program.wp_mono (wp_mergeLeft h listed ends) ?_ fun _ e => e
    rintro r K' ⟨pre', rfl, same, end_, reshaped, inv, front, keeps, footer⟩
    exact ⟨pre', by rw [found]; rfl, same, end_, reshaped, inv, by rw [found]; exact front, keeps,
      footer⟩
  · obtain ⟨v, read⟩ := readable safely magic
    rw [read] at unread
    cases unread

end Left

/-! ## The right neighbour -/

/-- The end of the block at `e`, when that is a hole for `free` to unify with. -/
def KState.rightEnd (K : KState) (e : Nat) : Nat :=
  if e < K.heap.hAddrEnd ∧ K.view.word (e + 4) ≠ 0 then e + K.view.word (e + 8) else e

section Right

variable {K : KState} {pre post : List Block} {x s : Nat} {u : List Nat}

/-- The part of `unifyRight` that unifies. -/
theorem wp_mergeRight {e sr : Nat} {E : Stop → Prop}
    (h : HeapInv K (pre ++ ⟨x, s, none⟩ :: ⟨e, sr, none⟩ :: post) u) (own : ∀ a ∈ u, a = x) :
    Program.wp (do
        let size ← hhSize x
        let rightSize ← hhSize e
        setHhSize x (add32 size rightSize)
        let rightSize ← hhSize e
        let testFooter := sub32 (add32 e rightSize) sizeofFooter
        let i ← searchIndex e
        let K ← get
        kassert .foundItem (i < K.heap.hIndex.saSize)
        removeIndex i
        pure testFooter)
      (fun f K' => f = e + sr - 8 ∧ K'.indexed = K.indexed.erase e ∧
        K'.heap.hAddrEnd = K.heap.hAddrEnd ∧
        Reshaped K K' (pre ++ ⟨x, s, none⟩ :: ⟨e, sr, none⟩ :: post)
          (pre ++ ⟨x, e + sr - x, none⟩ :: post) x ∧
        HeapInv K' (pre ++ ⟨x, e + sr - x, none⟩ :: post) u ∧ KeepsOutside K K' x (x + 12)) E K := by
  have first : (⟨x, s, none⟩ : Block) ∈ pre ++ ⟨x, s, none⟩ :: ⟨e, sr, none⟩ :: post := by simp
  have second : (⟨e, sr, none⟩ : Block) ∈ pre ++ ⟨x, s, none⟩ :: ⟨e, sr, none⟩ :: post := by simp
  have tagged := h.blocks.tagged _ first
  have tagged' := h.blocks.tagged _ second
  have bounds := h.blocks.bounds first
  have bounds' := h.blocks.bounds second
  have start : e = x + s := h.blocks.cut.2.tiles.1
  have big := tagged.big
  have big' := tagged'.big
  have size := tagged.header.size
  have size' := tagged'.header.size
  have top := h.top
  have low := h.low
  dsimp only at bounds bounds' big big' size size'
  have sum : add32 s sr = e + sr - x := by
    unfold add32
    omega
  have footer : sub32 (add32 e sr) sizeofFooter = e + sr - 8 := by
    unfold sub32 add32 sizeofFooter
    omega
  have still : (K.view.setWord (x + 8) (e + sr - x)).word (e + 8) = sr :=
    (Mem.word_setWord_of_disjoint (by omega)).trans size'
  have agree : Mem.AgreeOff x (e + sr) K.view (K.view.setWord (x + 8) (e + sr - x)) :=
    Mem.AgreeOff.setWord (.refl _ _ _) _ (by omega) (by omega)
  have block : Block.Tagged (K.view.setWord (x + 8) (e + sr - x)) ⟨x, e + sr - x, none⟩ :=
    Block.tagged_hole (tagged.header.setSize (by omega)) (by omega)
  have perm : (u ++ K.indexed).Perm (holes pre ++ x :: e :: holes post) := by simpa using h.index
  have listed : e ∈ K.indexed := by
    rcases List.mem_append.mp (perm.mem_iff.mpr (by simp : e ∈ _)) with mine | listed
    · have := own e mine
      omega
    · exact listed
  rw [Program.wp_bind, wp_hhSize h.sees (by omega) (by omega) (by omega), size, Program.wp_bind,
    wp_hhSize h.sees (by omega) (by omega) (by omega), size', sum]
  refine (Program.wp_bind _ _ _ _ _).mpr (wp_setHhSize h.sees (by omega) (by omega) (by omega)
    fun mem sees => ?_)
  rw [Program.wp_bind, wp_hhSize sees (by omega) (by omega) (by omega), still]
  dsimp only
  rw [footer, Program.wp_bind]
  refine wp_searchIndex (fun k at_k => ?_) fun missing => absurd listed missing
  rw [Program.wp_bind, Program.wp_get, Program.wp_bind, wp_kassert]
  obtain ⟨inside, here⟩ := List.getElem?_eq_some_iff.mp at_k
  refine ⟨fun _ => ?_, fun out => (out (length_indexed ▸ inside)).elim⟩
  refine (Program.wp_bind _ _ _ _ _).mpr (wp_removeIndex at_k fun index erased cmp room => ?_)
  have erased : index.toList = K.indexed.erase e := by
    rw [erased, ← here]
    exact (h.nodup.erase_getElem k inside).symm
  have perm' : (u ++ index.toList).Perm (holes pre ++ x :: holes post) := by
    have front : (u ++ K.indexed).Perm (e :: (holes pre ++ x :: holes post)) :=
      perm.trans (((List.Perm.swap e x _).append_left _).trans List.perm_middle)
    have both := front.erase e
    rw [List.erase_cons_head, List.erase_append_right _ (fun mine => by
      have := own e mine
      omega)] at both
    rw [erased]
    exact both
  obtain ⟨inv, reshaped⟩ := h.merge sees agree block perm' cmp room
    (fun a mem' => List.mem_of_mem_erase (erased ▸ mem'))
    (by rw [erased]; exact h.nodup.not_mem_erase)
  have agree_block : Mem.AgreeOff x (x + 12) K.view (K.view.setWord (x + 8) (e + sr - x)) :=
    Mem.AgreeOff.setWord (.refl _ _ _) _ (by omega) (by omega)
  exact ⟨rfl, erased, rfl, reshaped, inv, fun a h1 h2 off =>
    (sees.eq a (by omega) h2).trans (agree_block a off)⟩

/-- A header behind the heap is in no index: unifying with it does not return. -/
theorem wp_mergeRight_outside {e : Nat} {Q : Nat → KState → Prop} {E : Stop → Prop}
    (h : HeapInv K (pre ++ ⟨x, s, none⟩ :: post) u) (outside : e ∉ K.indexed) (stops : ∀ e, E e) :
    Program.wp (do
        let size ← hhSize x
        let rightSize ← hhSize e
        setHhSize x (add32 size rightSize)
        let rightSize ← hhSize e
        let testFooter := sub32 (add32 e rightSize) sizeofFooter
        let i ← searchIndex e
        let K ← get
        kassert .foundItem (i < K.heap.hIndex.saSize)
        removeIndex i
        pure testFooter) Q E K := by
  have member : (⟨x, s, none⟩ : Block) ∈ pre ++ ⟨x, s, none⟩ :: post := by simp
  have big := (h.blocks.tagged _ member).big
  have bounds := h.blocks.bounds member
  have top := h.top
  dsimp only at big bounds
  rw [Program.wp_bind, wp_hhSize h.sees (by omega) (by omega) (by omega), Program.wp_bind]
  refine wp_read32_any (fun _ => ?_) fun e _ => stops e
  refine (Program.wp_bind _ _ _ _ _).mpr (wp_setHhSize h.sees (by omega) (by omega) (by omega)
    fun mem sees => ?_)
  rw [Program.wp_bind]
  refine wp_read32_any (fun _ => ?_) fun e _ => stops e
  rw [Program.wp_bind]
  refine wp_searchIndex (fun k at_k => absurd (mem_indexed at_k) outside) fun _ => ?_
  rw [Program.wp_bind, Program.wp_get, Program.wp_bind, wp_kassert]
  exact ⟨fun inside => absurd inside (Nat.lt_irrefl _), fun _ => stops _⟩

/-- The blocks behind the right neighbour that is unified with. -/
def overHole : List Block → List Block
  | ⟨_, _, none⟩ :: rest => rest
  | bs => bs

/-- The holes on both sides are one, and the footer of what is left ends it. -/
theorem wp_unifyRight (h : HeapInv K (pre ++ ⟨x, s, none⟩ :: post) u) (own : ∀ a ∈ u, a = x)
    {safe : Prop}
    (readable : safe → x + s = K.heap.hAddrEnd → (∃ v, K.peek32 (x + s) = .ok v) ∧
      (K.view.word (x + s) = vmHeapHdrMagic → K.peek32 (add32 (x + s) 4) = .ok 0)) :
    Program.wp (unifyRight x (x + s - 8))
      (fun f K' => f = K.rightEnd (x + s) - 8 ∧ K'.indexed = K.indexed.erase (x + s) ∧
        K'.heap.hAddrEnd = K.heap.hAddrEnd ∧
        Reshaped K K' (pre ++ ⟨x, s, none⟩ :: post)
          (pre ++ ⟨x, K.rightEnd (x + s) - x, none⟩ :: overHole post) x ∧
        HeapInv K' (pre ++ ⟨x, K.rightEnd (x + s) - x, none⟩ :: overHole post) u ∧
        KeepsOutside K K' x (x + 12))
      (fun _ => ¬safe) K := by
  have member : (⟨x, s, none⟩ : Block) ∈ pre ++ ⟨x, s, none⟩ :: post := by simp
  have big := (h.blocks.tagged _ member).big
  have bounds := h.blocks.bounds member
  have top := h.top
  have low := h.low
  dsimp only at big bounds
  have behind : add32 (x + s - 8) sizeofFooter = x + s := by
    unfold add32 sizeofFooter
    omega
  have stays : K.rightEnd (x + s) = x + s → x + s ∉ K.indexed → overHole post = post →
      Program.wp (pure (x + s - 8) : KernelM Nat)
        (fun f K' => f = K.rightEnd (x + s) - 8 ∧ K'.indexed = K.indexed.erase (x + s) ∧
          K'.heap.hAddrEnd = K.heap.hAddrEnd ∧
          Reshaped K K' (pre ++ ⟨x, s, none⟩ :: post)
            (pre ++ ⟨x, K.rightEnd (x + s) - x, none⟩ :: overHole post) x ∧
          HeapInv K' (pre ++ ⟨x, K.rightEnd (x + s) - x, none⟩ :: overHole post) u ∧
          KeepsOutside K K' x (x + 12))
        (fun _ => ¬safe) K := by
    intro same missing alone
    rw [same, show x + s - x = s by omega, List.erase_of_not_mem missing, alone]
    exact ⟨rfl, rfl, rfl, .refl _ _ _, h, fun _ _ _ _ => rfl⟩
  rw [unifyRight, behind]
  cases post with
  | nil =>
      have ends : x + s = K.heap.hAddrEnd := h.blocks.cut.2.tiles
      have outside : x + s ∉ K.indexed := by
        intro listed
        have := h.indexIn _ listed
        omega
      have alone : K.rightEnd (x + s) = x + s := if_neg fun both => by omega
      rw [Program.wp_bind]
      refine wp_read32_any (fun _ => ?_) fun e unread safely => ?_
      · rw [Program.wp_ite]
        refine ⟨fun magic => ?_, fun _ => stays alone outside rfl⟩
        rw [Program.wp_bind]
        refine wp_read32_any (fun read => ?_) fun e unread safely => ?_
        · rw [Program.wp_ite]
          refine ⟨fun hole => ?_, fun _ => stays alone outside rfl⟩
          refine wp_mergeRight_outside h outside fun e safely => ?_
          rw [(readable safely ends).2 magic] at read
          exact absurd (Except.ok.inj read).symm hole
        · rw [(readable safely ends).2 magic] at unread
          cases unread
      · obtain ⟨v, read⟩ := (readable safely ends).1
        rw [read] at unread
        cases unread
  | cons c post =>
      have next : c ∈ pre ++ ⟨x, s, none⟩ :: c :: post := by simp
      have start : c.addr = x + s := h.blocks.cut.2.tiles.1
      have tagged := h.blocks.tagged c next
      have bounds_c := h.blocks.bounds next
      have big_c := tagged.big
      obtain ⟨addr, sc, live⟩ := c
      dsimp only at start bounds_c big_c
      subst start
      rw [Program.wp_bind, wp_hhMagic h.sees (by omega) (by omega), tagged.header.magic, if_pos rfl,
        Program.wp_bind, wp_hhIsHole h.sees (by omega) (by omega) (by omega), tagged.header.isHole]
      cases live with
      | none =>
          have merged : K.rightEnd (x + s) = x + s + sc := by
            rw [KState.rightEnd, tagged.header.isHole, if_pos ⟨by omega, Nat.one_ne_zero⟩,
              tagged.header.size]
          rw [Block.flag_hole, if_pos Nat.one_ne_zero, merged]
          refine Program.wp_mono (wp_mergeRight h own) ?_ fun _ e => e
          rintro f K' ⟨rfl, erased, end_, reshaped, inv, keeps⟩
          exact ⟨rfl, erased, end_, reshaped, inv, keeps⟩
      | some r =>
          rw [Block.flag_live, if_neg (fun hole => hole rfl)]
          refine stays ?_ (fun listed => ?_) rfl
          · rw [KState.rightEnd, tagged.header.isHole, if_neg fun both => both.2 rfl]
          · have same := h.blocks.eq_of_addr (h.hole_of_indexed listed) next rfl
            cases congrArg Block.live same

end Right

/-! ## The end of the heap -/

/-- Some pages from `hi` on have lost their frames. -/
structure Unmapped (K K' : KState) (hi : Nat) : Prop where
  mem : K'.mem = K.mem
  paging : K'.paging = K.paging
  heap : K'.heap = K.heap
  ready : K'.heapReady = K.heapReady
  frames : FramesOk K'
  below : ∀ a, a < hi → K'.dir.page (pagePtr a) = K.dir.page (pagePtr a)
  entries : ∀ q, (K.dir.page q).isSome → (K'.dir.page q).isSome
  tables : ∀ t, K'.dir.tableAt t = K.dir.tableAt t

/-- `free_frame` on a page with an entry: the bit it clears is that of frame 0. -/
theorem wp_freeFramePage {K : KState} {q : PagePtr} {E : Stop → Prop} (frames : FramesOk K)
    (entry : (K.dir.page q).isSome) {Q : Unit → KState → Prop}
    (post : ∀ b v, FramesOk { K with bits := b, dir := K.dir.setPage q v } →
      Q () { K with bits := b, dir := K.dir.setPage q v }) :
    Program.wp (freeFramePage (some q)) Q E K := by
  obtain ⟨v, at_q⟩ := Option.isSome_iff_exists.mp entry
  refine (Program.wp_of_ok (by rw [freeFramePage]; simp only [at_q]; rfl)).mpr (post _ _ ?_)
  have pages : ∀ v' r, (K.dir.setPage q v').page r = if r = q then some v' else K.dir.page r := by
    intro v' r
    rw [page_setPage, at_q]
    rfl
  by_cases null : v.pFrame = 0
  · have same : ∀ r, (K.dir.setPage q v).page r = K.dir.page r := by
      intro r
      rw [pages]
      split
      · rename_i here
        rw [here, at_q]
      · rfl
    rw [freeFrame, if_pos null]
    exact ⟨frames.nframes, fun r w at_r => frames.owned r w ((same r).symm.trans at_r),
      fun r r' w w' at_r at_r' => frames.unique r r' w w' ((same r).symm.trans at_r)
        ((same r').symm.trans at_r')⟩
  · have bound := (frames.owned q v at_q null).2.1
    rw [freeFrame, if_neg null]
    have old : ∀ r w, (K.dir.setPage q { v with pFrame := 0 }).page r = some w → w.pFrame ≠ 0 →
        K.dir.page r = some w := by
      intro r w at_r held
      rw [pages] at at_r
      split at at_r
      · obtain rfl := Option.some.inj at_r
        exact absurd rfl held
      · exact at_r
    refine ⟨frames.nframes, fun r w at_r held => ?_, fun r r' w w' at_r at_r' held same => ?_⟩
    · obtain ⟨present, small, used⟩ := frames.owned r w (old r w at_r held) held
      refine ⟨present, small, ?_⟩
      dsimp only
      rw [Bitset.used_clearFrame, used, Bool.and_true, Bool.not_eq_true', decide_eq_false_iff_not]
      omega
    · exact frames.unique r r' w w' (old r w at_r held) (old r' w' at_r' (same ▸ held)) held same

section Shrink

variable {K : KState} {E : Stop → Prop}

/-- The loop of `contract` leaves the pages below the new end alone. -/
theorem wp_contractLoop {newSize : Nat} (start : K.heap.hAddrStart % 0x1000 = 0)
    (aligned : newSize % 0x1000 = 0) (top : K.heap.hAddrEnd < 4294967296)
    (entries : ∀ a, K.heap.hAddrStart ≤ a → a < K.heap.hAddrEnd →
      (K.dir.page (pagePtr a)).isSome) (n : Nat) {i : Nat} (page : i % 0x1000 = 0)
    (inside : K.heap.hAddrStart + i < K.heap.hAddrEnd) {K' : KState}
    (unmapped : Unmapped K K' (K.heap.hAddrStart + newSize)) :
    Program.wp (contractLoop newSize n i)
      (fun _ K'' => Unmapped K K'' (K.heap.hAddrStart + newSize)) E K' := by
  induction n generalizing i K' with
  | zero => exact unmapped
  | succ n ih =>
      rw [contractLoop, Program.wp_ite]
      refine ⟨fun more => ?_, fun _ => unmapped⟩
      rw [Program.wp_bind, Program.wp_get, unmapped.heap, add32_eq (by omega), Program.wp_bind]
      have entry := unmapped.entries _ (entries (K.heap.hAddrStart + i) (by omega) inside)
      obtain ⟨v, at_page⟩ := Option.isSome_iff_exists.mp entry
      rw [Program.wp_of_ok (lookupPage_eq at_page), Program.wp_bind]
      refine wp_freeFramePage unmapped.frames entry fun b v frames => ?_
      rw [sub32_eq (by omega) (by omega)]
      refine ih (by omega) (by omega) ⟨unmapped.mem, unmapped.paging, unmapped.heap, unmapped.ready,
        frames, fun a less => ?_, fun q isSome => ?_, fun t => ?_⟩
      · dsimp only
        rw [page_setPage, if_neg]
        · exact unmapped.below a less
        · intro same
          have := Backed.pagePtr_inj same
          omega
      · dsimp only
        rw [page_setPage]
        split
        · rw [Option.isSome_map]
          exact entry
        · exact unmapped.entries q isSome
      · exact (tableAt_setPage _ _ _ _).trans (unmapped.tables t)

theorem contractSize_eq {o : Nat} (small : o < vmHeapMinSize) : contractSize o = vmHeapMinSize := by
  have le : o &&& 0x1000 ≤ 0x1000 := Nat.and_le_right
  unfold contractSize
  dsimp only
  by_cases bit : o &&& 0x1000 ≠ 0
  · rw [if_pos bit, if_pos]
    unfold vmHeapMinSize add32
    omega
  · rw [if_neg bit, if_pos small]

theorem vmHeapMinSize_le_contractSize (o : Nat) : vmHeapMinSize ≤ contractSize o := by
  unfold contractSize
  dsimp only
  split_ifs <;> omega

theorem contractSize_le (o : Nat) : contractSize o ≤ max o vmHeapMinSize := by
  have le : o &&& 0x1000 ≤ 0x1000 := Nat.and_le_right
  have minimum : vmHeapMinSize = 0x70000 := rfl
  unfold contractSize add32
  dsimp only
  split_ifs <;> omega

variable {bs : List Block} {u : List Nat}

/-- `contract` below the least size cuts the heap to it. -/
theorem wp_contract (h : HeapInv K bs u) {o : Nat} (small : o < vmHeapMinSize)
    (long : vmHeapMinSize ≤ K.heap.hAddrEnd - K.heap.hAddrStart) :
    Program.wp (contract o)
      (fun r K' => r = vmHeapMinSize ∧
        ∃ K₁, Unmapped K K₁ (K.heap.hAddrStart + vmHeapMinSize) ∧
          K' = { K₁ with heap := { K.heap with hAddrEnd := K.heap.hAddrStart + vmHeapMinSize } })
      E K := by
  have top := h.top
  have less := h.nonempty
  have start := h.startAligned
  have ends := h.endAligned
  have size : vmHeapMinSize = 0x70000 := rfl
  have length : sub32 K.heap.hAddrEnd K.heap.hAddrStart = K.heap.hAddrEnd - K.heap.hAddrStart :=
    sub32_eq (by omega) h.top
  have last : sub32 (K.heap.hAddrEnd - K.heap.hAddrStart) 0x1000 =
      K.heap.hAddrEnd - K.heap.hAddrStart - 0x1000 := sub32_eq (by omega) (by omega)
  rw [contract, Program.wp_bind, Program.wp_get, Program.wp_bind, wp_kassert, length]
  refine ⟨fun _ => ?_, fun fails => (fails (by omega)).elim⟩
  dsimp only
  rw [contractSize_eq small, last]
  have entries : ∀ a, K.heap.hAddrStart ≤ a → a < K.heap.hAddrEnd →
      (K.dir.page (pagePtr a)).isSome := by
    intro a h1 h2
    obtain ⟨v, entry, -⟩ := h.mapped.backed.present a (by omega) h2
    exact Option.isSome_iff_exists.mpr ⟨v, entry⟩
  have unchanged : Unmapped K K (K.heap.hAddrStart + vmHeapMinSize) :=
    ⟨rfl, rfl, rfl, rfl, h.frames, fun _ _ => rfl, fun _ h => h, fun _ => rfl⟩
  refine Program.wp_bind_of (R := fun _ K' => Unmapped K K' (K.heap.hAddrStart + vmHeapMinSize))
    ?_ ?_
  · generalize (K.heap.hAddrEnd - K.heap.hAddrStart - 0x1000) / 0x1000 + 1 = n
    exact wp_contractLoop start (by decide) h.top entries n (by omega) (by omega) unchanged
  · rintro _ K₁ unmapped
    rw [Program.wp_bind, Program.wp_modify, Program.wp_pure, unmapped.heap, add32_eq (by omega)]
    exact ⟨rfl, K₁, unmapped, rfl⟩

/-- The words that `shrink` computes for a hole that starts at `x` and ends the heap. -/
theorem shrink_words {start end_ x s : Nat} (first : start ≤ x) (ends : x + s = end_)
    (top : end_ < 4294967296) (room : x - start + 20 ≤ vmHeapMinSize)
    (long : vmHeapMinSize ≤ end_ - start) :
    sub32 end_ start = end_ - start ∧ sub32 x start = x - start ∧
      sub32 (end_ - start) vmHeapMinSize = end_ - start - vmHeapMinSize ∧
      sub32 s (end_ - start - vmHeapMinSize) = start + vmHeapMinSize - x ∧
      sub32 (add32 x (start + vmHeapMinSize - x)) sizeofFooter = start + vmHeapMinSize - 8 := by
  have minimum : vmHeapMinSize = 0x70000 := rfl
  unfold sub32 add32 sizeofFooter
  omega

section Shrunk

variable {pre : List Block} {x s : Nat} {K₁ : KState} {mem m : Mem}

/-- The heap after the cut is in order. -/
theorem HeapInv.shrunk (h : HeapInv K (pre ++ [⟨x, s, none⟩]) u)
    (long : vmHeapMinSize ≤ K.heap.hAddrEnd - K.heap.hAddrStart)
    (unmapped : Unmapped K K₁ (K.heap.hAddrStart + vmHeapMinSize))
    (sees : Sees { K₁ with mem := mem, heap := { K.heap with
      hAddrEnd := K.heap.hAddrStart + vmHeapMinSize } } (K.heap.hAddrStart - 0x1000)
      (K.heap.hAddrStart + vmHeapMinSize) m)
    (tiled : Blocks m K.heap.hAddrStart (pre ++ [⟨x, K.heap.hAddrStart + vmHeapMinSize - x, none⟩])
      (K.heap.hAddrStart + vmHeapMinSize)) :
    HeapInv { K₁ with mem := mem, heap := { K.heap with
      hAddrEnd := K.heap.hAddrStart + vmHeapMinSize } }
      (pre ++ [⟨x, K.heap.hAddrStart + vmHeapMinSize - x, none⟩]) u := by
  have top := h.top
  have low := h.low
  have less := h.nonempty
  have minimum : vmHeapMinSize = 0x70000 := rfl
  -- the pages that are left all have frames of their own
  have framed : ∀ a v, K.heap.hAddrStart - 0x1000 ≤ a → a < K.heap.hAddrStart + vmHeapMinSize →
      K₁.dir.page (pagePtr a) = some v → v.pFrame ≠ 0 := by
    intro a v h1 h2 at_a null
    have := (h.mapped.zero a v h1 (by omega) ((unmapped.below a h2).symm.trans at_a) null).1
    omega
  have perm : (u ++ K.indexed).Perm
      (holes (pre ++ [⟨x, K.heap.hAddrStart + vmHeapMinSize - x, none⟩])) := by simpa using h.index
  exact {
    ready := unmapped.ready.trans h.ready
    low := h.low
    startAligned := h.startAligned
    endAligned := by
      have := h.startAligned
      dsimp only
      omega
    nonempty := by
      dsimp only
      omega
    top := by
      dsimp only
      omega
    blocks := tiled.congr fun a h1 h2 => sees.eq a (by omega) h2
    index := perm
    cmp := h.cmp
    frames := ⟨unmapped.frames.nframes, unmapped.frames.owned, unmapped.frames.unique⟩
    mapped := ⟨sees.backed, fun a v h1 h2 at_a null => absurd null (framed a v h1 h2 at_a)⟩
    zeroUsed := .inr (by dsimp only; omega) }

/-- Every other block stays as it is. -/
theorem HeapInv.reshaped_of_shrunk (h : HeapInv K (pre ++ [⟨x, s, none⟩]) u)
    (room : x - K.heap.hAddrStart + 20 ≤ vmHeapMinSize)
    (unmapped : Unmapped K K₁ (K.heap.hAddrStart + vmHeapMinSize))
    (sees : Sees { K₁ with mem := mem, heap := { K.heap with
      hAddrEnd := K.heap.hAddrStart + vmHeapMinSize } } (K.heap.hAddrStart - 0x1000)
      (K.heap.hAddrStart + vmHeapMinSize) m)
    (agree : Mem.AgreeOff x (K.heap.hAddrStart + vmHeapMinSize) K.view m) :
    Reshaped K { K₁ with mem := mem, heap := { K.heap with
      hAddrEnd := K.heap.hAddrStart + vmHeapMinSize } } (pre ++ [⟨x, s, none⟩])
      (pre ++ [⟨x, K.heap.hAddrStart + vmHeapMinSize - x, none⟩]) x := by
  have member : (⟨x, s, none⟩ : Block) ∈ pre ++ [⟨x, s, none⟩] := by simp
  obtain ⟨left, -⟩ := h.blocks.cut
  have bounds := h.blocks.bounds member
  dsimp only at bounds left
  have apart : ∀ c ∈ pre ++ [⟨x, s, none⟩], c.addr ≠ x →
      c ∈ pre ∧ c.addr + c.size ≤ x ∧ K.heap.hAddrStart ≤ c.addr := by
    intro c mem' other
    rcases List.mem_append.mp mem' with mem' | mem'
    · have := left.bounds mem'
      exact ⟨mem', this.2, this.1⟩
    · exact absurd (congrArg Block.addr (List.mem_singleton.mp mem')) other
  refine ⟨fun c mem' live => ?_, by simp, fun a listed other => ?_, unmapped.tables, rfl, rfl, rfl⟩
  · have other : c.addr ≠ x := by
      intro same
      rw [h.blocks.eq_of_addr mem' member same] at live
      exact live rfl
    obtain ⟨stays, before, after⟩ := apart c mem' other
    refine ⟨List.mem_append_left _ stays, fun a h1 h2 => ?_⟩
    exact (sees.eq a (by omega) (by omega)).trans (agree a (by omega))
  · have hole := h.hole_of_indexed (a := a) listed
    have big := (h.blocks.tagged _ hole).big
    obtain ⟨-, before, after⟩ := apart _ hole other
    dsimp only at big before after
    exact (sees.word (by omega) (by omega)).trans (agree.word (by omega))

end Shrunk

/-- The hole that ends the heap is cut to the least size. -/
theorem wp_shrink {pre : List Block} {x s : Nat} (h : HeapInv K (pre ++ [⟨x, s, none⟩]) u)
    (room : x - K.heap.hAddrStart + 20 ≤ vmHeapMinSize)
    (long : vmHeapMinSize ≤ K.heap.hAddrEnd - K.heap.hAddrStart) (testHeader : Nat) :
    Program.wp (shrink x testHeader)
      (fun _ K' => K'.indexed = K.indexed ∧
        K'.heap.hAddrEnd = K.heap.hAddrStart + vmHeapMinSize ∧
        Reshaped K K' (pre ++ [⟨x, s, none⟩])
          (pre ++ [⟨x, K.heap.hAddrStart + vmHeapMinSize - x, none⟩]) x ∧
        HeapInv K' (pre ++ [⟨x, K.heap.hAddrStart + vmHeapMinSize - x, none⟩]) u ∧
        IsFooter K'.view (K.heap.hAddrStart + vmHeapMinSize - 8) x ∧
        ∀ a, K.heap.hAddrStart ≤ a → a < x → K'.view a = K.view a) E K := by
  have member : (⟨x, s, none⟩ : Block) ∈ pre ++ [⟨x, s, none⟩] := by simp
  have tagged := h.blocks.tagged _ member
  have bounds := h.blocks.bounds member
  obtain ⟨left, right⟩ := h.blocks.cut
  have ends : x + s = K.heap.hAddrEnd := right.tiles
  have top := h.top
  have low := h.low
  have minimum : vmHeapMinSize = 0x70000 := rfl
  dsimp only at bounds left
  obtain ⟨length, offset, cut, rest, footer⟩ := shrink_words bounds.1 ends top room long
  have agree : Mem.AgreeOff x (K.heap.hAddrStart + vmHeapMinSize) K.view _ :=
    agreeOff_footerAt x (f := K.heap.hAddrStart + vmHeapMinSize - 8)
      (Mem.AgreeOff.setWord (.refl _ _ K.view) (a := x + 8)
        (K.heap.hAddrStart + vmHeapMinSize - x) (by omega) (by omega)) (by omega) (by omega)
  have header := tagged.header.setSize (s := K.heap.hAddrStart + vmHeapMinSize - x) (by omega)
  have closed : x + (K.heap.hAddrStart + vmHeapMinSize - x) = K.heap.hAddrStart + vmHeapMinSize := by
    omega
  have block := tagged_footed header (by omega)
  rw [closed] at block
  have tiled := (left.of_agreeOff agree (.inl (Nat.le_refl _))).append (Blocks.cons block (.nil _ _))
  dsimp only at tiled
  rw [closed] at tiled
  rw [shrink, Program.wp_bind, Program.wp_get]
  dsimp only
  rw [length, offset]
  refine Program.wp_bind_of (wp_contract h (by omega) long) ?_
  rintro _ _ ⟨rfl, K₁, unmapped, rfl⟩
  have sees : Sees { K₁ with heap := { K.heap with
      hAddrEnd := K.heap.hAddrStart + vmHeapMinSize } } (K.heap.hAddrStart - 0x1000)
      (K.heap.hAddrStart + vmHeapMinSize) K.view :=
    (h.sees.mono (Nat.le_refl _) (by omega)).congr unmapped.mem unmapped.paging
      fun a _ h2 => unmapped.below a h2
  have size := tagged.header.size
  dsimp only at size
  rw [Program.wp_bind, wp_hhSize sees (by omega) (by omega) (by omega), size, cut, rest,
    Program.wp_ite]
  refine ⟨fun _ => ?_, fun none => (none (by omega)).elim⟩
  refine (Program.wp_bind _ _ _ _ _).mpr (wp_setHhSize sees (by omega) (by omega) (by omega)
    fun mem sees => ?_)
  rw [Program.wp_bind, wp_hhSize sees (by omega) (by omega) (by omega), header.size, footer]
  refine wp_setFooter sees (by omega) (by omega) (by omega) fun mem sees => ?_
  dsimp only at sees ⊢
  refine ⟨rfl, rfl, h.reshaped_of_shrunk room unmapped sees agree,
    h.shrunk long unmapped sees tiled, ?_, fun a h1 h2 => ?_⟩
  · have footer := isFooter_footerAt (m := K.view.setWord (x + 8)
      (K.heap.hAddrStart + vmHeapMinSize - x)) (f := K.heap.hAddrStart + vmHeapMinSize - 8)
      (by omega : x < 4294967296)
    exact ⟨(sees.word (by omega) (by omega)).trans footer.magic,
      (sees.word (by omega) (by omega)).trans footer.header⟩
  · exact (sees.eq a (by omega) (by omega)).trans (agree a (.inl h2))

end Shrink

/-! ## free -/

section Coalesce

variable {R : Resize} {K : KState} {pre post : List Block} {header s : Nat}

/-- The end of the block with a header at `header`. -/
def KState.blockEnd (K : KState) (header : Nat) : Nat := header + K.view.word (header + 8)

/-- The end of the hole that `free` leaves. -/
def KState.finalEnd (K : KState) (header : Nat) : Nat :=
  if K.rightEnd (K.blockEnd header) = K.heap.hAddrEnd then K.heap.hAddrStart + vmHeapMinSize
  else K.rightEnd (K.blockEnd header)

/-- When the block at `header`, marked as a hole, can be unified with its
neighbours, and the heap cut behind it. -/
structure FreeSound (R : Resize) (K : KState) (header : Nat) : Prop where
  left : ∀ l, K.leftHole header = some l → l ∈ K.indexed ∧ l + K.view.word (l + 8) = header
  contracts : K.rightEnd (K.blockEnd header) = K.heap.hAddrEnd →
    (K.leftHole header).getD header - K.heap.hAddrStart + 20 ≤ vmHeapMinSize ∧
      vmHeapMinSize ≤ K.heap.hAddrEnd - K.heap.hAddrStart
  resize : ∀ l, K.leftHole header = some l →
    R K.view (K.indexed.erase (K.blockEnd header)) l (K.finalEnd header - l)

/-- When the words that `free` looks at are mapped, and what stands behind the heap
is not the header of a hole. -/
structure FreeSafe (K : KState) (header : Nat) : Prop where
  left : K.view.word (header - 8) = vmHeapFtrMagic →
    ∃ v, K.peek32 (add32 (K.view.word (header - 4)) 4) = .ok v
  right : ∀ r K', unifyLeft header (K.blockEnd header - 8) K = .ok (r, K') →
    K.blockEnd header = K.heap.hAddrEnd → (∃ v, K'.peek32 K.heap.hAddrEnd = .ok v) ∧
      (K'.view.word K.heap.hAddrEnd = vmHeapHdrMagic →
        K'.peek32 (add32 K.heap.hAddrEnd 4) = .ok 0)

/-- The end of a hole up to `e`, over the next block when that is a hole. -/
def endOver (e : Nat) : List Block → Nat
  | ⟨_, sr, none⟩ :: _ => e + sr
  | _ => e

/-- The right neighbour is read off the blocks. -/
theorem rightEnd_of_cut {b : Block} {u : List Nat} (h : HeapInv K (pre ++ b :: post) u) :
    K.rightEnd (b.addr + b.size) = endOver (b.addr + b.size) post := by
  cases post with
  | nil =>
      have ends : b.addr + b.size = K.heap.hAddrEnd := h.blocks.cut.2.tiles
      exact if_neg fun both => by omega
  | cons c post =>
      have start : c.addr = b.addr + b.size := h.blocks.cut.2.tiles.1
      have tagged := h.blocks.tagged c (by simp)
      have bounds := h.blocks.bounds (b := c) (by simp)
      have big := tagged.big
      obtain ⟨addr, sr, live⟩ := c
      dsimp only at start bounds big
      subst start
      rw [KState.rightEnd, tagged.header.isHole, tagged.header.size]
      cases live with
      | none => rw [Block.flag_hole, if_pos ⟨by omega, Nat.one_ne_zero⟩, endOver]
      | some r =>
          rw [Block.flag_live, if_neg fun both => both.2 rfl]
          rfl

/-- The end of `free`: the hole is cut when it ends the heap. -/
theorem wp_cut {K₀ : KState} {x e : Nat} {u : List Nat} {E : Stop → Prop}
    (h : HeapInv K (pre ++ ⟨x, e - x, none⟩ :: post) u) (le : x ≤ e)
    (start : K.heap.hAddrStart = K₀.heap.hAddrStart) (end_ : K.heap.hAddrEnd = K₀.heap.hAddrEnd)
    (contracts : e = K₀.heap.hAddrEnd → x - K₀.heap.hAddrStart + 20 ≤ vmHeapMinSize ∧
      vmHeapMinSize ≤ K₀.heap.hAddrEnd - K₀.heap.hAddrStart) (testHeader : Nat)
    {f : Unit → KernelM Unit} {Q : Unit → KState → Prop}
    (rest : ∀ K' fin,
      fin = (if e = K₀.heap.hAddrEnd then K₀.heap.hAddrStart + vmHeapMinSize else e) →
      K'.indexed = K.indexed → K'.heap.hAddrEnd ≤ K₀.heap.hAddrEnd →
      Reshaped K K' (pre ++ ⟨x, e - x, none⟩ :: post) (pre ++ ⟨x, fin - x, none⟩ :: post) x →
      HeapInv K' (pre ++ ⟨x, fin - x, none⟩ :: post) u →
      (e ≠ K₀.heap.hAddrEnd → K' = K) →
      (e = K₀.heap.hAddrEnd → K'.heap.hAddrEnd = fin ∧ IsFooter K'.view (fin - 8) x ∧
        ∀ a, K₀.heap.hAddrStart ≤ a → a < x → K'.view a = K.view a) →
      Program.wp (f ()) Q E K') :
    Program.wp (if e = K.heap.hAddrEnd then do shrink x testHeader; f () else f ()) Q E K := by
  rw [Program.wp_ite, end_]
  refine ⟨fun last => ?_, fun inner => ?_⟩
  · obtain ⟨room, long⟩ := contracts last
    have right := h.blocks.cut.2
    dsimp only at right
    rw [Nat.add_sub_cancel' le] at right
    obtain rfl := right.eq_nil (by omega)
    refine Program.wp_bind_of (wp_shrink h (by rw [start]; exact room)
      (by rw [start, end_]; exact long) testHeader) ?_
    rintro ⟨⟩ K' ⟨same, ends, reshaped, inv, footer, below⟩
    rw [start] at ends reshaped inv footer below
    exact rest K' _ (if_pos last).symm same (by omega) reshaped inv (fun inner => absurd last inner)
      fun _ => ⟨ends, footer, below⟩
  · exact rest K e (if_neg inner).symm rfl (Nat.le_of_eq end_) (.refl _ _ _) h (fun _ => rfl)
      fun last => absurd last inner

/-- The hole goes into the index. -/
theorem wp_file {bs : List Block} {x : Nat} {E : Stop → Prop} (h : HeapInv K bs [x])
    (full : K.heap.hIndex.saMaxsize ≤ K.heap.hIndex.saSize → E (.panic (.assertion .hasRoom))) :
    Program.wp (insertIndex x)
      (fun _ K' => ∃ index, K' = K.setIndex index ∧
        index.saMaxsize = K.heap.hIndex.saMaxsize ∧
        K.heap.hIndex.saSize < K.heap.hIndex.saMaxsize ∧ HeapInv K' bs ∧
        (∀ a ∈ K'.indexed, a ≠ x → a ∈ K.indexed) ∧
        (Ordered K → Ordered K')) E K := by
  obtain ⟨s, member⟩ := mem_holes.mp (h.index.mem_iff.mp (by simp : x ∈ [x] ++ K.indexed))
  have bounds := h.blocks.bounds member
  have tagged := h.blocks.tagged _ member
  have big := tagged.big
  have top := h.top
  dsimp only at bounds big
  refine wp_insertIndex h.sees (by omega) h.indexIn h.cmp (by omega) (by omega)
    full fun left index k le list below stop same room => ?_
  refine ⟨index, rfl, room, left, ?_, fun a listed other => ?_, fun sorted => ?_⟩
  · have sees : Sees { K with mem := K.mem } _ _ K.view := h.sees
    refine h.update (u := []) sees h.blocks ?_ same
    rw [List.nil_append, list]
    exact (List.perm_insertIdx _ _ le).trans h.index
  · have mem' : a ∈ K.indexed.insertIdx k x := list ▸ listed
    exact (List.eq_or_mem_of_mem_insertIdx mem').resolve_left other
  · have sorted' : SortedBySize K.view index.toList := by
      rw [list]
      refine SortedBySize.insertIdx sorted h.small ?_ le below stop
      have size := tagged.header.size
      have short := h.length_le
      dsimp only at size
      omega
    exact sorted'

/-- The header of the hole that takes in the block at `header`. -/
def KState.mergedAt (K : KState) (header : Nat) : Nat := (K.leftHole header).getD header

/-- The blocks after `free`, with `pre'` in front of the hole that is left. -/
def KState.coalesced (K : KState) (header : Nat) (pre' post : List Block) : List Block :=
  pre' ++ ⟨K.mergedAt header, K.finalEnd header - K.mergedAt header, none⟩ :: overHole post

/-- What `free` writes: inside the heap nothing off the block and the hole on its left,
at the end of the heap a footer.  A hole that is new to the index found room there. -/
structure Written (K K' : KState) (header s : Nat) : Prop where
  inner : K.rightEnd (header + s) ≠ K.heap.hAddrEnd →
    KeepsOutside K K' (K.mergedAt header) (header + s)
  last : K.rightEnd (header + s) = K.heap.hAddrEnd → K'.heap.hAddrEnd = K.finalEnd header ∧
    IsFooter K'.view (K.finalEnd header - 8) (K.mergedAt header) ∧
    ∀ a, K.heap.hAddrStart ≤ a → a < K.mergedAt header → K'.view a = K.view a
  footer : K.rightEnd (header + s) ≠ K.heap.hAddrEnd →
    IsFooter K.view (header + s - 8) header → IsFooter K'.view (header + s - 8) (K.mergedAt header)
  filed : K.leftHole header = none →
    (K.indexed.erase (header + s)).length < K.heap.hIndex.saMaxsize

/-- What `free` stops for: the hole has to be filed, and the index is full. -/
def Crowded (K : KState) (header s : Nat) (e : Stop) : Prop :=
  e = .panic (.assertion .hasRoom) ∧ K.leftHole header = none ∧
    K.heap.hIndex.saMaxsize ≤ (K.indexed.erase (header + s)).length

/-- What is left after the block at `header` is unified with its neighbours, before the
end of the heap is looked at. -/
structure UnifiedWith (K K' : KState) (pre pre' post : List Block) (header s : Nat) : Prop where
  front : InFront (K.leftHole header) header pre pre'
  indexed : K'.indexed = K.indexed.erase (header + s)
  end_ : K'.heap.hAddrEnd = K.heap.hAddrEnd
  reshaped : Reshaped K K' (pre ++ ⟨header, s, none⟩ :: post)
    (pre' ++ ⟨K.mergedAt header, K.rightEnd (header + s) - K.mergedAt header, none⟩ ::
      overHole post) (K.mergedAt header)
  inv : HeapInv K' (pre' ++ ⟨K.mergedAt header, K.rightEnd (header + s) - K.mergedAt header, none⟩ ::
    overHole post) (if (K.leftHole header).isNone then [header] else [])
  keeps : KeepsOutside K K' (K.mergedAt header) (header + s)
  footer : IsFooter K.view (header + s - 8) header →
    IsFooter K'.view (header + s - 8) (K.mergedAt header)

/-- The end of `free`: the hole is cut when it ends the heap, and filed. -/
def finishFree (x e testHeader : Nat) (doAdd : Bool) : KernelM Unit := do
  let K ← get
  if e = K.heap.hAddrEnd then shrink x testHeader
  if doAdd then insertIndex x

/-- The two unifications. -/
theorem wp_unify (h : HeapInv K (pre ++ ⟨header, s, none⟩ :: post) [header])
    (sound : ∀ l, K.leftHole header = some l → l ∈ K.indexed ∧ l + K.view.word (l + 8) = header)
    {Q : Unit → KState → Prop} {E : Stop → Prop} (stops : ¬FreeSafe K header → ∀ e, E e)
    (rest : ∀ K' pre', UnifiedWith K K' pre pre' post header s →
      Program.wp (finishFree (K.mergedAt header) (K.rightEnd (header + s)) (header + s)
        (K.leftHole header).isNone) Q E K') :
    Program.wp (coalesce header (header + s - 8)) Q E K := by
  have member : (⟨header, s, none⟩ : Block) ∈ pre ++ ⟨header, s, none⟩ :: post := by simp
  have size := (h.blocks.tagged _ member).header.size
  have big₀ := (h.blocks.tagged _ member).big
  have low := h.low
  have top := h.top
  have bounds := h.blocks.bounds member
  dsimp only at size bounds big₀
  have blockEnd : K.blockEnd header = header + s := by rw [KState.blockEnd, size]
  have right := rightEnd_of_cut h
  dsimp only at right
  have behind : add32 (header + s - 8) sizeofFooter = header + s := by
    unfold add32 sizeofFooter
    omega
  rw [coalesce, behind]
  refine Program.wp_bind_of (Program.wp_mono (Program.wp_ran (wp_unifyLeft h sound fun safe =>
    safe.left)) (fun _ _ h => h) fun e unsafe_ => stops unsafe_ e) ?_
  rintro ⟨x, doAdd⟩ K₂ ⟨ran, pre', result, same, end₂, reshaped, inv, front, keeps₂, footer₂⟩
  dsimp only at reshaped inv keeps₂ footer₂ ⊢
  obtain ⟨rfl, rfl⟩ := Prod.mk.inj result
  have first : (⟨K.mergedAt header, header + s - K.mergedAt header, none⟩ : Block) ∈
      pre' ++ ⟨K.mergedAt header, header + s - K.mergedAt header, none⟩ :: post := by simp
  have big := (inv.blocks.tagged _ first).big
  have bounds₂ := inv.blocks.bounds first
  dsimp only at big bounds₂
  have ends : K.mergedAt header + (header + s - K.mergedAt header) = header + s := by omega
  have own : ∀ a ∈ (if (K.leftHole header).isNone = true then [header] else []),
      a = K.mergedAt header := by
    rw [KState.mergedAt]
    cases K.leftHole header with
    | none => simp
    | some l => simp
  have readable : FreeSafe K header → K.mergedAt header + (header + s - K.mergedAt header) =
      K₂.heap.hAddrEnd →
      (∃ v, K₂.peek32 (K.mergedAt header + (header + s - K.mergedAt header)) = .ok v) ∧
        (K₂.view.word (K.mergedAt header + (header + s - K.mergedAt header)) = vmHeapHdrMagic →
          K₂.peek32 (add32 (K.mergedAt header + (header + s - K.mergedAt header)) 4) = .ok 0) := by
    intro safe last
    rw [last, end₂]
    exact safe.right _ K₂ (by rw [blockEnd]; exact ran) (by rw [blockEnd, ← end₂, ← last, ends])
  have right₂ := rightEnd_of_cut inv
  dsimp only at right₂
  rw [← KState.mergedAt, ends, ← right] at right₂
  have unify := wp_unifyRight inv own readable
  rw [← KState.mergedAt, ends, right₂, end₂, same] at unify
  refine Program.wp_bind_of (Program.wp_mono unify (fun _ _ h => h)
    fun e unsafe_ => stops unsafe_ e) ?_
  rintro f K₃ ⟨rfl, erased, end₃, reshaped₃, inv₃, keeps₃⟩
  have last : (⟨K.mergedAt header, K.rightEnd (header + s) - K.mergedAt header, none⟩ : Block) ∈
      pre' ++ ⟨K.mergedAt header, K.rightEnd (header + s) - K.mergedAt header, none⟩ ::
        overHole post := by simp
  have big₃ := (inv₃.blocks.tagged _ last).big
  have bounds₃ := inv₃.blocks.bounds last
  have top₃ := inv₃.top
  dsimp only at big₃ bounds₃
  have footer : add32 (K.rightEnd (header + s) - 8) sizeofFooter = K.rightEnd (header + s) := by
    unfold add32 sizeofFooter
    omega
  have both : UnifiedWith K K₃ pre pre' post header s := by
    refine ⟨front, erased, end₃, reshaped.trans reshaped₃ fun a listed _ => ?_, inv₃,
      keeps₂.trans (keeps₃.mono (Nat.le_refl _) (by omega)) reshaped.start end₂, fun footer => ?_⟩
    · rw [erased] at listed
      rw [same]
      exact List.mem_of_mem_erase listed
    · exact keeps₃.footer (by omega) (by omega) (by omega) (footer₂ footer)
  have finished := rest K₃ pre' both
  rwa [finishFree, ← footer] at finished

/-- A hole on the left keeps its cell of the index, in order. -/
theorem ordered_of_merged {K₁ : KState} {bs bs' : List Block} {l : Nat} (h : HeapInv K bs [header])
    (sound : FreeSound R K header) (left : K.leftHole header = some l)
    (all : Reshaped K K₁ bs bs' (K.mergedAt header))
    (listed : K₁.indexed = K.indexed.erase (K.blockEnd header))
    (here : K₁.view.word (K.mergedAt header + 8) = K.finalEnd header - K.mergedAt header)
    (orders : R.Orders) (ordered : Ordered K) : Ordered K₁ := by
  have merged : K.mergedAt header = l := by rw [KState.mergedAt, left]; rfl
  have rank := orders _ _ _ _ (List.Pairwise.sublist List.erase_sublist ordered)
    (h.nodup.erase _) (sound.resize l left)
  rw [← listed, ← merged] at rank
  exact rank.sorted here all.sizes

/-- A hole that is new is filed in order. -/
theorem wp_file_reshaped {K₁ : KState} {bs bs' : List Block} {x e : Nat}
    (h : HeapInv K₁ bs' [x]) (all : Reshaped K K₁ bs bs' x)
    (listed : K₁.indexed = K.indexed.erase e) :
    Program.wp (insertIndex x)
      (fun _ K' => ∃ index, K' = K₁.setIndex index ∧ HeapInv K' bs' ∧ Reshaped K K' bs bs' x ∧
        (Ordered K → Ordered K') ∧ (K.indexed.erase e).length < K.heap.hIndex.saMaxsize)
      (fun stop => stop = .panic (.assertion .hasRoom) ∧
        K.heap.hIndex.saMaxsize ≤ (K.indexed.erase e).length) K₁ := by
  have unlisted : x ∉ K₁.indexed :=
    (List.nodup_cons.mp (h.index.nodup_iff.mpr
      (h.blocks.holes_pairwise.imp fun less => Nat.ne_of_lt less))).1
  rw [← listed, length_indexed, ← all.room]
  refine Program.wp_mono (wp_file h fun full => ⟨rfl, full⟩) ?_ fun _ e => e
  rintro _ _ ⟨index, rfl, room, space, inv, old, sorted⟩
  refine ⟨index, rfl, inv, all.trans ⟨fun c mem _ => ⟨mem, fun _ _ _ => rfl⟩, .refl _,
    fun _ _ _ => rfl, fun _ => rfl, rfl, rfl, room⟩ old, fun ordered => sorted ?_, space⟩
  refine SortedBySize.congr (m := K.view) ?_ fun a mem => all.sizes a mem ?_
  · rw [listed]
    exact List.Pairwise.sublist List.erase_sublist ordered
  · intro same
    exact unlisted (same ▸ mem)

/-- `free` after the block is marked. -/
theorem wp_coalesce (h : HeapInv K (pre ++ ⟨header, s, none⟩ :: post) [header])
    (sound : FreeSound R K header) :
    Program.wp (coalesce header (header + s - 8))
      (fun _ K' => ∃ pre', InFront (K.leftHole header) header pre pre' ∧
        HeapInv K' (K.coalesced header pre' post) ∧
        Reshaped K K' (pre ++ ⟨header, s, none⟩ :: post) (K.coalesced header pre' post)
          (K.mergedAt header) ∧
        (R.Orders → Ordered K → Ordered K') ∧ Written K K' header s)
      (fun e => FreeSafe K header → Crowded K header s e) K := by
  have member : (⟨header, s, none⟩ : Block) ∈ pre ++ ⟨header, s, none⟩ :: post := by simp
  have size := (h.blocks.tagged _ member).header.size
  have top := h.top
  have bounds := h.blocks.bounds member
  dsimp only at size bounds
  have blockEnd : K.blockEnd header = header + s := by rw [KState.blockEnd, size]
  refine wp_unify h sound.left (fun unsafe_ _ safe => absurd safe unsafe_) fun K₃ pre' unified => ?_
  obtain ⟨front, erased, end₃, reshaped₃, inv₃, keeps₃, footer₃⟩ := unified
  have big₃ := (inv₃.blocks.tagged
    ⟨K.mergedAt header, K.rightEnd (header + s) - K.mergedAt header, none⟩ (by simp)).big
  dsimp only at big₃
  have contracts := sound.contracts
  rw [blockEnd] at contracts
  rw [finishFree, Program.wp_bind, Program.wp_get]
  refine wp_cut (f := fun _ => if (K.leftHole header).isNone = true then
      insertIndex (K.mergedAt header) else pure ()) inv₃ (by omega) reshaped₃.start end₃ contracts _
    fun K₄ fin at_fin same₄ end₄ reshaped₄ inv₄ uncut cut => ?_
  have all := reshaped₃.trans reshaped₄ fun a listed _ => by rw [same₄] at listed; exact listed
  have listed₄ : K₄.indexed = K.indexed.erase (header + s) := same₄.trans erased
  have final : K.finalEnd header = fin := by rw [KState.finalEnd, blockEnd, at_fin]
  rw [← final] at all inv₄ cut
  have inside : K.rightEnd (header + s) ≠ K.heap.hAddrEnd →
      KeepsOutside K K₄ (K.mergedAt header) (header + s) := by
    intro inner
    rw [uncut inner]
    exact keeps₃
  have footers : K.rightEnd (header + s) ≠ K.heap.hAddrEnd →
      IsFooter K.view (header + s - 8) header →
      IsFooter K₄.view (header + s - 8) (K.mergedAt header) := by
    intro inner
    rw [uncut inner]
    exact footer₃
  have atEnd : K.rightEnd (header + s) = K.heap.hAddrEnd → K₄.heap.hAddrEnd = K.finalEnd header ∧
      IsFooter K₄.view (K.finalEnd header - 8) (K.mergedAt header) ∧
      ∀ a, K.heap.hAddrStart ≤ a → a < K.mergedAt header → K₄.view a = K.view a := by
    intro last
    obtain ⟨stop, footer, below⟩ := cut last
    exact ⟨stop, footer, fun a h1 h2 => (below a h1 h2).trans (keeps₃ a h1 (by omega) (.inl h2))⟩
  have here := (inv₄.blocks.tagged ⟨K.mergedAt header, K.finalEnd header - K.mergedAt header, none⟩
    (by simp)).header.size
  dsimp only at here
  cases left : K.leftHole header with
  | some l =>
      rw [left] at inv₄ front
      rw [← blockEnd] at listed₄
      exact ⟨pre', front, inv₄, all, ordered_of_merged h sound left all listed₄ here, inside, atEnd,
        footers, fun none => by rw [left] at none; cases none⟩
  | none =>
      rw [left] at inv₄ front
      have merged : K.mergedAt header = header := by rw [KState.mergedAt, left]; rfl
      have inv₄ : HeapInv K₄ (K.coalesced header pre' post) [K.mergedAt header] := by
        rw [merged]
        exact inv₄
      refine Program.wp_mono (wp_file_reshaped inv₄ all listed₄) ?_
        fun _ ⟨stop, full⟩ _ => ⟨stop, left, full⟩
      rintro _ _ ⟨index, rfl, inv₅, all₅, sorted, space⟩
      exact ⟨pre', front, inv₅, all₅, fun _ => sorted, inside, atEnd, footers, fun _ => space⟩

end Coalesce

/-- The state after the block at `header` is marked as a hole. -/
def KState.marked (K : KState) (header : Nat) : KState := K.put32 (header + 4) 1

/-- What `free` does with the block of the pointer `p`. -/
structure Freed (R : Resize) (K K' : KState) (bs bs' : List Block) (p r : Nat) : Prop where
  inv : HeapInv K' bs'
  kept : ∀ c ∈ bs, c.live ≠ none → c.addr + 12 ≠ p → Kept K K' bs' c
  live : (liveRanges bs).Perm ((p, r) :: liveRanges bs')
  tables : ∀ t, K'.dir.tableAt t = K.dir.tableAt t
  start : K'.heap.hAddrStart = K.heap.hAddrStart
  max : K'.heap.hAddrMax = K.heap.hAddrMax
  ordered : R.Orders → Ordered K → Ordered K'

section Free

variable {R : Resize} {K : KState} {pre post : List Block} {header s r : Nat}

/-- Marking the block as a hole. -/
theorem marked_inv (h : HeapInv K (pre ++ ⟨header, s, some r⟩ :: post)) :
    HeapInv (K.marked header) (pre ++ ⟨header, s, none⟩ :: post) [header] ∧
      (∀ c ∈ pre ++ ⟨header, s, some r⟩ :: post, c.addr ≠ header →
        Kept K (K.marked header) (pre ++ ⟨header, s, none⟩ :: post) c) ∧
      (Ordered K → Ordered (K.marked header)) := by
  have member : (⟨header, s, some r⟩ : Block) ∈ pre ++ ⟨header, s, some r⟩ :: post := by simp
  have tagged := h.blocks.tagged _ member
  have bounds := h.blocks.bounds member
  have big := tagged.big
  have low := h.low
  dsimp only at bounds big
  have marks : K.marked header = { K with mem := (K.marked header).mem } := K.put32_eq _ _
  have sees : Sees { K with mem := (K.marked header).mem } (K.heap.hAddrStart - 0x1000)
      K.heap.hAddrEnd (K.view.setWord (header + 4) 1) := by
    rw [← marks]
    exact h.sees.put32 (by omega) (by omega) 1
  have agree : Mem.AgreeOff header (header + s) K.view (K.view.setWord (header + 4) 1) :=
    Mem.AgreeOff.setWord (.refl _ _ _) _ (by omega) (by omega)
  have block : Block.Tagged (K.view.setWord (header + 4) 1) ⟨header, s, none⟩ :=
    Block.tagged_hole ⟨(Mem.word_setWord_of_disjoint (by omega)).trans tagged.header.magic,
      Mem.word_setWord (by decide), (Mem.word_setWord_of_disjoint (by omega)).trans
        tagged.header.size⟩ big
  have perm : ([header] ++ K.heap.hIndex.toList).Perm
      (holes (pre ++ ([⟨header, s, none⟩] ++ post))) := by
    have old := h.index
    simp only [List.nil_append, holes_append, holes_live] at old
    simp only [List.singleton_append, holes_append, holes_hole]
    exact (old.cons header).trans List.perm_middle.symm
  have tiled := Blocks.cons block (.nil _ _)
  obtain ⟨inv, kept⟩ := h.replace sees agree tiled perm rfl
  rw [marks]
  refine ⟨inv, fun c mem other => kept c mem ?_, fun ordered => ordered.congr ⟨rfl, fun a listed => ?_⟩⟩
  · rintro rfl
    exact other rfl
  · have bounds := h.indexIn a listed
    refine (sees.word (by omega) (by omega)).trans (h.size_of_agreeOff member agree listed ?_)
    rintro rfl
    cases congrArg Block.live (h.blocks.eq_of_addr (h.hole_of_indexed listed) member rfl)

/-- `free` on a live block marks it and unifies it with its neighbours. -/
theorem wp_free_marked {bs : List Block} (h : HeapInv K bs)
    (member : (⟨header, s, some r⟩ : Block) ∈ bs) {Q : Unit → KState → Prop} {E : Stop → Prop}
    (rest : Program.wp (coalesce header (header + s - 8)) Q E (K.marked header)) :
    Program.wp (free (header + 12)) Q E K := by
  have tagged := h.blocks.tagged _ member
  have bounds := h.blocks.bounds member
  have big := tagged.big
  have size := tagged.header.size
  have magic := tagged.header.magic
  have magic' := (tagged.footer r rfl).magic
  have low := h.low
  have top := h.top
  dsimp only at bounds big size magic magic'
  have head : sub32 (header + 12) sizeofHeader = header := by
    unfold sub32 sizeofHeader
    omega
  have footer : sub32 (add32 header s) sizeofFooter = header + s - 8 := by
    unfold sub32 add32 sizeofFooter
    omega
  have mark : setHhIsHole header 1 K = .ok ((), K.marked header) := by
    rw [setHhIsHole, add32_eq (by omega)]
    exact write32_eq h.mapped.backed (by omega) (by omega) 1
  rw [free, Program.wp_bind, Program.wp_get, if_neg (by rw [h.ready]; simp)]
  dsimp only
  rw [head, Program.wp_bind, wp_hhSize h.sees (by omega) (by omega) (by omega), size, footer,
    Program.wp_bind, wp_hhMagic h.sees (by omega) (by omega), magic, Program.wp_bind, wp_kassert]
  refine ⟨fun _ => ?_, fun fails => (fails rfl).elim⟩
  rw [Program.wp_bind, wp_hfMagic h.sees (by omega) (by omega), magic', Program.wp_bind, wp_kassert]
  refine ⟨fun _ => ?_, fun fails => (fails rfl).elim⟩
  rw [Program.wp_bind, Program.wp_of_ok mark]
  exact rest

/-- `free` on a live block. -/
theorem wp_free {bs : List Block} (h : HeapInv K bs) (member : (⟨header, s, some r⟩ : Block) ∈ bs)
    (sound : FreeSound R (K.marked header) header) :
    Program.wp (free (header + 12))
      (fun _ K' => ∃ bs', Freed R K K' bs bs' (header + 12) r)
      (fun e => FreeSafe (K.marked header) header → Exhausted e) K := by
  refine wp_free_marked h member ?_
  obtain ⟨pre, post, rfl⟩ := List.append_of_mem member
  obtain ⟨inv, kept, ordered⟩ := marked_inv h
  refine Program.wp_mono (wp_coalesce inv sound) ?_ fun e stop safe => .inr (.inl (stop safe).1)
  rintro _ K' ⟨pre', -, inv', reshaped, ordered', -⟩
  have marks : K.marked header = { K with mem := (K.marked header).mem } := K.put32_eq _ _
  refine ⟨_, inv', fun c mem live other => ?_, ?_, fun t => (reshaped.tables t).trans ?_,
    reshaped.start.trans ?_, reshaped.max.trans ?_,
    fun orders old => ordered' orders (ordered old)⟩
  · have first := kept c mem (by omega)
    exact first.trans (reshaped.kept c first.mem live)
  · have live := (reshaped.live.cons (header + 12, r)).symm
    simp only [liveRanges_append, liveRanges_hole, liveRanges_live] at live ⊢
    exact List.perm_middle.trans live
  · rw [marks]
  · rw [marks]
  · rw [marks]

end Free

end MiniKernel.Kernel
