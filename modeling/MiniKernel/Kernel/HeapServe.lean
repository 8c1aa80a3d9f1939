/-
# Kernel.HeapServe -- an allocation that a hole serves

When `find_smallest_hole` finds a hole, `alloc` does not call itself, so one rule
covers it at any depth of the recursion.  This is the whole of what `get_page`
may ask of the heap for a page table (`wp_kmalloc0Ap`): a nested `alloc` that has
to grow the heap under an outer `expand` leaves the outer one with an end address
that is out of date.
-/
import MiniKernel.Kernel.HeapPages

namespace MiniKernel.Kernel

open Theory

set_option autoImplicit false

/-- The hole `find_smallest_hole` picks for a block of `size` bytes. -/
def KState.fit (K : KState) (size : Nat) (pageAlign : Bool) : Option Nat :=
  K.indexed.find? fun h =>
    holeFits (add32 (add32 size sizeofHeader) sizeofFooter) pageAlign h (K.view.word (h + 8))

/-- A hole is there for the block, and the block can be taken out of it. -/
def Served (R : Resize) (K : KState) (size : Nat) (pageAlign : Bool) : Prop :=
  ∃ hole, K.fit size pageAlign = some hole ∧
    PlaceSound size pageAlign hole (K.view.word (hole + 8)) ∧
    (pageAlign = true → R K.view K.indexed hole (paddingSize hole))

/-- What `alloc` stops for when it is used as it should be. -/
def Exhausted (e : Stop) : Prop :=
  e = .panic (.assertion .dontOverflow) ∨ e = .panic (.assertion .hasRoom) ∨
    e = .panic .noFreeFrame ∨ e = .fuel

/-- The pages and the limits of the heap are what they were. -/
structure SamePages (K K' : KState) : Prop where
  dir : K'.dir = K.dir
  bits : K'.bits = K.bits
  paging : K'.paging = K.paging
  start : K'.heap.hAddrStart = K.heap.hAddrStart
  end_ : K'.heap.hAddrEnd = K.heap.hAddrEnd
  max : K'.heap.hAddrMax = K.heap.hAddrMax

theorem SamePages.mapped {K K' : KState} {hi : Nat} (same : SamePages K K') (h : Mapped K hi) :
    Mapped K' hi where
  backed := by
    rw [same.start]
    exact h.backed.congr same.paging fun _ _ _ => by rw [same.dir]
  zero a v := by
    rw [same.start, same.dir, same.bits]
    exact h.zero a v

section Rules

variable {R : Resize} {K : KState} {bs : List Block}

theorem wp_place (h : HeapInv K bs) {i hole size : Nat} {pageAlign : Bool}
    (at_i : K.indexed[i]? = some hole)
    (sound : PlaceSound size pageAlign hole (K.view.word (hole + 8)))
    (resize : pageAlign = true → R K.view K.indexed hole (paddingSize hole)) :
    Program.wp (place i size (size + 20) pageAlign)
      (fun p K' => ∃ bs', Placed K K' bs bs' p size pageAlign ∧ SamePages K K' ∧
        (R.Orders → Ordered K → Ordered K') ∧ (pageAlign = false → p = hole + 12) ∧
        (pageAlign = true → PaddedFrom K K' hole size)) Exhausted K := by
  cases pageAlign with
  | false =>
      refine wp_place_plain h at_i sound.fits (fun _ => .inr (.inl rfl))
        fun mem index bs' placed _ sorted => ?_
      exact ⟨bs', placed, ⟨rfl, rfl, rfl, rfl, rfl, rfl⟩,
        fun _ ordered => sorted ordered h.small, fun _ => rfl, nofun⟩
  | true =>
      refine wp_place_aligned h at_i sound (fun _ _ => .inr (.inl rfl))
        fun mem index bs' placed sorted _ padded _ => ?_
      exact ⟨bs', placed, ⟨rfl, rfl, rfl, rfl, rfl, rfl⟩,
        fun orders ordered => sorted (orders _ _ _ _ ordered h.nodup (resize rfl)) h.small,
        nofun, fun _ => padded⟩

theorem firstFit_of_fit {size : Nat} {pageAlign : Bool} {hole : Nat}
    (fit : K.fit size pageAlign = some hole) :
    ∃ i, firstFit K.view (add32 (add32 size sizeofHeader) sizeofFooter) pageAlign K.indexed = some i ∧
      K.indexed[i]? = some hole := by
  rw [KState.fit, List.find?_eq_bind_findIdx?_getElem?] at fit
  obtain ⟨i, found, at_i⟩ := Option.bind_eq_some_iff.mp fit
  exact ⟨i, found, at_i⟩

theorem firstFit_of_not_fit {size : Nat} {pageAlign : Bool} (fit : K.fit size pageAlign = none) :
    firstFit K.view (add32 (add32 size sizeofHeader) sizeofFooter) pageAlign K.indexed = none := by
  rw [KState.fit, List.find?_eq_none] at fit
  rw [firstFit, List.findIdx?_eq_none_iff]
  intro a listed
  simpa using fit a listed

/-- `alloc` takes the hole that fits. -/
theorem wp_alloc_served (h : HeapInv K bs) (n : Nat) {size : Nat} {pageAlign : Bool}
    (served : Served R K size pageAlign) :
    Program.wp (alloc (n + 1) size pageAlign)
      (fun p K' => ∃ bs', Placed K K' bs bs' p size pageAlign ∧ SamePages K K' ∧
        (R.Orders → Ordered K → Ordered K') ∧
        (pageAlign = false → K.fit size pageAlign = some (p - 12)) ∧
        (pageAlign = true → ∃ hole, K.fit size true = some hole ∧ PaddedFrom K K' hole size))
      Exhausted K := by
  obtain ⟨hole, fit, sound, resize⟩ := served
  obtain ⟨i, found, at_i⟩ := firstFit_of_fit fit
  have small := Mem.word_lt K.view (hole + 8)
  have fits := sound.fits
  have need : add32 (add32 size sizeofHeader) sizeofFooter = size + 20 := by
    unfold add32 sizeofHeader sizeofFooter
    omega
  have top := h.top
  rw [alloc, Program.wp_bind, wp_findSmallestHole h.sees (by omega) h.indexIn, found]
  dsimp only
  rw [need]
  refine Program.wp_mono (wp_place h at_i sound resize) ?_ fun _ h => h
  rintro p K' ⟨bs', placed, same, ordered, plain, padded⟩
  refine ⟨bs', placed, same, ordered, fun unaligned => ?_, fun aligned => ⟨hole, ?_, padded aligned⟩⟩
  · rw [fit, plain unaligned, Nat.add_sub_cancel]
  · rw [← fit, aligned]

/-- `get_page` on an address that is mapped. -/
theorem lookupPage_eq {a : Nat} {v : VmPage} (entry : K.dir.page (pagePtr a) = some v) :
    lookupPage a K = .ok (some (pagePtr a), K) := by
  have table : (K.dir.pdTables (a / 0x1000 / 1024)).isSome = true := by
    rw [VmPageDirectory.page, Option.map_eq_some_iff] at entry
    obtain ⟨t, at_t, -⟩ := entry
    exact Option.isSome_iff_exists.mpr ⟨t, at_t⟩
  have run : lookupPage a K = (if (K.dir.pdTables (a / 0x1000 / 1024)).isSome then
      (pure (some (pagePtr a)) : KernelM (Option PagePtr)) else pure none) K := rfl
  rw [run, if_pos table]
  rfl

theorem PaddedFrom.congr {K₁ K' : KState} {hole size : Nat} (h : PaddedFrom K K₁ hole size)
    (listed : hole ∈ K.indexed) (same : SameIndex K₁ K') : PaddedFrom K K' hole size := by
  have old : ∀ a ∈ K.indexed, a ∈ K₁.indexed := by
    intro a mem
    obtain ⟨-, list⟩ | ⟨k, rest, le, list, -⟩ := h.rest
    · rwa [list]
    · rw [list]
      exact (List.mem_insertIdx le).mpr (.inr mem)
  refine ⟨(same.sizes _ (old _ listed)).trans h.padding,
    fun a mem other => (same.sizes _ (old a mem)).trans (h.others a mem other), ?_⟩
  obtain ⟨whole, list⟩ | ⟨k, rest, le, list, at_rest, size⟩ := h.rest
  · exact .inl ⟨whole, same.list.trans list⟩
  · refine .inr ⟨k, rest, le, same.list.trans list, at_rest, (same.sizes _ ?_).trans size⟩
    rw [list]
    exact (List.mem_insertIdx le).mpr (.inl rfl)

/-- `kmalloc0_ap` when a hole serves it: a zeroed page. -/
theorem wp_kmalloc0Ap (h : HeapInv K bs) (n : Nat) (served : Served R K 0x1000 true) :
    Program.wp (kmalloc0ApWith (alloc n) 0x1000)
      (fun r K' => ∃ bs', Placed K K' bs bs' r.1 0x1000 true ∧ SamePages K K' ∧
        (R.Orders → Ordered K → Ordered K') ∧
        ∃ hole, K.fit 0x1000 true = some hole ∧ PaddedFrom K K' hole 0x1000) Exhausted K := by
  have call : Program.wp (alloc n 0x1000 true)
      (fun p K' => ∃ bs', Placed K K' bs bs' p 0x1000 true ∧ SamePages K K' ∧
        (R.Orders → Ordered K → Ordered K') ∧
        ∃ hole, K.fit 0x1000 true = some hole ∧ PaddedFrom K K' hole 0x1000) Exhausted K := by
    cases n with
    | zero => exact .inr (.inr (.inr rfl))
    | succ n =>
        refine Program.wp_mono (wp_alloc_served h n served) ?_ fun _ h => h
        rintro p K' ⟨bs', placed, same, ordered, -, padded⟩
        exact ⟨bs', placed, same, ordered, padded rfl⟩
  rw [kmalloc0ApWith, kmallocWith, Program.wp_bind, Program.wp_get]
  dsimp only
  rw [if_neg (by rw [h.ready]; decide)]
  refine Program.wp_bind_of call ?_
  rintro p K₁ ⟨bs', placed, same, ordered, hole, fit, padded⟩
  have inv := placed.inv
  have top := inv.top
  obtain ⟨a, s, rfl, member⟩ := mem_liveRanges.mp (placed.live.mem_iff.mpr List.mem_cons_self)
  have tagged := inv.blocks.tagged _ member
  have bounds := inv.blocks.bounds member
  have fits := tagged.fits _ rfl
  dsimp only at bounds fits
  obtain ⟨v, entry, -⟩ := inv.mapped.backed.present (a + 12) (by omega) (by omega)
  rw [if_pos rfl, Program.wp_bind, Program.wp_of_ok (lookupPage_eq entry), Program.wp_bind,
    Program.wp_get]
  simp only [Option.bind_some, entry, if_true]
  rw [Program.wp_bind, Program.wp_pure]
  refine (Program.wp_bind _ _ _ _ _).mpr (wp_bzero inv.sees (by omega) (by omega)
    fun mem sees => ?_)
  have agree : Mem.AgreeOff (a + 12) (a + 12 + 0x1000) K₁.view (K₁.view.zeroBytes (a + 12) 0x1000) :=
    Mem.AgreeOff.zeroBytes (.refl _ _ _) (Nat.le_refl _) (Nat.le_refl _)
  obtain ⟨inv', kept, index⟩ := inv.write member sees agree (Nat.le_refl _) (by dsimp only; omega)
  refine ⟨bs', ⟨inv', fun b mem live => ?_, placed.live, placed.aligned⟩,
    ⟨same.dir, same.bits, same.paging, same.start, same.end_, same.max⟩,
    fun orders old => (ordered orders old).congr index, hole, fit,
    padded.congr (List.mem_of_find?_eq_some fit) index⟩
  refine (placed.kept b mem live).trans (kept b (placed.kept b mem live).mem ?_)
  rintro rfl
  have twice : (a + 12, 0x1000) ∈ liveRanges bs := mem_liveRanges.mpr ⟨a, s, rfl, mem⟩
  have nodup : (liveRanges bs').Nodup :=
    inv.blocks.liveRanges_pairwise.imp fun less same => by
      rw [same] at less
      exact Nat.lt_irrefl _ less.2
  exact (List.nodup_cons.mp (placed.live.nodup_iff.mp nodup)).1 twice

end Rules

end MiniKernel.Kernel
