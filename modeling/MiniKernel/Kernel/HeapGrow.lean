/-
# Kernel.HeapGrow -- growing the heap, and `alloc`

The loop of `expand` keeps the heap as it is up to the old end while the pages
behind it are mapped one by one; a page table that is missing becomes a block of
the heap on the way.  Then the new bytes go to the hole with the highest
address, which is right when that hole ends the heap, or when there is no hole.

`AllocSound` says for a whole call of `alloc`, with its retries, that each
growth and each placement is of this kind.
-/
import MiniKernel.Kernel.HeapServe

namespace MiniKernel.Kernel

open Theory VmPageDirectory

set_option autoImplicit false

/-- What a part of `alloc` may do to the heap before it returns a block: only
page tables are taken. -/
structure Grown (R : Resize) (K K' : KState) (bs bs' : List Block) : Prop where
  inv : HeapInv K' bs'
  kept : ∀ b ∈ bs, b.live ≠ none → Kept K K' bs' b
  live : (liveRanges bs').Perm
    ((tablesSince K.dir K'.dir).map (fun a => (a, 0x1000)) ++ liveRanges bs)
  extends_ : Extends K.dir K'.dir
  start : K'.heap.hAddrStart = K.heap.hAddrStart
  max : K'.heap.hAddrMax = K.heap.hAddrMax
  ordered : R.Orders → Ordered K → Ordered K'

namespace Grown

variable {R : Resize} {K K' K'' : KState} {bs bs' bs'' : List Block}

theorem refl (R : Resize) (h : HeapInv K bs) : Grown R K K bs bs where
  inv := h
  kept _ mem _ := ⟨mem, fun _ _ _ => rfl⟩
  live := by rw [tablesSince_self]; exact List.Perm.refl _
  extends_ := Extends.refl _
  start := rfl
  max := rfl
  ordered _ h := h

theorem trans (first : Grown R K K' bs bs') (second : Grown R K' K'' bs' bs'') :
    Grown R K K'' bs bs'' where
  inv := second.inv
  kept b mem live := (first.kept b mem live).trans (second.kept b (first.kept b mem live).mem live)
  live := by
    refine second.live.trans ((first.live.append_left _).trans ?_)
    rw [← List.append_assoc, ← List.map_append]
    exact ((tablesSince_trans first.extends_ second.extends_).symm.map _).append_right _
  extends_ := first.extends_.trans second.extends_
  start := second.start.trans first.start
  max := second.max.trans first.max
  ordered orders h := second.ordered orders (first.ordered orders h)

/-- A step that takes no page table. -/
theorem of_kept (inv : HeapInv K' bs') (kept : ∀ b ∈ bs, b.live ≠ none → Kept K K' bs' b)
    (live : (liveRanges bs').Perm (liveRanges bs)) (tables : ∀ t, K'.dir.tableAt t = K.dir.tableAt t)
    (start : K'.heap.hAddrStart = K.heap.hAddrStart) (max : K'.heap.hAddrMax = K.heap.hAddrMax)
    (ordered : R.Orders → Ordered K → Ordered K') : Grown R K K' bs bs' where
  inv := inv
  kept := kept
  live := by rw [tablesSince_congr tables, tablesSince_self]; exact live
  extends_ := extends_of_same tables
  start := start
  max := max
  ordered := ordered

end Grown

/-- What the loop of `expand` does up to `hi`; the blocks change for page tables
only. -/
structure PagesAdded (R : Resize) (K K' : KState) (bs bs' : List Block) (hi : Nat) : Prop where
  grown : Grown R K K' bs bs'
  end_ : K'.heap.hAddrEnd = K.heap.hAddrEnd
  mapped : Mapped K' hi
  blocks : (∀ t, K'.dir.tableAt t = K.dir.tableAt t) → bs' = bs

theorem PagesAdded.trans {R : Resize} {K K' K'' : KState} {bs bs' bs'' : List Block} {hi hi' : Nat}
    (first : PagesAdded R K K' bs bs' hi) (second : PagesAdded R K' K'' bs' bs'' hi') :
    PagesAdded R K K'' bs bs'' hi' where
  grown := first.grown.trans second.grown
  end_ := second.end_.trans first.end_
  mapped := second.mapped
  blocks same := by
    have middle : ∀ t, K'.dir.tableAt t = K.dir.tableAt t :=
      same_of_extends first.grown.extends_ second.grown.extends_ same
    rw [second.blocks fun t => (same t).trans (middle t).symm, first.blocks middle]

section Expand

variable {R : Resize} {K : KState} {bs : List Block}

/-- `alloc_frame` on the page behind the last one that is mapped. -/
theorem wp_framePage (h : HeapInv K bs) {i : Nat} (mapped : Mapped K (K.heap.hAddrStart + i))
    (le : K.heap.hAddrEnd ≤ K.heap.hAddrStart + i) (aligned : (K.heap.hAddrStart + i) % 0x1000 = 0)
    {v : VmPage} (entry : K.dir.page (pagePtr (K.heap.hAddrStart + i)) = some v) (su ro : Bool) :
    Program.wp (allocFramePage (some (pagePtr (K.heap.hAddrStart + i))) su ro)
      (fun _ K' => PagesAdded R K K' bs bs (K.heap.hAddrStart + i + 0x1000) ∧ SameIndex K K')
      Exhausted K := by
  have zero : K.bits.used 0 = true ∨ K.heap.hAddrStart + vmHeapMinSize ≤ K.heap.hAddrStart + i := by
    have := h.nonempty
    refine h.zeroUsed.imp_right fun long => ?_
    omega
  refine wp_allocFramePage h.frames mapped aligned zero entry (.inr (.inr (.inl rfl)))
    fun b x frames' mapped' used => ?_
  have same : ∀ a, K.heap.hAddrStart - 0x1000 ≤ a → a < K.heap.hAddrEnd →
      (K.dir.setPage (pagePtr (K.heap.hAddrStart + i)) x).page (pagePtr a) =
        K.dir.page (pagePtr a) := by
    intro a _ h2
    rw [page_setPage, if_neg]
    intro clash
    have := Backed.pagePtr_inj clash
    omega
  obtain ⟨inv, kept, index⟩ := h.remap same frames' used
  exact ⟨⟨.of_kept inv (fun c mem _ => kept c mem) (List.Perm.refl _)
    (fun t => tableAt_setPage _ _ _ _) rfl rfl (fun _ old => old.congr index), rfl, mapped',
    fun _ => rfl⟩, index⟩

/-- What a page of `expand` does to the index: nothing, or what its page table takes. -/
structure IndexAfterPage (K K' : KState) (i : Nat) : Prop where
  there : K.dir.tableAt (pagePtr (K.heap.hAddrStart + i)).table ≠ none → SameIndex K K'
  missing : K.dir.tableAt (pagePtr (K.heap.hAddrStart + i)).table = none →
    ∃ hole, K.fit 0x1000 true = some hole ∧ PaddedFrom K K' hole 0x1000

/-- One page of `expand`. -/
theorem wp_expandPage (h : HeapInv K bs) (n : Nat) {i : Nat}
    (mapped : Mapped K (K.heap.hAddrStart + i)) (le : K.heap.hAddrEnd ≤ K.heap.hAddrStart + i)
    (aligned : (K.heap.hAddrStart + i) % 0x1000 = 0)
    (top : K.heap.hAddrStart + i < 4294967296)
    (served : K.dir.tableAt (pagePtr (K.heap.hAddrStart + i)).table = none →
      Served R K 0x1000 true) :
    Program.wp (expandPage (alloc n) i)
      (fun _ K' => IndexAfterPage K K' i ∧
        ∃ bs', PagesAdded R K K' bs bs' (K.heap.hAddrStart + i + 0x1000)) Exhausted K := by
  rw [expandPage, Program.wp_bind, Program.wp_get, add32_eq top, Program.wp_bind, kernelPage, getPage,
    Program.wp_bind, Program.wp_get]
  dsimp only
  have slot : (pagePtr (K.heap.hAddrStart + i)).table =
    (K.heap.hAddrStart + i) / 0x1000 / 1024 := rfl
  rw [← slot]
  cases table : K.dir.pdTables (pagePtr (K.heap.hAddrStart + i)).table with
  | some t =>
      rw [if_pos (Option.isSome_some), Program.wp_pure]
      have entry : K.dir.page (pagePtr (K.heap.hAddrStart + i)) =
          some (t.ptPages (pagePtr (K.heap.hAddrStart + i)).entry) := by
        rw [page, table]
        rfl
      have framed := wp_framePage (R := R) h mapped le aligned entry K.heap.hSu K.heap.hRo
      refine Program.wp_mono framed (fun _ K' added => ⟨⟨fun _ => added.2, ?_⟩, bs, added.1⟩) fun _ h => h
      intro none
      rw [tableAt_eq_none.mp none] at table
      cases table
  | none =>
      have missing := tableAt_eq_none.mpr table
      rw [if_neg (by simp), if_pos rfl]
      refine Program.wp_bind_of (wp_kmalloc0Ap h n (served missing)) ?_
      rintro ⟨address, phys⟩ K₁ ⟨bs₁, placed, same, ordered, hole, fit, padded⟩
      rw [Program.wp_bind, Program.wp_modify, Program.wp_pure]
      rw [← same.dir] at missing
      obtain ⟨frames, mapped, pages⟩ := mapped_install placed.inv.frames
        (same.mapped mapped) missing address phys
      have short : K₁.heap.hAddrEnd ≤ K.heap.hAddrStart + i := same.end_ ▸ le
      obtain ⟨inv, kept, index⟩ := placed.inv.remap (b := K₁.bits)
        (fun a h1 h2 => pages a h1 (by omega)) frames fun h => h
      have grown : Grown R K
          { K₁ with dir := K₁.dir.install (pagePtr (K.heap.hAddrStart + i)).table address phys } bs bs₁ := {
        inv := inv
        kept := fun b mem live =>
          (placed.kept b mem live).trans (kept b (placed.kept b mem live).mem)
        live := by
          dsimp only
          rw [same.dir, tablesSince_install (same.dir ▸ missing)]
          · exact placed.live
          · rw [slot]
            omega
        extends_ := by
          rw [← same.dir]
          exact extends_install missing address phys
        start := same.start
        max := same.max
        ordered := fun orders old => (ordered orders old).congr index }
      have last := wp_framePage (R := R) inv (i := i) (by rw [same.start]; exact mapped)
        (by dsimp only; rw [same.start]; exact short) (by dsimp only; rw [same.start]; exact aligned)
        (v := VmPage.zero) (by
          dsimp only
          rw [same.start, page_install, if_pos rfl]) K.heap.hSu K.heap.hRo
      dsimp only at last
      rw [same.start] at last
      refine Program.wp_mono last ?_ fun _ h => h
      rintro _ K₂ ⟨more, index'⟩
      refine ⟨⟨fun there => absurd (same.dir ▸ missing) there, fun _ => ⟨hole, fit, ?_⟩⟩, bs₁,
        grown.trans more.grown, more.end_.trans same.end_, more.mapped, fun none => ?_⟩
      · have listed := List.mem_of_find?_eq_some fit
        exact (padded.congr listed index).congr listed index'
      have taken : (K₁.dir.install (pagePtr (K.heap.hAddrStart + i)).table address phys).tableAt
          (pagePtr (K.heap.hAddrStart + i)).table = some address := by
        rw [tableAt_install, if_pos rfl]
      have absent := none (pagePtr (K.heap.hAddrStart + i)).table
      rw [more.grown.extends_ _ _ taken, ← same.dir, missing] at absent
      cases absent

/-- Each page table that the loop of `expand` finds missing, from page `i` on, is
served by a hole. -/
inductive TablesServed (R : Resize) (newSize : Nat) : Nat → KState → Prop where
  | done {i : Nat} {K : KState} (done : newSize ≤ i) : TablesServed R newSize i K
  | page {i : Nat} {K : KState}
      (here : K.dir.tableAt (pagePtr (K.heap.hAddrStart + i)).table = none → Served R K 0x1000 true)
      (next : ∀ f K', expandPage (alloc f) i K = .ok ((), K') →
        TablesServed R newSize (i + 0x1000) K') : TablesServed R newSize i K

/-- The loop of `expand` maps the pages up to the new size. -/
theorem wp_expandLoop (f n : Nat) {i newSize : Nat} (h : HeapInv K bs)
    (mapped : Mapped K (K.heap.hAddrStart + i)) (le : K.heap.hAddrEnd ≤ K.heap.hAddrStart + i)
    (aligned : (K.heap.hAddrStart + i) % 0x1000 = 0)
    (top : K.heap.hAddrStart + newSize < 4294967296) (enough : newSize ≤ i + n * 0x1000)
    (served : TablesServed R newSize i K) :
    Program.wp (expandLoop (alloc f) newSize n i)
      (fun _ K' => ∃ bs', PagesAdded R K K' bs bs' (K.heap.hAddrStart + newSize)) Exhausted K := by
  induction n generalizing K bs i with
  | zero => exact ⟨bs, .refl R h, rfl, mapped.mono (by omega), fun _ => rfl⟩
  | succ n ih =>
      rw [expandLoop, Program.wp_ite]
      refine ⟨fun more => ?_, fun done => ?_⟩
      · obtain done | ⟨here, next⟩ := served
        · omega
        refine Program.wp_bind_of (Program.wp_ran (wp_expandPage h f mapped le aligned (by omega) here)) ?_
        rintro ⟨⟩ K₁ ⟨ran, -, bs₁, added⟩
        have start := added.grown.start
        refine Program.wp_mono (ih added.grown.inv (i := i + 0x1000) ?_ ?_ ?_ ?_ (by omega)
          (next f K₁ ran)) ?_ fun _ h => h
        · rw [start, ← Nat.add_assoc]
          exact added.mapped
        · rw [start, added.end_]
          omega
        · rw [start]
          omega
        · rw [start]
          exact top
        · rintro _ K₂ ⟨bs₂, more⟩
          rw [start] at more
          exact ⟨bs₂, added.trans more⟩
      · exact ⟨bs, .refl R h, rfl, mapped.mono (by omega), fun _ => rfl⟩

/-- The length of the heap after a growth by `need` bytes. -/
def expandedLength (K : KState) (need : Nat) : Nat :=
  (K.heap.hAddrEnd - K.heap.hAddrStart + need) / 0x1000 * 0x1000 + 0x1000

theorem expandedLength_aligned (K : KState) (need : Nat) : expandedLength K need % 0x1000 = 0 := by
  unfold expandedLength
  omega

theorem lt_expandedLength (K : KState) (need : Nat) :
    K.heap.hAddrEnd - K.heap.hAddrStart + need < expandedLength K need := by
  unfold expandedLength
  omega

/-- The length of the heap after a growth for `size` bytes. -/
def grownLength (K : KState) (size : Nat) : Nat :=
  (K.heap.hAddrEnd - K.heap.hAddrStart + (size + 20)) / 0x1000 * 0x1000 + 0x1000

theorem grownLength_eq (K : KState) (size : Nat) :
    grownLength K size = expandedLength K (size + 20) := rfl

/-- The hole with the highest address ends the heap, and may end it at
`start + newLength`. -/
def TakesGrowth (R : Resize) (newLength : Nat) (K : KState) : Prop :=
  ∀ h ∈ K.indexed, (∀ x ∈ K.indexed, x ≤ h) →
    h + K.view.word (h + 8) = K.heap.hAddrEnd ∧
      R K.view K.indexed h (K.heap.hAddrStart + newLength - h)

/-- When the heap can grow for a block of `size` bytes. -/
structure GrowSound (R : Resize) (size : Nat) (K : KState) : Prop where
  fits : K.heap.hAddrStart + grownLength K size < 4294967296
  tables : TablesServed R (grownLength K size) (K.heap.hAddrEnd - K.heap.hAddrStart) K
  last : ∀ f K', expandLoop (alloc f) (grownLength K size) (grownLength K size / 0x1000 + 1)
    (K.heap.hAddrEnd - K.heap.hAddrStart) K = .ok ((), K') → TakesGrowth R (grownLength K size) K'

/-- The loop of `expand` as a growth by `need` bytes runs it. -/
def addPages (f need : Nat) (K : KState) : KernelM Unit :=
  expandLoop (alloc f) (expandedLength K need) (expandedLength K need / 0x1000 + 1)
    (K.heap.hAddrEnd - K.heap.hAddrStart)

theorem wp_addPages (f : Nat) {need : Nat} (h : HeapInv K bs)
    (fits : K.heap.hAddrStart + expandedLength K need < 4294967296)
    (tables : TablesServed R (expandedLength K need) (K.heap.hAddrEnd - K.heap.hAddrStart) K) :
    Program.wp (addPages f need K) (fun _ K' => ∃ bs', PagesAdded R K K' bs bs'
      (K.heap.hAddrStart + expandedLength K need)) Exhausted K := by
  have less := h.nonempty
  have start := h.startAligned
  have ends := h.endAligned
  refine wp_expandLoop f _ h ?_ ?_ ?_ fits ?_ tables
  · rw [Nat.add_sub_cancel' (by omega)]
    exact h.mapped
  · omega
  · omega
  · omega

/-- `expand`: the heap is what it was, up to the old end; the pages up to the new
end are mapped. -/
theorem wp_expand (f : Nat) {need : Nat} (h : HeapInv K bs) (some : 0 < need)
    (fits : K.heap.hAddrStart + expandedLength K need < 4294967296)
    (tables : TablesServed R (expandedLength K need) (K.heap.hAddrEnd - K.heap.hAddrStart) K) :
    Program.wp (expand (alloc f) (K.heap.hAddrEnd - K.heap.hAddrStart + need))
      (fun _ K' => ∃ K₁ bs₁, addPages f need K K = .ok ((), K₁) ∧
        PagesAdded R K K₁ bs bs₁ (K.heap.hAddrStart + expandedLength K need) ∧
        K' = { K₁ with heap := { K₁.heap with
          hAddrEnd := K.heap.hAddrStart + expandedLength K need } }) Exhausted K := by
  have top := h.top
  have less := h.nonempty
  have start := h.startAligned
  have ends := h.endAligned
  have length : sub32 K.heap.hAddrEnd K.heap.hAddrStart = K.heap.hAddrEnd - K.heap.hAddrStart :=
    sub32_eq (by omega) h.top
  have rounded : pageAlign (K.heap.hAddrEnd - K.heap.hAddrStart + need) = expandedLength K need := by
    rw [expandedLength] at fits ⊢
    exact pageAlign_eq (by omega) (Nat.lt_of_le_of_lt (Nat.le_add_left _ _) fits)
  rw [expand, Program.wp_bind, Program.wp_get, Program.wp_bind, wp_kassert, length, rounded]
  refine ⟨fun _ => ?_, fun fails => (fails (by omega)).elim⟩
  dsimp only
  rw [Program.wp_bind, wp_kassert, add32_eq fits]
  refine ⟨fun _ => ?_, fun _ => .inl rfl⟩
  refine Program.wp_bind_of (Program.wp_ran (wp_addPages f h fits tables)) ?_
  rintro ⟨⟩ K₁ ⟨ran, bs₁, added⟩
  rw [Program.wp_modify]
  refine ⟨K₁, bs₁, ran, added, ?_⟩
  simp only [added.grown.start, add32_eq fits]

end Expand

/-! ## The hole at the end -/

section Growth

variable {R : Resize} {K : KState} {bs : List Block} {hi : Nat}

/-- What is seen up to the new end. -/
theorem Mapped.sees (mapped : Mapped K hi) :
    Sees { K with heap := { K.heap with hAddrEnd := hi } } (K.heap.hAddrStart - 0x1000) hi K.view where
  backed := mapped.backed.congr rfl fun _ _ _ => rfl
  eq _ _ _ := rfl

/-- The bytes from `lo` to `hi` belong to a hole: one of their own, or the one that
ended at `lo`. -/
inductive Lengthened : List Block → List Block → Nat → Nat → Prop where
  | hole {bs : List Block} {lo hi : Nat} : Lengthened bs (bs ++ [⟨lo, hi - lo, none⟩]) lo hi
  | last {pre : List Block} {hole size lo hi : Nat} (ends : hole + size = lo) :
      Lengthened (pre ++ [⟨hole, size, none⟩]) (pre ++ [⟨hole, hi - hole, none⟩]) lo hi

/-- A hole with a footer at its end. -/
theorem tagged_footed {m : Mem} {h size : Nat} (header : IsHeader m h 1 size)
    (large : 20 ≤ size) : Block.Tagged (footerAt m (h + size - 8) h) ⟨h, size, none⟩ :=
  Block.tagged_hole (header.of_agreeOff (agreeOff_footerAt _
    (Mem.AgreeOff.refl (h + size - 8) (h + size) _) (Nat.le_refl _) (by omega)) (by omega)) large

theorem wp_growthAsHole (h : HeapInv K bs) (empty : K.indexed = []) (longer : K.heap.hAddrEnd < hi)
    (top : hi < 4294967296) (aligned : hi % 0x1000 = 0) (mapped : Mapped K hi) :
    Program.wp (growthAsHole K.heap.hAddrEnd (hi - K.heap.hAddrEnd))
      (fun _ K' => ∃ bs', Grown R K K' bs bs' ∧ Lengthened bs bs' K.heap.hAddrEnd hi ∧
        K'.heap.hAddrEnd = hi ∧ K'.dir = K.dir) Exhausted
      { K with heap := { K.heap with hAddrEnd := hi } } := by
  have ends := h.endAligned
  have less := h.nonempty
  have large : 0x1000 ≤ hi - K.heap.hAddrEnd := by omega
  have footer : ∀ s, s = hi - K.heap.hAddrEnd →
      sub32 (add32 K.heap.hAddrEnd s) sizeofFooter = hi - 8 := by
    intro s same
    unfold sub32 add32 sizeofFooter
    omega
  have header : IsHeader (headerAt K.view K.heap.hAddrEnd 1 (hi - K.heap.hAddrEnd)) K.heap.hAddrEnd 1
      (hi - K.heap.hAddrEnd) := isHeader_headerAt (by decide) (by omega)
  have agree : Mem.AgreeOff K.heap.hAddrEnd hi K.view _ :=
    agreeOff_footerAt K.heap.hAddrEnd (f := hi - 8)
      (agreeOff_headerAt 1 (hi - K.heap.hAddrEnd) (.refl _ _ K.view) (Nat.le_refl _)
        (by omega)) (by omega) (by omega)
  refine (Program.wp_bind _ _ _ _ _).mpr (wp_setHeader mapped.sees (by omega) (by omega) (by omega)
    fun mem sees => ?_)
  rw [Program.wp_bind, wp_hhSize sees (by omega) (by omega) (by omega), header.size, footer _ rfl]
  refine (Program.wp_bind _ _ _ _ _).mpr (wp_setFooter sees (by omega) (by omega) (by omega)
    fun mem sees => ?_)
  dsimp only at sees ⊢
  have nothing : KState.indexed { K with mem := mem, heap := { K.heap with hAddrEnd := hi } } = [] :=
    empty
  refine wp_insertIndex sees (by omega) (fun a listed => ?_) h.cmp (by omega) (by omega)
    (fun _ => .inr (.inl rfl)) fun _ index k le list _ _ same _ => ?_
  · rw [nothing] at listed
    cases listed
  rw [nothing] at le list
  obtain rfl : k = 0 := by simpa using le
  have sees : Sees { K with mem := mem } (K.heap.hAddrStart - 0x1000) hi _ :=
    sees.congr rfl rfl fun _ _ _ => rfl
  have last := Blocks.cons (tagged_footed header (by omega)) (.nil _ _)
  dsimp only at last
  rw [Nat.add_sub_cancel' (Nat.le_of_lt longer)] at last
  have tiled := (h.blocks.of_agreeOff agree (.inl (Nat.le_refl _))).append last
  have old : holes bs = [] := (empty ▸ h.index).nil_eq.symm
  have perm : ([] ++ index.toList).Perm
      (holes (bs ++ ([⟨K.heap.hAddrEnd, hi - K.heap.hAddrEnd, none⟩] : List Block))) := by
    rw [list, holes_append, old]
    exact List.Perm.refl _
  have inv := h.reach (Nat.le_of_lt longer) top aligned mapped sees tiled perm same
  refine ⟨_, .of_kept inv (fun c mem' _ => ⟨List.mem_append_left _ mem', fun a h1 h2 => ?_⟩) ?_
    (fun _ => rfl) rfl rfl fun _ _ => ?_, .hole, rfl, rfl⟩
  · have bounds := h.blocks.bounds mem'
    exact (sees.eq a (by omega) (by omega)).trans (agree a (.inl (by omega)))
  · simp
  · have single : KState.indexed (KState.setIndex { K with
        mem := mem, heap := { K.heap with hAddrEnd := hi } } index) = [K.heap.hAddrEnd] := list
    rw [Ordered, single]
    exact List.pairwise_singleton _ _

theorem wp_growthToHole (h : HeapInv K bs) {hole : Nat} (listed : hole ∈ K.indexed)
    (last : hole + K.view.word (hole + 8) = K.heap.hAddrEnd) (resize : R K.view K.indexed hole (hi - hole))
    (longer : K.heap.hAddrEnd < hi) (top : hi < 4294967296) (aligned : hi % 0x1000 = 0)
    (mapped : Mapped K hi) :
    Program.wp (growthToHole hole (hi - K.heap.hAddrEnd))
      (fun _ K' => ∃ bs', Grown R K K' bs bs' ∧ Lengthened bs bs' K.heap.hAddrEnd hi ∧
        K'.heap.hAddrEnd = hi ∧ K'.dir = K.dir) Exhausted
      { K with heap := { K.heap with hAddrEnd := hi } } := by
  have member := h.hole_of_indexed listed
  obtain ⟨hlo, hhi⟩ := h.indexIn hole listed
  have tagged := h.blocks.tagged _ member
  have big := tagged.big
  have bounds := h.blocks.bounds member
  dsimp only at big bounds
  have header := tagged.header.setSize (s := hi - hole) (by omega)
  have size : add32 (K.view.word (hole + 8)) (hi - K.heap.hAddrEnd) = hi - hole := by
    unfold add32
    omega
  have footer : sub32 (add32 hole (hi - hole)) sizeofFooter = hi - 8 := by
    unfold sub32 add32 sizeofFooter
    omega
  have agree : Mem.AgreeOff hole hi K.view _ :=
    agreeOff_footerAt hole (f := hi - 8)
      (Mem.AgreeOff.setWord (.refl _ _ K.view) (a := hole + 8) (hi - hole) (by omega) (by omega))
      (by omega) (by omega)
  have block := tagged_footed header (by omega)
  rw [show hole + (hi - hole) = hi by omega] at block
  rw [growthToHole, Program.wp_bind, wp_hhSize mapped.sees (by omega) hlo (by omega), size]
  refine (Program.wp_bind _ _ _ _ _).mpr (wp_setHhSize mapped.sees (by omega) hlo (by omega)
    fun mem sees => ?_)
  rw [Program.wp_bind, wp_hhSize sees (by omega) hlo (by omega), header.size, footer]
  refine wp_setFooter sees (by omega) (by omega) (by omega) fun mem sees => ?_
  have sees : Sees { K with mem := mem } (K.heap.hAddrStart - 0x1000) hi _ :=
    sees.congr rfl rfl fun _ _ _ => rfl
  obtain ⟨pre, post, rfl⟩ := List.append_of_mem member
  obtain ⟨left, right⟩ := h.blocks.cut
  obtain rfl := right.eq_nil (by dsimp only; omega)
  have ending := Blocks.cons block (.nil _ _)
  dsimp only at ending
  rw [Nat.add_sub_cancel' (by omega)] at ending
  have perm : K.indexed.Perm (holes (pre ++ [⟨hole, hi - hole, none⟩])) := by simpa using h.index
  have inv := h.reach (u := []) (Nat.le_of_lt longer) top aligned mapped sees
    ((left.of_agreeOff agree (.inl (Nat.le_refl _))).append ending) perm rfl
  have apart : ∀ c ∈ pre ++ [⟨hole, K.view.word (hole + 8), none⟩],
      c ≠ ⟨hole, K.view.word (hole + 8), none⟩ → c.addr + c.size ≤ hole := by
    intro c mem' other
    rcases List.mem_append.mp mem' with mem' | mem'
    · exact (left.bounds mem').2
    · exact absurd (List.mem_singleton.mp mem') other
  refine ⟨_, .of_kept inv (fun c mem' live => ⟨?_, fun a h1 h2 => ?_⟩) ?_
    (fun _ => rfl) rfl rfl fun orders ordered => ?_, .last last, rfl, rfl⟩
  · rcases List.mem_append.mp mem' with mem' | mem'
    · exact List.mem_append_left _ mem'
    · obtain rfl := List.mem_singleton.mp mem'
      exact absurd rfl live
  · have before := apart c mem' (by rintro rfl; exact live rfl)
    have bounds := h.blocks.bounds mem'
    exact (sees.eq a (by omega) (by omega)).trans (agree a (.inl (by omega)))
  · simp
  · refine (orders _ _ hole _ ordered h.nodup resize).sorted ?_ fun a listed' other => ?_
    · exact (sees.word (by omega) (by omega)).trans block.header.size
    · have before := apart _ (h.hole_of_indexed listed') (by
        intro same
        exact other (congrArg Block.addr same))
      have bounds := h.indexIn a listed'
      dsimp only at before
      have big := (h.blocks.tagged _ (h.hole_of_indexed listed')).big
      dsimp only at big
      exact (sees.word (by omega) (by omega)).trans (agree.word (.inl (by omega)))

/-- The end of `grow`: the new bytes go to the hole with the highest address, or to one
of their own. -/
def giveGrowth (oldEnd growth : Nat) : KernelM Unit := do
  match ← endmostHeader with
  | none => growthAsHole oldEnd growth
  | some idx => do
      let header ← lookupIndex idx
      growthToHole header growth

theorem wp_giveGrowth {Q : Unit → KState → Prop} {E : Stop → Prop} {hi oldEnd growth : Nat}
    (h : HeapInv K bs)
    (empty : K.indexed = [] → Program.wp (growthAsHole oldEnd growth) Q E
      { K with heap := { K.heap with hAddrEnd := hi } })
    (last : ∀ hole ∈ K.indexed, (∀ x ∈ K.indexed, x ≤ hole) →
      Program.wp (growthToHole hole growth) Q E { K with heap := { K.heap with hAddrEnd := hi } }) :
    Program.wp (giveGrowth oldEnd growth) Q E { K with heap := { K.heap with hAddrEnd := hi } } := by
  have low := h.low
  rw [giveGrowth, Program.wp_bind]
  refine wp_endmostHeader (fun a listed => ?_) empty fun k hole at_k largest => ?_
  · have bounds := h.blocks.bounds (h.hole_of_indexed listed)
    dsimp only at bounds
    omega
  · dsimp only
    rw [Program.wp_bind, wp_lookupIndex at_k]
    exact last hole (mem_indexed at_k) largest

/-- A growth by `need` bytes, in two steps: page tables are taken while the pages are
added, then the new bytes go to a hole. -/
theorem wp_grow_of {Q : Unit → KState → Prop} {E : Stop → Prop} (f : Nat) {need : Nat}
    (h : HeapInv K bs) (some : 0 < need)
    (fits : K.heap.hAddrStart + expandedLength K need < 4294967296)
    (tables : TablesServed R (expandedLength K need) (K.heap.hAddrEnd - K.heap.hAddrStart) K)
    (stops : ∀ e, Exhausted e → E e)
    (rest : ∀ K₁ bs₁ hi, addPages f need K K = .ok ((), K₁) → PagesAdded R K K₁ bs bs₁ hi →
      hi = K.heap.hAddrStart + expandedLength K need → K₁.heap.hAddrEnd < hi → hi % 0x1000 = 0 →
      Program.wp (giveGrowth K₁.heap.hAddrEnd (hi - K₁.heap.hAddrEnd)) Q E
        { K₁ with heap := { K₁.heap with hAddrEnd := hi } }) :
    Program.wp (grow (alloc f) need) Q E K := by
  have top := h.top
  have less := h.nonempty
  have start := h.startAligned
  have more := lt_expandedLength K need
  have length : sub32 K.heap.hAddrEnd K.heap.hAddrStart = K.heap.hAddrEnd - K.heap.hAddrStart :=
    sub32_eq (by omega) h.top
  have within : K.heap.hAddrEnd - K.heap.hAddrStart + need < 4294967296 := by omega
  rw [grow, Program.wp_bind, Program.wp_get]
  dsimp only
  rw [length, add32_eq within]
  refine Program.wp_bind_of (Program.wp_mono (wp_expand f h some fits tables) (fun _ _ h => h) stops) ?_
  rintro _ K₂ ⟨K₁, bs₁, ran, added, rfl⟩
  have end_ := added.end_
  have newLength : sub32 (K.heap.hAddrStart + expandedLength K need) K₁.heap.hAddrStart =
      expandedLength K need := by
    rw [added.grown.start, sub32_eq (Nat.le_add_right _ _) fits, Nat.add_sub_cancel_left]
  have growth : sub32 (expandedLength K need) (K.heap.hAddrEnd - K.heap.hAddrStart) =
      K.heap.hAddrStart + expandedLength K need - K₁.heap.hAddrEnd := by
    rw [sub32_eq (by omega) (by omega), end_]
    omega
  rw [Program.wp_bind, Program.wp_get]
  dsimp only
  rw [newLength, growth, ← end_]
  have aligned := expandedLength_aligned K need
  exact rest K₁ bs₁ _ ran added rfl (by omega) (by omega)

/-- A growth that goes to the end of the heap. -/
theorem wp_growBy (f : Nat) {need : Nat} (h : HeapInv K bs) (some : 0 < need)
    (fits : K.heap.hAddrStart + expandedLength K need < 4294967296)
    (tables : TablesServed R (expandedLength K need) (K.heap.hAddrEnd - K.heap.hAddrStart) K)
    (takes : ∀ K₁, addPages f need K K = .ok ((), K₁) → TakesGrowth R (expandedLength K need) K₁) :
    Program.wp (grow (alloc f) need) (fun _ K' => ∃ K₁ bs₁ bs',
        PagesAdded R K K₁ bs bs₁ K'.heap.hAddrEnd ∧ Grown R K₁ K' bs₁ bs' ∧
        Lengthened bs₁ bs' K.heap.hAddrEnd K'.heap.hAddrEnd ∧
        K.heap.hAddrEnd < K'.heap.hAddrEnd ∧ K'.dir = K₁.dir) Exhausted K := by
  refine wp_grow_of f h some fits tables (fun _ h => h) ?_
  intro K₁ bs₁ hi ran added reach longer aligned
  have grown := added.grown
  have top : hi < 4294967296 := by omega
  refine wp_giveGrowth grown.inv (fun empty => ?_) fun hole listed largest => ?_
  · refine Program.wp_mono (wp_growthAsHole (R := R) grown.inv empty longer top aligned
      added.mapped) ?_ fun _ h => h
    rintro _ K' ⟨bs', more, lengthened, rfl, same⟩
    exact ⟨K₁, bs₁, bs', added, more, added.end_ ▸ lengthened, added.end_ ▸ longer, same⟩
  · obtain ⟨last, resize⟩ := takes K₁ ran hole listed largest
    rw [grown.start, ← reach] at resize
    refine Program.wp_mono (wp_growthToHole grown.inv listed last resize longer top aligned
      added.mapped) ?_ fun _ h => h
    rintro _ K' ⟨bs', more, lengthened, rfl, same⟩
    exact ⟨K₁, bs₁, bs', added, more, added.end_ ▸ lengthened, added.end_ ▸ longer, same⟩

/-- A growth: the heap ends further up, its live blocks are what they were. -/
theorem wp_grow (f : Nat) {size : Nat} (h : HeapInv K bs) (sound : GrowSound R size K) :
    Program.wp (grow (alloc f) (size + 20)) (fun _ K' => ∃ bs', Grown R K K' bs bs') Exhausted K := by
  refine Program.wp_mono (wp_growBy f h (by omega) sound.fits sound.tables fun K₁ ran =>
    sound.last f K₁ ran) ?_ fun _ h => h
  rintro _ K' ⟨K₁, bs₁, bs', added, more, -⟩
  exact ⟨bs', added.grown.trans more⟩

end Growth

/-! ## alloc -/

/-- Every growth and every placement of a call of `alloc` is sound. -/
inductive AllocSound (R : Resize) (size : Nat) (pageAlign : Bool) : KState → Prop where
  | served {K : KState} (here : Served R K size pageAlign) : AllocSound R size pageAlign K
  | grown {K : KState} (missing : K.fit size pageAlign = none) (growth : GrowSound R size K)
      (retry : ∀ f K', grow (alloc f) (size + 20) K = .ok ((), K') →
        AllocSound R size pageAlign K') : AllocSound R size pageAlign K

/-- What `alloc` does when it returns `p`: one block more, and the page tables it
needed. -/
structure Allocated (R : Resize) (K K' : KState) (bs bs' : List Block) (p size : Nat)
    (pageAlign : Bool) : Prop where
  inv : HeapInv K' bs'
  kept : ∀ b ∈ bs, b.live ≠ none → Kept K K' bs' b
  live : (liveRanges bs').Perm
    ((p, size) :: ((tablesSince K.dir K'.dir).map (fun a => (a, 0x1000)) ++ liveRanges bs))
  extends_ : Extends K.dir K'.dir
  start : K'.heap.hAddrStart = K.heap.hAddrStart
  max : K'.heap.hAddrMax = K.heap.hAddrMax
  aligned : pageAlign = true → p % 0x1000 = 0
  ordered : R.Orders → Ordered K → Ordered K'

theorem Allocated.of_grown {R : Resize} {K K' K'' : KState} {bs bs' bs'' : List Block} {p size : Nat}
    {pageAlign : Bool} (first : Grown R K K' bs bs')
    (second : Allocated R K' K'' bs' bs'' p size pageAlign) :
    Allocated R K K'' bs bs'' p size pageAlign where
  inv := second.inv
  kept b mem live := (first.kept b mem live).trans (second.kept b (first.kept b mem live).mem live)
  live := by
    refine second.live.trans (List.Perm.cons _ ((first.live.append_left _).trans ?_))
    rw [← List.append_assoc, ← List.map_append]
    exact ((tablesSince_trans first.extends_ second.extends_).symm.map _).append_right _
  extends_ := first.extends_.trans second.extends_
  start := second.start.trans first.start
  max := second.max.trans first.max
  aligned := second.aligned
  ordered orders h := second.ordered orders (first.ordered orders h)

theorem Allocated.of_placed {R : Resize} {K K' : KState} {bs bs' : List Block} {p size : Nat}
    {pageAlign : Bool} (placed : Placed K K' bs bs' p size pageAlign) (same : SamePages K K')
    (ordered : R.Orders → Ordered K → Ordered K') : Allocated R K K' bs bs' p size pageAlign where
  inv := placed.inv
  kept := placed.kept
  live := by
    rw [same.dir, tablesSince_self]
    exact placed.live
  extends_ := by
    rw [same.dir]
    exact Extends.refl _
  start := same.start
  max := same.max
  aligned := placed.aligned
  ordered := ordered

/-- `alloc`, at any depth of the recursion: when its calls are sound it stops for
want of address space, index entries or frames only, and when it returns the
heap is in order. -/
theorem wp_alloc {R : Resize} {K : KState} {size : Nat} {pageAlign : Bool}
    (sound : AllocSound R size pageAlign K) (n : Nat) {bs : List Block} (h : HeapInv K bs) :
    Program.wp (alloc n size pageAlign)
      (fun p K' => ∃ bs', Allocated R K K' bs bs' p size pageAlign) Exhausted K := by
  induction sound generalizing n bs with
  | served here =>
      cases n with
      | zero => exact .inr (.inr (.inr rfl))
      | succ n =>
          refine Program.wp_mono (wp_alloc_served h n here) ?_ fun _ h => h
          rintro p K' ⟨bs', placed, same, ordered, -⟩
          exact ⟨bs', .of_placed placed same ordered⟩
  | @grown K missing growth retry ih =>
      cases n with
      | zero => exact .inr (.inr (.inr rfl))
      | succ n =>
          have top := h.top
          have fits := growth.fits
          have more := lt_expandedLength K (size + 20)
          rw [grownLength_eq] at fits
          have need : add32 (add32 size sizeofHeader) sizeofFooter = size + 20 := by
            unfold add32 sizeofHeader sizeofFooter
            omega
          rw [alloc, Program.wp_bind, wp_findSmallestHole h.sees (by omega) h.indexIn,
            firstFit_of_not_fit missing]
          dsimp only
          rw [need]
          refine Program.wp_bind_of (Program.wp_ran (wp_grow n h growth)) ?_
          rintro ⟨⟩ K₁ ⟨ran, bs₁, grown⟩
          refine Program.wp_mono (ih n K₁ ran n grown.inv) ?_ fun _ h => h
          rintro p K₂ ⟨bs₂, allocated⟩
          exact ⟨bs₂, .of_grown grown allocated⟩

end MiniKernel.Kernel
