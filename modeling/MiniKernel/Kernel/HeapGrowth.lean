/-
# Kernel.HeapGrowth -- growing over new memory only

When no hole fits, `alloc` calls `expand` and gives the new bytes to the hole whose
header has the highest address.  `GrowthCovered` is what the growth should do: the
bytes behind the old end belong to one hole, which begins there or ended there, and
no other block changes but for the page tables taken on the way.

A heap whose highest hole does not end it gets its new bytes in the wrong place:
that hole grows over the live blocks behind it.
-/
import MiniKernel.Kernel.HeapFields
import MiniKernel.Kernel.HeapRuns

namespace MiniKernel.Kernel

open Theory VmPageDirectory

set_option autoImplicit false

/-- The blocks below the old end: those of the heap, but for the page tables that the
new pages needed. -/
structure TablesTaken (K K' : KState) (bs bs₁ : List Block) : Prop where
  kept : ∀ b ∈ bs, b.live ≠ none → b ∈ bs₁
  live : (liveRanges bs₁).Perm
    ((tablesSince K.dir K'.dir).map (fun a => (a, 0x1000)) ++ liveRanges bs)
  same : (∀ t, K'.dir.tableAt t = K.dir.tableAt t) → bs₁ = bs

/-- A growth of the heap `K` with the blocks `bs`, which leaves the blocks `bs'`. -/
structure GrowthCovered (K K' : KState) (bs bs' : List Block) : Prop where
  start : K'.heap.hAddrStart = K.heap.hAddrStart
  longer : K.heap.hAddrEnd < K'.heap.hAddrEnd
  blocks : Blocks K'.view K'.heap.hAddrStart bs' K'.heap.hAddrEnd
  index : K'.indexed.Perm (holes bs')
  lengthened : ∃ bs₁, TablesTaken K K' bs bs₁ ∧
    Lengthened bs₁ bs' K.heap.hAddrEnd K'.heap.hAddrEnd

/-- The hole with the highest address ends the heap, or there is no hole. -/
def EndsInHole (K : KState) : Prop :=
  ∀ h ∈ K.indexed, (∀ x ∈ K.indexed, x ≤ h) → h + K.view.word (h + 8) = K.heap.hAddrEnd

instance (K : KState) : Decidable (EndsInHole K) :=
  inferInstanceAs (Decidable (∀ h ∈ K.indexed, (∀ x ∈ K.indexed, x ≤ h) →
    h + K.view.word (h + 8) = K.heap.hAddrEnd))

/-! ## The end of the heap after a growth -/

section Ends

variable {K : KState}

theorem expand_end (n size : Nat) :
    Program.wp (expand (alloc n) size) (fun _ K' =>
      sub32 K.heap.hAddrEnd K.heap.hAddrStart < size ∧
      K'.heap.hAddrStart = K.heap.hAddrStart ∧
      K'.heap.hAddrEnd = add32 K.heap.hAddrStart (pageAlign size)) (fun _ => True) K := by
  rw [expand, Program.wp_bind, Program.wp_get, Program.wp_bind, wp_kassert]
  refine ⟨fun greater => ?_, fun _ => trivial⟩
  dsimp only
  rw [Program.wp_bind, wp_kassert]
  refine ⟨fun _ => ?_, fun _ => trivial⟩
  generalize pageAlign size / 0x1000 + 1 = pages
  refine Program.wp_bind_of (expandLoop_keeps (alloc_keeps n) _ _ _ _) fun _ K₁ start => ?_
  rw [Program.wp_modify]
  dsimp only at start ⊢
  exact ⟨greater, start, by rw [start]⟩

theorem grow_end (n need : Nat) :
    Program.wp (grow (alloc n) need) (fun _ K' =>
      sub32 K.heap.hAddrEnd K.heap.hAddrStart <
        add32 (sub32 K.heap.hAddrEnd K.heap.hAddrStart) need ∧
      K'.heap.hAddrEnd = add32 K.heap.hAddrStart
        (pageAlign (add32 (sub32 K.heap.hAddrEnd K.heap.hAddrStart) need))) (fun _ => True) K := by
  rw [grow, Program.wp_bind, Program.wp_get]
  refine Program.wp_bind_of (expand_end n _) ?_
  rintro ⟨⟩ K₁ ⟨greater, -, stop⟩
  rw [Program.wp_bind, Program.wp_get]
  refine Program.wp_mono ((giveGrowth_keeps _ _).map KState.bounds K₁) (fun _ K₂ same => ⟨greater, ?_⟩) fun _ h => h
  exact (congrArg (fun bounds => bounds.2.1) same).trans stop

/-- A growth that ends the heap further up does not wrap around. -/
theorem fits_of_longer {K' : KState} {bs : List Block} {f need : Nat} (h : HeapInv K bs)
    (small : need < 4294967296) (ran : grow (alloc f) need K = .ok ((), K'))
    (longer : K.heap.hAddrEnd < K'.heap.hAddrEnd) :
    0 < need ∧ K.heap.hAddrStart + expandedLength K need < 4294967296 := by
  obtain ⟨greater, stop⟩ := Program.wp_ok (grow_end f need) ran
  have top := h.top
  have less := h.nonempty
  have start := h.startAligned
  have ends := h.endAligned
  rw [sub32_eq (Nat.le_of_lt less) top] at greater stop
  have within : K.heap.hAddrEnd - K.heap.hAddrStart + need < 4294967296 := by
    unfold add32 at greater
    omega
  rw [add32_eq within] at greater stop
  refine ⟨by omega, ?_⟩
  by_cases wraps : 4294967296 ≤
      (K.heap.hAddrEnd - K.heap.hAddrStart + need) / 0x1000 * 0x1000 + 0x1000
  · rw [pageAlign_wraps within wraps, add32_eq (by omega)] at stop
    omega
  · rw [pageAlign_eq (by omega) (by omega)] at stop
    unfold add32 at stop
    unfold expandedLength
    omega

end Ends

/-! ## The hole that grows -/

section Covered

variable {K K' : KState} {bs bs' : List Block} {f need : Nat}

/-- A hole that is given the new bytes is that much larger, whatever lies behind it. -/
theorem wp_growthToHole_size {hole hi : Nat} (h : HeapInv K bs) (listed : hole ∈ K.indexed)
    (longer : K.heap.hAddrEnd < hi) (top : hi < 4294967296) (mapped : Mapped K hi) :
    Program.wp (growthToHole hole (hi - K.heap.hAddrEnd)) (fun _ K' => K'.indexed = K.indexed ∧
      K'.heap.hAddrEnd = hi ∧
      K'.view.word (hole + 8) = K.view.word (hole + 8) + (hi - K.heap.hAddrEnd)) (fun _ => True)
      { K with heap := { K.heap with hAddrEnd := hi } } := by
  obtain ⟨hlo, hhi⟩ := h.indexIn hole listed
  have tagged := h.blocks.tagged _ (h.hole_of_indexed listed)
  have big := tagged.big
  have bounds := h.blocks.bounds (h.hole_of_indexed listed)
  dsimp only at big bounds
  have size : add32 (K.view.word (hole + 8)) (hi - K.heap.hAddrEnd) =
      K.view.word (hole + 8) + (hi - K.heap.hAddrEnd) := add32_eq (by omega)
  have header := tagged.header.setSize (s := K.view.word (hole + 8) + (hi - K.heap.hAddrEnd)) (by omega)
  have footer : sub32 (add32 hole (K.view.word (hole + 8) + (hi - K.heap.hAddrEnd))) sizeofFooter =
      hole + (K.view.word (hole + 8) + (hi - K.heap.hAddrEnd)) - 8 := by
    unfold sub32 add32 sizeofFooter
    omega
  rw [growthToHole, Program.wp_bind, wp_hhSize mapped.sees (by omega) hlo (by omega), size]
  refine (Program.wp_bind _ _ _ _ _).mpr (wp_setHhSize mapped.sees (by omega) hlo (by omega)
    fun mem sees => ?_)
  rw [Program.wp_bind, wp_hhSize sees (by omega) hlo (by omega), header.size, footer]
  refine wp_setFooter sees (by omega) (by omega) (by omega) fun mem sees => ?_
  have sees : Sees { K with mem := mem } (K.heap.hAddrStart - 0x1000) hi _ :=
    sees.congr rfl rfl fun _ _ _ => rfl
  refine ⟨rfl, rfl, (sees.word (by omega) (by omega)).trans ?_⟩
  have agree : Mem.AgreeOff (hole + 12) hi
      (K.view.setWord (hole + 8) (K.view.word (hole + 8) + (hi - K.heap.hAddrEnd))) _ :=
    agreeOff_footerAt hole (f := hole + (K.view.word (hole + 8) + (hi - K.heap.hAddrEnd)) - 8)
      (.refl _ _ _) (by omega) (by omega)
  exact (agree.word (.inl (by omega))).trans header.size

/-- A hole ends the heap after the growth. -/
theorem GrowthCovered.ends (covered : GrowthCovered K K' bs bs') :
    ∃ b ∈ bs', b.live = none ∧ b.addr + b.size = K'.heap.hAddrEnd := by
  obtain ⟨bs₁, -, lengthened⟩ := covered.lengthened
  have longer := covered.longer
  cases lengthened with
  | hole => exact ⟨_, List.mem_append_right _ List.mem_cons_self, rfl, by dsimp only; omega⟩
  | last ends =>
      have bounds := covered.blocks.bounds (List.mem_append_right _ List.mem_cons_self)
      dsimp only at bounds
      exact ⟨_, List.mem_append_right _ List.mem_cons_self, rfl, by dsimp only; omega⟩

/-- A growth that covers new memory only took the hole that ended the heap. -/
theorem endsInHole_of_covered (h : HeapInv K bs) (some : 0 < need)
    (fits : K.heap.hAddrStart + expandedLength K need < 4294967296)
    (tables : TablesServed Resize.any (expandedLength K need)
      (K.heap.hAddrEnd - K.heap.hAddrStart) K)
    (ran : grow (alloc f) need K = .ok ((), K')) (covered : GrowthCovered K K' bs bs') {K₁ : KState}
    (added : addPages f need K K = .ok ((), K₁)) : EndsInHole K₁ := by
  intro hole listed largest
  have grows : Program.wp (grow (alloc f) need) (fun _ K' => K'.indexed = K₁.indexed ∧
      K₁.heap.hAddrEnd ≤ K'.heap.hAddrEnd ∧ K'.view.word (hole + 8) = K₁.view.word (hole + 8) +
        (K'.heap.hAddrEnd - K₁.heap.hAddrEnd)) (fun _ => True) K := by
    refine wp_grow_of f h some fits tables (fun _ _ => trivial) ?_
    rintro K₂ bs₂ hi ran₂ pages reach longer -
    obtain rfl : K₂ = K₁ := by
      rw [ran₂] at added
      exact congrArg Prod.snd (Except.ok.inj added)
    refine wp_giveGrowth pages.grown.inv (fun empty => ?_) fun other listed' largest' => ?_
    · rw [empty] at listed
      cases listed
    · obtain rfl : other = hole := Nat.le_antisymm (largest other listed') (largest' hole listed)
      refine Program.wp_mono (wp_growthToHole_size pages.grown.inv listed longer (by omega)
        pages.mapped) ?_ fun _ h => h
      rintro _ K₃ ⟨same, rfl, size⟩
      exact ⟨same, Nat.le_of_lt longer, size⟩
  obtain ⟨same, longer, size⟩ := Program.wp_ok grows ran
  -- the hole at the new end is the highest one of the index
  obtain ⟨b, member, dead, ending⟩ := covered.ends
  obtain ⟨a, z, live⟩ := b
  obtain rfl : live = none := dead
  have low : a ≤ hole := largest a (same ▸ covered.index.mem_iff.mpr (mem_holes.mpr ⟨z, member⟩))
  obtain ⟨s, at_hole⟩ := mem_holes.mp (covered.index.mem_iff.mp (same ▸ listed))
  have tagged := covered.blocks.tagged _ at_hole
  have big := tagged.big
  have bounds := covered.blocks.bounds at_hole
  have header := tagged.header.size
  dsimp only at big bounds header ending
  rcases covered.blocks.tiles.eq_or_disjoint member at_hole with one | before | after
  · obtain ⟨rfl, rfl, -⟩ := Block.mk.inj one
    omega
  · dsimp only at before
    omega
  · dsimp only at after
    omega

/-- A growth of a heap that ends in a hole, or has none. -/
theorem wp_grow_covered (f : Nat) (h : HeapInv K bs) (some : 0 < need)
    (fits : K.heap.hAddrStart + expandedLength K need < 4294967296)
    (tables : TablesServed Resize.any (expandedLength K need)
      (K.heap.hAddrEnd - K.heap.hAddrStart) K)
    (last : ∀ K₁, addPages f need K K = .ok ((), K₁) → EndsInHole K₁) :
    Program.wp (grow (alloc f) need) (fun _ K' => ∃ bs', GrowthCovered K K' bs bs') (fun _ => True)
      K := by
  refine Program.wp_mono (wp_growBy f h some fits tables fun K₁ ran hole listed largest =>
    ⟨last K₁ ran hole listed largest, trivial⟩) ?_ fun _ _ => trivial
  rintro _ K' ⟨K₁, bs₁, bs', added, more, lengthened, longer, same⟩
  have grown := added.grown
  have taken : TablesTaken K K' bs bs₁ := {
    kept := fun b mem live => (grown.kept b mem live).mem
    live := same ▸ grown.live
    same := same ▸ added.blocks }
  exact ⟨bs', more.start.trans grown.start, longer, more.inv.blocks, more.inv.index, bs₁, taken,
    lengthened⟩

/-- The length of the heap after a growth fits below the end of the address space, the
page tables that the new pages lack are served, and the hole with the highest address
ends the heap when it moves, or there is no hole. -/
structure Extensible (f need : Nat) (K : KState) : Prop where
  fits : K.heap.hAddrStart + expandedLength K need < 4294967296
  tables : TablesServed Resize.any (expandedLength K need) (K.heap.hAddrEnd - K.heap.hAddrStart) K
  last : ∀ K₁, addPages f need K K = .ok ((), K₁) → EndsInHole K₁

/-! ## Page tables that are there -/

/-- Where the end of the heap is a matter of its blocks. -/
theorem EndsInHole.congr {K₁ : KState} (ends : EndsInHole K) (h : HeapInv K bs) (h₁ : HeapInv K₁ bs)
    (same : K₁.heap.hAddrEnd = K.heap.hAddrEnd) : EndsInHole K₁ := by
  intro hole listed largest
  have perm : K₁.indexed.Perm K.indexed := h₁.index.trans h.index.symm
  have size : K₁.view.word (hole + 8) = K.view.word (hole + 8) := by
    have block := h.blocks.eq_of_addr (h₁.hole_of_indexed listed)
      (h.hole_of_indexed (perm.mem_iff.mp listed)) rfl
    exact congrArg Block.size block
  rw [size, same]
  exact ends hole (perm.mem_iff.mp listed) fun x mem => largest x (perm.mem_iff.mpr mem)

/-- A page whose table exists takes no other. -/
theorem expandPage_present {i : Nat}
    (present : K.dir.tableAt (pagePtr (add32 K.heap.hAddrStart i)).table ≠ none) :
    Program.wp (expandPage (alloc f) i) (fun _ K' => K'.heap = K.heap ∧
      ∀ t, K'.dir.tableAt t = K.dir.tableAt t) (fun _ => True) K := by
  have table : (K.dir.pdTables (add32 K.heap.hAddrStart i / 0x1000 / 1024)).isSome = true := by
    rw [Ne, tableAt_eq_none] at present
    exact Option.isSome_iff_ne_none.mpr present
  rw [expandPage, Program.wp_bind, Program.wp_get, Program.wp_bind, kernelPage, getPage,
    Program.wp_bind, Program.wp_get, if_pos table, Program.wp_pure]
  unfold Program.wp allocFramePage
  dsimp only
  cases K.dir.page (pagePtr (add32 K.heap.hAddrStart i)) with
  | none => trivial
  | some v =>
      dsimp only
      cases allocFrame K.bits v K.heap.hSu K.heap.hRo with
      | error e => trivial
      | ok r => exact ⟨rfl, fun t => tableAt_setPage _ _ _ _⟩

theorem tablesServed_of_present {R : Resize} {newSize i : Nat}
    (fits : K.heap.hAddrStart + newSize < 4294967296)
    (present : ∀ j, i ≤ j → j < newSize →
      K.dir.tableAt (pagePtr (K.heap.hAddrStart + j)).table ≠ none) : TablesServed R newSize i K := by
  generalize left : newSize - i = n
  induction n using Nat.strongRecOn generalizing K i with
  | ind n ih =>
      by_cases more : i < newSize
      · refine .page (fun missing => absurd missing (present i (Nat.le_refl i) more)) fun f K' ran => ?_
        have here := present i (Nat.le_refl i) more
        rw [← add32_eq (a := K.heap.hAddrStart) (b := i) (by omega)] at here
        obtain ⟨same, tables⟩ := Program.wp_ok (expandPage_present here) ran
        refine ih (newSize - (i + 0x1000)) (by omega) ?_ (fun j le less => ?_) rfl
        · rw [same]
          exact fits
        · rw [same, tables]
          exact present j (by omega) less
      · exact .done (by omega)

theorem expandLoop_present {newSize : Nat} (n i : Nat)
    (fits : K.heap.hAddrStart + newSize < 4294967296)
    (present : ∀ j, i ≤ j → j < newSize →
      K.dir.tableAt (pagePtr (K.heap.hAddrStart + j)).table ≠ none) :
    Program.wp (expandLoop (alloc f) newSize n i) (fun _ K' => K'.heap = K.heap ∧
      ∀ t, K'.dir.tableAt t = K.dir.tableAt t) (fun _ => True) K := by
  induction n generalizing K i with
  | zero => exact ⟨rfl, fun _ => rfl⟩
  | succ n ih =>
      rw [expandLoop, Program.wp_ite]
      refine ⟨fun more => ?_, fun _ => ⟨rfl, fun _ => rfl⟩⟩
      have here := present i (Nat.le_refl i) more
      rw [← add32_eq (a := K.heap.hAddrStart) (b := i) (by omega)] at here
      refine Program.wp_bind_of (expandPage_present here) ?_
      rintro ⟨⟩ K₁ ⟨same, tables⟩
      refine Program.wp_mono (ih (i + 0x1000) ?_ fun j le less => ?_) ?_ fun _ h => h
      · rw [same]
        exact fits
      · rw [same, tables]
        exact present j (by omega) less
      · rintro _ K₂ ⟨same₂, tables₂⟩
        exact ⟨same₂.trans same, fun t => (tables₂ t).trans (tables t)⟩

/-- With its page tables there, a growth leaves the blocks below the old end alone. -/
theorem inv_of_present (h : HeapInv K bs)
    (fits : K.heap.hAddrStart + expandedLength K need < 4294967296)
    (present : ∀ a, K.heap.hAddrEnd ≤ a → a < K.heap.hAddrStart + expandedLength K need →
      K.dir.tableAt (pagePtr a).table ≠ none) {K₁ : KState}
    (added : addPages f need K K = .ok ((), K₁)) :
    HeapInv K₁ bs ∧ K₁.heap.hAddrEnd = K.heap.hAddrEnd := by
  have less := h.nonempty
  have there : ∀ j, K.heap.hAddrEnd - K.heap.hAddrStart ≤ j → j < expandedLength K need →
      K.dir.tableAt (pagePtr (K.heap.hAddrStart + j)).table ≠ none :=
    fun j _ _ => present _ (by omega) (by omega)
  obtain ⟨bs₁, pages⟩ := Program.wp_ok
    (wp_addPages f h fits (tablesServed_of_present (R := Resize.any) fits there)) added
  obtain ⟨-, tables⟩ := Program.wp_ok (expandLoop_present _ _ fits there) added
  obtain rfl := pages.blocks tables
  exact ⟨pages.grown.inv, pages.end_⟩

theorem served_of_present (h : HeapInv K bs)
    (fits : K.heap.hAddrStart + expandedLength K need < 4294967296)
    (present : ∀ a, K.heap.hAddrEnd ≤ a → a < K.heap.hAddrStart + expandedLength K need →
      K.dir.tableAt (pagePtr a).table ≠ none) :
    TablesServed Resize.any (expandedLength K need) (K.heap.hAddrEnd - K.heap.hAddrStart) K := by
  have less := h.nonempty
  exact tablesServed_of_present fits fun j _ _ => present _ (by omega) (by omega)

/-- The condition on the heap itself, when no page table is missing. -/
theorem extensible_of_present (h : HeapInv K bs)
    (fits : K.heap.hAddrStart + expandedLength K need < 4294967296)
    (present : ∀ a, K.heap.hAddrEnd ≤ a → a < K.heap.hAddrStart + expandedLength K need →
      K.dir.tableAt (pagePtr a).table ≠ none) (ends : EndsInHole K) : Extensible f need K := by
  refine ⟨fits, served_of_present h fits present, fun K₁ added => ?_⟩
  obtain ⟨inv, same⟩ := inv_of_present h fits present added
  exact ends.congr h inv same

/-- A growth that goes wrong, with its page tables there. -/
theorem not_covered_of_present (h : HeapInv K bs) (some : 0 < need)
    (fits : K.heap.hAddrStart + expandedLength K need < 4294967296)
    (present : ∀ a, K.heap.hAddrEnd ≤ a → a < K.heap.hAddrStart + expandedLength K need →
      K.dir.tableAt (pagePtr a).table ≠ none) (ends : ¬EndsInHole K) {K₁ : KState}
    (added : addPages f need K K = .ok ((), K₁)) (ran : grow (alloc f) need K = .ok ((), K')) :
    ¬GrowthCovered K K' bs bs' := by
  intro covered
  obtain ⟨inv, same⟩ := inv_of_present h fits present added
  have last := endsInHole_of_covered h some fits (served_of_present h fits present) ran covered added
  exact ends (last.congr inv h same.symm)

/-- The growth path of `alloc` covers new memory only when the heap is `Extensible`, and,
its page tables being served, in no other case. -/
theorem grow_covered_iff {size : Nat} (h : HeapInv K bs)
    (ran : grow (alloc f) (add32 (add32 size sizeofHeader) sizeofFooter) K = .ok ((), K')) :
    (Extensible f (add32 (add32 size sizeofHeader) sizeofFooter) K →
      ∃ bs', GrowthCovered K K' bs bs') ∧
    (TablesServed Resize.any (expandedLength K (add32 (add32 size sizeofHeader) sizeofFooter))
        (K.heap.hAddrEnd - K.heap.hAddrStart) K → (∃ bs', GrowthCovered K K' bs bs') →
      Extensible f (add32 (add32 size sizeofHeader) sizeofFooter) K) := by
  have small := add32_lt (add32 size sizeofHeader) sizeofFooter
  constructor
  · intro sound
    obtain ⟨greater, -⟩ := Program.wp_ok (grow_end _ _) ran
    have some : 0 < add32 (add32 size sizeofHeader) sizeofFooter := by
      unfold add32 at greater ⊢
      omega
    have covered := Program.wp_ok (wp_grow_covered f h some sound.fits sound.tables sound.last) ran
    exact covered
  · rintro tables ⟨bs', covered⟩
    obtain ⟨some, fits⟩ := fits_of_longer h small ran covered.longer
    exact ⟨fits, tables, fun K₁ added => endsInHole_of_covered h some fits tables ran covered added⟩

end Covered

/-- The pages behind the initial heap belong to its first page table. -/
theorem present_behind_boot {K : KState} {need : Nat} (start : K.heap.hAddrStart = 0xC0081000)
    (stop : K.heap.hAddrEnd = 0xC0100000) (table : K.dir.tableAt 0x300 ≠ none)
    (less : expandedLength K need ≤ 0x37F000) (a : Nat) (h1 : K.heap.hAddrEnd ≤ a)
    (h2 : a < K.heap.hAddrStart + expandedLength K need) :
    K.dir.tableAt (pagePtr a).table ≠ none := by
  have slot : (pagePtr a).table = 0x300 := by
    dsimp only [pagePtr]
    omega
  rw [slot]
  exact table

/-- A small block in front of the hole that ends the heap. -/
theorem grow_covered_behind_block :
    ∃ K K' bs bs', grow (alloc 0) (add32 (add32 0x7F000 sizeofHeader) sizeofFooter) K = .ok ((), K') ∧
      GrowthCovered K K' bs bs' ∧ bs.length = 2 ∧ K.fit 0x7F000 false = none := by
  have ran : ((([.alloc 100 false] : List HeapOp).foldlM
      (HeapState.nextSound Resize.any 1) bootHeap).map fun s =>
        decide (tags s.kernel.view s.kernel.heap.hAddrEnd 3 s.kernel.heap.hAddrStart =
            some [(0xC0081000, 0, 120), (0xC0081078, 1, 520072)] ∧
          TagsFooted s.kernel.view [(0xC0081000, 0, 120), (0xC0081078, 1, 520072)] ∧
          (s.kernel.heap.hAddrStart, s.kernel.heap.hAddrEnd) = (0xC0081000, 0xC0100000) ∧
          s.kernel.dir.tableAt 0x300 ≠ none ∧ EndsInHole s.kernel ∧ s.kernel.fit 0x7F000 false = none ∧
          (grow (alloc 0) (add32 (add32 0x7F000 sizeofHeader) sizeofFooter)
            s.kernel).toOption.isSome)) = some true := by
    decide +kernel
  obtain ⟨s, taken, shape⟩ := Option.map_eq_some_iff.mp ran
  obtain ⟨read, checked, limits, table, ends, missing, returns⟩ := of_decide_eq_true shape
  obtain ⟨start, stop⟩ := Prod.mk.inj limits
  obtain ⟨⟨⟨⟩, K'⟩, returns⟩ := Option.isSome_iff_exists.mp returns
  have ran := Program.ok_of_toOption returns
  obtain ⟨bs, inv, -, listed⟩ := inv_of_run taken read checked
  have length : expandedLength s.kernel (add32 (add32 0x7F000 sizeofHeader) sizeofFooter) =
      0xFF000 := by
    rw [expandedLength, start, stop]
    rfl
  have sound : Extensible 0 (add32 (add32 0x7F000 sizeofHeader) sizeofFooter) s.kernel :=
    extensible_of_present inv (by rw [start, length]; decide)
      (present_behind_boot start stop table (by rw [length]; decide)) ends
  obtain ⟨bs', covered⟩ := (grow_covered_iff inv ran).1 sound
  exact ⟨s.kernel, K', bs, bs', ran, covered, by simpa using congrArg List.length listed, missing⟩

/-- A hole in front, and a live block that ends the heap: the hole grows over it. -/
theorem growth_over_live_block :
    ∃ K K' bs, HeapInv K bs ∧ K.fit 1000 false = none ∧
      grow (alloc 0) (add32 (add32 1000 sizeofHeader) sizeofFooter) K = .ok ((), K') ∧
      (∃ b ∈ bs, b.live ≠ none ∧ b.addr + b.size = K.heap.hAddrEnd) ∧
      ∀ bs', ¬GrowthCovered K K' bs bs' := by
  have ran : ((([.alloc 100 false, .alloc 520052 false, .free 0xC008100C] : List HeapOp).foldlM
      (HeapState.nextSound Resize.any 1) bootHeap).map fun s =>
        decide (tags s.kernel.view s.kernel.heap.hAddrEnd 3 s.kernel.heap.hAddrStart =
            some [(0xC0081000, 1, 120), (0xC0081078, 0, 520072)] ∧
          TagsFooted s.kernel.view [(0xC0081000, 1, 120), (0xC0081078, 0, 520072)] ∧
          (s.kernel.heap.hAddrStart, s.kernel.heap.hAddrEnd) = (0xC0081000, 0xC0100000) ∧
          s.kernel.dir.tableAt 0x300 ≠ none ∧ ¬EndsInHole s.kernel ∧ s.kernel.fit 1000 false = none ∧
          (addPages 0 (add32 (add32 1000 sizeofHeader) sizeofFooter) s.kernel
            s.kernel).toOption.isSome ∧
          (grow (alloc 0) (add32 (add32 1000 sizeofHeader) sizeofFooter)
            s.kernel).toOption.isSome)) = some true := by
    decide +kernel
  obtain ⟨s, taken, shape⟩ := Option.map_eq_some_iff.mp ran
  obtain ⟨read, checked, limits, table, ends, missing, adds, returns⟩ := of_decide_eq_true shape
  obtain ⟨start, stop⟩ := Prod.mk.inj limits
  obtain ⟨⟨⟨⟩, K₁⟩, adds⟩ := Option.isSome_iff_exists.mp adds
  obtain ⟨⟨⟨⟩, K'⟩, returns⟩ := Option.isSome_iff_exists.mp returns
  have added := Program.ok_of_toOption adds
  have ran := Program.ok_of_toOption returns
  obtain ⟨bs, inv, -, listed⟩ := inv_of_run taken read checked
  have length : expandedLength s.kernel (add32 (add32 1000 sizeofHeader) sizeofFooter) =
      0x80000 := by
    rw [expandedLength, start, stop]
    rfl
  have fits : s.kernel.heap.hAddrStart +
      expandedLength s.kernel (add32 (add32 1000 sizeofHeader) sizeofFooter) < 4294967296 := by
    rw [start, length]
    decide
  have present := present_behind_boot start stop table (by rw [length]; decide)
  refine ⟨s.kernel, K', bs, inv, missing, ran, ?_, fun bs' covered => ?_⟩
  · obtain ⟨b₁, bs, rfl, -, listed⟩ := List.map_eq_cons_iff.mp listed
    obtain ⟨b₂, bs, rfl, tag₂, -⟩ := List.map_eq_cons_iff.mp listed
    obtain ⟨r, rfl⟩ := eq_of_tags_live tag₂
    refine ⟨_, List.mem_cons_of_mem _ List.mem_cons_self, by simp, ?_⟩
    dsimp only
    rw [stop]
  · exact not_covered_of_present inv (by decide) fits present ends added ran covered

end MiniKernel.Kernel
