/-
# Kernel.HeapBestFit -- the order of the hole index

The index is sorted by the sizes of the holes, so the first hole that fits is a
smallest one.  Only an insertion sorts.  A hole that is resized where it is (the
padding of an aligned block, a growth, a merge to the left and the contraction
behind it) stays in its cell; the order survives when its new size lies `Between`
those of its neighbours, which no step checks.

`AllocRanked` asks this of `alloc` before it changes anything.  A growth resizes the
hole at the end of the heap after the page tables were taken, so each of them has to
leave that hole behind the others (`TableRanked`).
-/
import MiniKernel.Kernel.HeapEnds

namespace MiniKernel.Kernel

open Theory VmPageDirectory

set_option autoImplicit false

/-! ## Neighbours in the index -/

/-- The new size of the hole at `h` lies between those of its neighbours in the index. -/
structure Between (m : Mem) (l : List Nat) (h size : Nat) : Prop where
  below : ∀ a ∈ l, [a, h] <:+: l → m.word (a + 8) ≤ size
  above : ∀ b ∈ l, [h, b] <:+: l → size ≤ m.word (b + 8)

instance (m : Mem) (l : List Nat) (h size : Nat) : Decidable (Between m l h size) :=
  decidable_of_iff ((∀ a ∈ l, [a, h] <:+: l → m.word (a + 8) ≤ size) ∧
      ∀ b ∈ l, [h, b] <:+: l → size ≤ m.word (b + 8))
    ⟨fun h => ⟨h.1, h.2⟩, fun h => ⟨h.below, h.above⟩⟩

theorem between_orders : Resize.Orders Between := fun _ _ _ _ sorted nodup between =>
  rekey_sorted sorted nodup between.below between.above

theorem Between.congr {m m' : Mem} {l : List Nat} {h size : Nat} (between : Between m l h size)
    (same : ∀ a ∈ l, m'.word (a + 8) = m.word (a + 8)) : Between m' l h size where
  below a mem next := by
    rw [same a mem]
    exact between.below a mem next
  above b mem next := by
    rw [same b mem]
    exact between.above b mem next

/-- The last hole of the index may become larger. -/
theorem between_of_last {m : Mem} {l : List Nat} {h size : Nat} (sorted : SortedBySize m l)
    (nodup : l.Nodup) (last : l.getLast? = some h) (larger : m.word (h + 8) ≤ size) :
    Between m l h size where
  below a _ next := by
    have pair := List.Pairwise.sublist next.sublist sorted
    have le := (List.pairwise_cons.mp pair).1 h (List.mem_singleton_self h)
    exact Nat.le_trans le larger
  above b _ next := by
    obtain ⟨front, back, rfl⟩ := next
    have split : front ++ [h, b] ++ back = (front ++ [h]) ++ (b :: back) := by simp
    rw [split, List.getLast?_append, List.getLast?_cons] at last
    rw [split, List.nodup_append] at nodup
    have behind : h ∈ b :: back := by
      have here : (b :: back).getLast? = some h := by
        rw [List.getLast?_cons]
        simpa using last
      exact List.mem_of_getLast? here
    exact absurd rfl (nodup.2.2 h (by simp) h behind)

/-! ## Growth -/

/-- The hole with the highest address is the last one of the index; it stays so when the page
table is taken from it, since what is left is larger than the padding. -/
structure TableRanked (K : KState) : Prop where
  served : Served Between K 0x1000 true
  last : ∃ e, K.indexed.getLast? = some e ∧ (∀ x ∈ K.indexed, x ≤ e) ∧
    (K.fit 0x1000 true = some e → paddingSize e + (paddingSize e + 0x1000 + 20) <
      K.view.word (e + 8))

/-- Each page table that the loop of `expand` finds missing, from page `i` on, keeps the order. -/
inductive TablesRanked (newSize : Nat) : Nat → KState → Prop where
  | done {i : Nat} {K : KState} (done : newSize ≤ i) : TablesRanked newSize i K
  | page {i : Nat} {K : KState}
      (here : K.dir.tableAt (pagePtr (K.heap.hAddrStart + i)).table = none → TableRanked K)
      (next : ∀ f K', expandPage (alloc f) i K = .ok ((), K') →
        TablesRanked newSize (i + 0x1000) K') : TablesRanked newSize i K

theorem TablesRanked.served {newSize i : Nat} {K : KState} (ranked : TablesRanked newSize i K) :
    TablesServed Between newSize i K := by
  induction ranked with
  | done done => exact .done done
  | page here _ ih => exact .page (fun missing => (here missing).served) ih

/-- When a growth for `size` bytes keeps the order. -/
structure GrowRanked (size : Nat) (K : KState) : Prop where
  fits : K.heap.hAddrStart + grownLength K size < 4294967296
  last : TakesGrowth Between (grownLength K size) K
  tables : TablesRanked (grownLength K size) (K.heap.hAddrEnd - K.heap.hAddrStart) K

section Growth

variable {K K' : KState} {bs bs' : List Block} {newLength i : Nat}

theorem TakesGrowth.congr (takes : TakesGrowth Between newLength K) (same : SameIndex K K')
    (start : K'.heap.hAddrStart = K.heap.hAddrStart) (end_ : K'.heap.hAddrEnd = K.heap.hAddrEnd) :
    TakesGrowth Between newLength K' := by
  intro h listed largest
  rw [same.list] at listed largest ⊢
  obtain ⟨ends, between⟩ := takes h listed largest
  rw [start, end_, same.sizes h listed]
  exact ⟨ends, between.congr same.sizes⟩

/-- The hole at the end of the heap is the last one of the index, and may take the growth. -/
theorem takesGrowth_of_last {e : Nat} (h : HeapInv K bs) (ordered : Ordered K)
    (longer : K.heap.hAddrEnd ≤ K.heap.hAddrStart + newLength)
    (last : K.indexed.getLast? = some e) (endmost : ∀ x ∈ K.indexed, x ≤ e)
    (ends : e + K.view.word (e + 8) = K.heap.hAddrEnd) : TakesGrowth Between newLength K := by
  intro h' listed largest
  obtain rfl : h' = e :=
    Nat.le_antisymm (endmost h' listed) (largest e (List.mem_of_getLast? last))
  exact ⟨ends, between_of_last ordered h.nodup last (by omega)⟩

/-- In a sorted index the last hole is a largest one. -/
theorem size_le_last {m : Mem} {l : List Nat} {x e : Nat} (sorted : SortedBySize m l)
    (last : l.getLast? = some e) (mem : x ∈ l) : m.word (x + 8) ≤ m.word (e + 8) := by
  obtain ⟨init, rfl⟩ := List.getLast?_eq_some_iff.mp last
  rcases List.mem_append.mp mem with mem | mem
  · exact (List.pairwise_append.mp sorted).2.2 x mem e (List.mem_singleton_self e)
  · rw [List.mem_singleton.mp mem]

section Padded

variable {hole e : Nat}

/-- The page table is taken from another hole. -/
theorem takesGrowth_beside (h : HeapInv K bs) (inv : HeapInv K' bs') (ordered : Ordered K)
    (ordered' : Ordered K') (longer : K'.heap.hAddrEnd ≤ K'.heap.hAddrStart + newLength)
    (last : K.indexed.getLast? = some e) (endmost : ∀ x ∈ K.indexed, x ≤ e)
    (ends : e + K.view.word (e + 8) = K'.heap.hAddrEnd) (listed : hole ∈ K.indexed)
    (other : hole ≠ e) (room : paddingSize hole + 0x1000 + 20 ≤ K.view.word (hole + 8))
    (padded : PaddedFrom K K' hole 0x1000) : TakesGrowth Between newLength K' := by
  have e_listed := List.mem_of_getLast? last
  have member := h.hole_of_indexed e_listed
  have big := (h.blocks.tagged _ member).big
  have le := endmost hole listed
  have before : hole + K.view.word (hole + 8) ≤ e := by
    rcases h.blocks.tiles.eq_or_disjoint (h.hole_of_indexed listed) member with same | less | more
    · exact absurd (congrArg Block.addr same) other
    · exact less
    · dsimp only at more big
      omega
  have smaller := size_le_last ordered last listed
  have size := padded.others e e_listed other.symm
  obtain ⟨-, list⟩ | ⟨k, rest, le, list, at_rest, left⟩ := padded.rest
  · rw [← list] at last endmost
    exact takesGrowth_of_last inv ordered' longer last endmost (by rw [size]; exact ends)
  · rcases insertIdx_last (a := rest) le last with behind | ⟨front, inside, -⟩
    · rw [Ordered, list, behind] at ordered'
      have least := (List.pairwise_append.mp ordered').2.2 e e_listed rest
        (List.mem_singleton_self rest)
      omega
    · refine takesGrowth_of_last inv ordered' longer (e := e) ?_ (fun x mem => ?_) ?_
      · rw [list, inside]
        simp
      · rw [list] at mem
        rcases (List.mem_insertIdx le).mp mem with rfl | mem
        · omega
        · exact endmost x mem
      · rw [size]
        exact ends

/-- The page table is taken from the hole at the end of the heap, whose rest is larger than the
padding. -/
theorem takesGrowth_behind (inv : HeapInv K' bs') (ordered' : Ordered K')
    (longer : K'.heap.hAddrEnd ≤ K'.heap.hAddrStart + newLength)
    (last : K.indexed.getLast? = some e) (endmost : ∀ x ∈ K.indexed, x ≤ e)
    (ends : e + K.view.word (e + 8) = K'.heap.hAddrEnd)
    (room : paddingSize e + (paddingSize e + 0x1000 + 20) < K.view.word (e + 8))
    (padded : PaddedFrom K K' e 0x1000) : TakesGrowth Between newLength K' := by
  obtain ⟨whole, -⟩ | ⟨k, rest, le, list, at_rest, left⟩ := padded.rest
  · omega
  · rcases insertIdx_last (a := rest) le last with behind | ⟨front, inside, mem⟩
    · refine takesGrowth_of_last inv ordered' longer (e := rest) ?_ (fun x mem => ?_) (by omega)
      · rw [list, behind]
        simp
      · rw [list] at mem
        rcases (List.mem_insertIdx le).mp mem with rfl | mem
        · exact Nat.le_refl _
        · have := endmost x mem
          omega
    · rw [Ordered, list, inside] at ordered'
      have least := (List.pairwise_append.mp ordered').2.2 rest mem e (List.mem_singleton_self e)
      have padding := padded.padding
      omega

end Padded

/-- A page of the loop leaves the hole at the end of the heap able to take the growth. -/
theorem takesGrowth_of_page (h : HeapInv K bs) (inv : HeapInv K' bs') (ordered : Ordered K)
    (ordered' : Ordered K') (takes : TakesGrowth Between newLength K)
    (longer : K.heap.hAddrEnd ≤ K.heap.hAddrStart + newLength)
    (ranked : K.dir.tableAt (pagePtr (K.heap.hAddrStart + i)).table = none → TableRanked K)
    (after : IndexAfterPage K K' i) (start : K'.heap.hAddrStart = K.heap.hAddrStart)
    (end_ : K'.heap.hAddrEnd = K.heap.hAddrEnd) : TakesGrowth Between newLength K' := by
  by_cases missing : K.dir.tableAt (pagePtr (K.heap.hAddrStart + i)).table = none
  · obtain ⟨hole, fit, padded⟩ := after.missing missing
    obtain ⟨⟨hole', fit', place, -⟩, e, last, endmost, rest⟩ := ranked missing
    obtain rfl : hole' = hole := Option.some.inj (fit'.symm.trans fit)
    obtain ⟨ends, -⟩ := takes e (List.mem_of_getLast? last) endmost
    rw [← end_] at ends
    rw [← start, ← end_] at longer
    by_cases taken : hole' = e
    · rw [taken] at fit padded
      exact takesGrowth_behind inv ordered' longer last endmost ends (rest fit) padded
    · have room := place.rest rfl
      exact takesGrowth_beside h inv ordered ordered' longer last endmost ends
        (List.mem_of_find?_eq_some fit) taken (by omega) padded
  · exact takes.congr (after.there missing) start end_

/-- The loop of `expand` does. -/
theorem wp_expandLoop_ranked (f n : Nat) (h : HeapInv K bs) (ordered : Ordered K)
    (mapped : Mapped K (K.heap.hAddrStart + i)) (le : K.heap.hAddrEnd ≤ K.heap.hAddrStart + i)
    (aligned : (K.heap.hAddrStart + i) % 0x1000 = 0)
    (top : K.heap.hAddrStart + newLength < 4294967296)
    (longer : K.heap.hAddrEnd ≤ K.heap.hAddrStart + newLength)
    (ranked : TablesRanked newLength i K) (takes : TakesGrowth Between newLength K) :
    Program.wp (expandLoop (alloc f) newLength n i)
      (fun _ K' => TakesGrowth Between newLength K') Exhausted K := by
  induction n generalizing K bs i with
  | zero => exact takes
  | succ n ih =>
      rw [expandLoop, Program.wp_ite]
      refine ⟨fun more => ?_, fun _ => takes⟩
      obtain done | ⟨here, next⟩ := ranked
      · omega
      refine Program.wp_bind_of (Program.wp_ran (wp_expandPage h f mapped le aligned (by omega)
        fun missing => (here missing).served)) ?_
      rintro ⟨⟩ K₁ ⟨ran, after, bs₁, added⟩
      have start := added.grown.start
      have ordered₁ := added.grown.ordered between_orders ordered
      refine ih added.grown.inv ordered₁ (i := i + 0x1000) ?_ ?_ ?_ ?_ ?_ (next f K₁ ran)
        (takesGrowth_of_page h added.grown.inv ordered ordered₁ takes longer here after start
          added.end_)
      · rw [start, ← Nat.add_assoc]
        exact added.mapped
      · rw [start, added.end_]
        omega
      · rw [start]
        omega
      · rw [start]
        exact top
      · rw [start, added.end_]
        exact longer

/-- What is asked of a growth before it begins is enough. -/
theorem GrowRanked.sound {size : Nat} (ranked : GrowRanked size K) (h : HeapInv K bs)
    (ordered : Ordered K) : GrowSound Between size K := by
  refine ⟨ranked.fits, ranked.tables.served, fun f K' ran => ?_⟩
  have more := lt_expandedLength K (size + 20)
  have less := h.nonempty
  have ends := h.endAligned
  rw [← grownLength_eq] at more
  have at_end : K.heap.hAddrStart + (K.heap.hAddrEnd - K.heap.hAddrStart) = K.heap.hAddrEnd :=
    Nat.add_sub_cancel' (Nat.le_of_lt less)
  have loop := wp_expandLoop_ranked f (grownLength K size / 0x1000 + 1) h ordered
    (by rw [at_end]; exact h.mapped) (Nat.le_of_eq at_end.symm) (by rw [at_end]; exact ends)
    ranked.fits (by omega) ranked.tables ranked.last
  have takes := Program.wp_ok loop ran
  exact takes

end Growth

/-! ## Runs -/

/-- When a call of `alloc` keeps the order. -/
inductive AllocRanked (size : Nat) (pageAlign : Bool) : KState → Prop where
  | served {K : KState} (here : Served Between K size pageAlign) : AllocRanked size pageAlign K
  | grown {K : KState} (missing : K.fit size pageAlign = none) (growth : GrowRanked size K)
      (retry : ∀ f K', grow (alloc f) (size + 20) K = .ok ((), K') →
        AllocRanked size pageAlign K') : AllocRanked size pageAlign K

theorem AllocRanked.sound {K : KState} {bs : List Block} {size : Nat} {pageAlign : Bool}
    (ranked : AllocRanked size pageAlign K) (h : HeapInv K bs) (ordered : Ordered K) :
    AllocSound Between size pageAlign K := by
  induction ranked generalizing bs with
  | served here => exact .served here
  | grown missing growth _ ih =>
      have sound := growth.sound h ordered
      refine .grown missing sound fun f K' ran => ?_
      obtain ⟨bs', grown⟩ := Program.wp_ok (wp_grow f h sound) ran
      exact ih f K' ran grown.inv (grown.ordered between_orders ordered)

/-- The steps of a run that keep the order. -/
def Ranked (s : HeapState) : HeapOp → Prop
  | .alloc size pageAlign => AllocRanked size pageAlign s.kernel
  | .free p => FreeSound Between (s.kernel.marked (p - 12)) (p - 12)
  | .write _ _ => True

theorem Ranked.sound {d : VmPageDirectory} {s : HeapState} {bs : List Block} {op : HeapOp}
    (ranked : Ranked s op) (h : RunInv d s bs) (ordered : Ordered s.kernel) : Sound Between s op := by
  cases op with
  | alloc size pageAlign => exact AllocRanked.sound ranked h.inv ordered
  | free p => exact ranked
  | write a v => trivial

/-- What `init_heap` leaves is in order. -/
theorem started_ordered {K : KState} {start end_ max : Nat} {su ro : Bool} {s : HeapState}
    (region : RegionMapped K start end_) (started : Started K start end_ max su ro s) :
    Ordered s.kernel := by
  obtain ⟨-, -, indexed, -⟩ := Program.wp_ok (wp_initHeap region max su ro) started.1
  rw [Ordered, indexed]
  exact List.pairwise_singleton _ _

/-! ## Best fit -/

/-- The first element that passes is the least one of those that pass. -/
theorem le_of_find?_eq_some {α : Type} {f : α → Nat} {l : List α} {p : α → Bool} {x y : α}
    (sorted : l.Pairwise fun a b => f a ≤ f b) (found : l.find? p = some x) (mem : y ∈ l)
    (passes : p y = true) : f x ≤ f y := by
  obtain ⟨-, before, after, rfl, none_before⟩ := List.find?_eq_some_iff_append.mp found
  rcases List.mem_append.mp mem with early | late
  · have fails := none_before y early
    rw [passes] at fails
    cases fails
  · rcases List.mem_cons.mp late with rfl | late
    · exact Nat.le_refl _
    · have rest := (List.pairwise_append.mp sorted).2.1
      exact (List.pairwise_cons.mp rest).1 y late

/-- The block at `p` was carved from a smallest hole that fits. -/
structure BestFit (K : KState) (size p : Nat) : Prop where
  listed : p - 12 ∈ K.indexed
  fits : size + 20 ≤ K.view.word (p - 12 + 8)
  least : ∀ h ∈ K.indexed, size + 20 ≤ K.view.word (h + 8) →
    K.view.word (p - 12 + 8) ≤ K.view.word (h + 8)

theorem bestFit_of_sorted {K K' : KState} {bs : List Block} {size fuel p : Nat}
    (h : HeapInv K bs) (ordered : Ordered K) (small : size + 20 < 4294967296)
    (present : K.fit size false ≠ none) (ran : alloc fuel size false K = .ok (p, K')) :
    BestFit K size p := by
  have need : add32 (add32 size sizeofHeader) sizeofFooter = size + 20 := by
    unfold add32 sizeofHeader sizeofFooter
    omega
  have plain : ¬false = true := Bool.false_ne_true
  obtain ⟨hole, fit⟩ := Option.ne_none_iff_exists'.mp present
  have passes := List.find?_some fit
  rw [need] at passes
  have fits : size + 20 ≤ K.view.word (hole + 8) := by simpa [holeFits] using passes
  cases fuel with
  | zero => cases ran
  | succ n =>
      have served : Served Between K size false :=
        ⟨hole, fit, ⟨fits, fun aligned => absurd aligned plain, fun aligned => absurd aligned plain⟩,
          fun aligned => absurd aligned plain⟩
      obtain ⟨-, -, -, -, here, -⟩ := Program.wp_ok (wp_alloc_served h n served) ran
      obtain rfl : hole = p - 12 := Option.some.inj (fit.symm.trans (here rfl))
      refine ⟨List.mem_of_find?_eq_some fit, fits, fun a listed large => ?_⟩
      refine le_of_find?_eq_some (f := fun a => K.view.word (a + 8)) ordered fit listed ?_
      rw [need]
      simpa [holeFits] using large

/-- In every run whose steps resize holes between their neighbours only, the index is
sorted, and an allocation that does not grow the heap is a best fit. -/
theorem bestFit_of_ranked_run {K : KState} {start end_ max : Nat} {su ro : Bool}
    {s₀ s : HeapState} (region : RegionMapped K start end_)
    (started : Started K start end_ max su ro s₀) (reached : Reaches HeapStep Ranked s₀ s) :
    SortedBySize s.kernel.view s.kernel.indexed ∧
      ∀ size fuel p K', size + 20 < 4294967296 → s.kernel.fit size false ≠ none →
        alloc fuel size false s.kernel = .ok (p, K') → BestFit s.kernel size p := by
  have states : ∃ bs, RunInv s₀.kernel.dir s bs ∧ Ordered s.kernel := by
    refine reached.invariant (I := fun s => ∃ bs, RunInv s₀.kernel.dir s bs ∧ Ordered s.kernel)
      ⟨_, started_runInv region started, started_ordered region started⟩ ?_
    rintro s op s' ⟨bs, inv, ordered⟩ ranked step
    obtain ⟨bs', inv', -, keeps⟩ := step_runInv inv (ranked.sound inv ordered) step
    exact ⟨bs', inv', keeps between_orders ordered⟩
  obtain ⟨bs, inv, ordered⟩ := states
  exact ⟨ordered, fun size fuel p K' small present ran =>
    bestFit_of_sorted inv.inv ordered small present ran⟩

/-! ## Runs that are computed -/

section Slot

variable {K : KState} {newSize t : Nat}

/-- Where the new pages share a page table that is there, `expand` takes none. -/
theorem tablesRanked_of_slot (n : Nat) {i : Nat} (enough : newSize ≤ i + n * 0x1000)
    (top : K.heap.hAddrStart + newSize < 4294967296) (there : K.dir.tableAt t ≠ none)
    (slot : ∀ j, i ≤ j → j < newSize → (pagePtr (K.heap.hAddrStart + j)).table = t) :
    TablesRanked newSize i K := by
  induction n generalizing K i with
  | zero => exact .done (by omega)
  | succ n ih =>
      rcases Nat.lt_or_ge i newSize with more | done
      · refine .page (fun missing => ?_) fun f K' ran => ?_
        · rw [slot i (Nat.le_refl i) more] at missing
          exact absurd missing there
        · obtain ⟨table, start⟩ := expandPage_table ran
          have here := slot i (Nat.le_refl i) more
          refine ih (by omega) (by rw [start]; exact top) ?_ fun j le less => ?_
          · rw [HasTable, start, add32_eq (by omega), Option.isSome_iff_ne_none] at table
            rw [← here, Ne, tableAt_eq_none]
            exact table
          · rw [start]
            exact slot j (by omega) less
      · exact .done done

end Slot

instance (newLength : Nat) (K : KState) : Decidable (TakesGrowth Between newLength K) :=
  inferInstanceAs (Decidable (∀ h ∈ K.indexed, (∀ x ∈ K.indexed, x ≤ h) →
    h + K.view.word (h + 8) = K.heap.hAddrEnd ∧
      Between K.view K.indexed h (K.heap.hAddrStart + newLength - h)))

/-- One growth, all of whose pages share a page table that is there, makes room for the block. -/
structure GrowsInSlot (size : Nat) (pageAlign : Bool) (K : KState) : Prop where
  nonempty : K.heap.hAddrStart < K.heap.hAddrEnd
  missing : K.fit size pageAlign = none
  fits : K.heap.hAddrStart + grownLength K size < 4294967296
  last : TakesGrowth Between (grownLength K size) K
  there : K.dir.tableAt (pagePtr K.heap.hAddrEnd).table ≠ none
  slot : (pagePtr (K.heap.hAddrStart + grownLength K size - 1)).table =
    (pagePtr K.heap.hAddrEnd).table
  grown : ∃ K' ∈ (grow (alloc 0) (size + 20) K).toOption.map Prod.snd,
    Served Between K' size pageAlign

instance (size : Nat) (pageAlign : Bool) (K : KState) : Decidable (GrowsInSlot size pageAlign K) :=
  decidable_of_iff (K.heap.hAddrStart < K.heap.hAddrEnd ∧ K.fit size pageAlign = none ∧
      K.heap.hAddrStart + grownLength K size < 4294967296 ∧
      TakesGrowth Between (grownLength K size) K ∧
      K.dir.tableAt (pagePtr K.heap.hAddrEnd).table ≠ none ∧
      (pagePtr (K.heap.hAddrStart + grownLength K size - 1)).table =
        (pagePtr K.heap.hAddrEnd).table ∧
      ∃ K' ∈ (grow (alloc 0) (size + 20) K).toOption.map Prod.snd, Served Between K' size pageAlign)
    ⟨fun ⟨nonempty, missing, fits, last, there, slot, grown⟩ =>
        ⟨nonempty, missing, fits, last, there, slot, grown⟩,
      fun h => ⟨h.nonempty, h.missing, h.fits, h.last, h.there, h.slot, h.grown⟩⟩

theorem GrowsInSlot.ranked {K : KState} {size : Nat} {pageAlign : Bool}
    (grows : GrowsInSlot size pageAlign K) : AllocRanked size pageAlign K := by
  have nonempty := grows.nonempty
  have more := lt_expandedLength K (size + 20)
  have fits := grows.fits
  have last_slot := grows.slot
  rw [← grownLength_eq] at more
  refine .grown grows.missing ⟨fits, grows.last, ?_⟩ fun f K' ran => ?_
  · refine tablesRanked_of_slot (grownLength K size) (by omega) fits grows.there fun j le less => ?_
    dsimp only [pagePtr] at last_slot ⊢
    omega
  · obtain ⟨K₁, returned, served⟩ := grows.grown
    obtain ⟨r, ran₁, rfl⟩ := Option.map_eq_some_iff.mp returned
    have unrolls : Program.Unrolls Stop.fuel fun n => grow (alloc n) (size + 20) := fun n =>
      grow_below (fun len aligned => alloc_unrolls len aligned n) _
    have same := unrolls.unique (n := f) (m := 0) ran (Program.ok_of_toOption ran₁)
    rw [← same] at served
    exact .served served

/-- One step, computed, when it keeps the order. -/
def HeapState.nextRanked (fuel : Nat) (s : HeapState) : HeapOp → Option HeapState
  | .alloc size pageAlign =>
      if Served Between s.kernel size pageAlign ∨ GrowsInSlot size pageAlign s.kernel then
        s.next fuel (.alloc size pageAlign)
      else none
  | .free p =>
      if FreeSound Between (s.kernel.marked (p - 12)) (p - 12) then s.next fuel (.free p) else none
  | .write a v => s.next fuel (.write a v)

theorem HeapState.nextRanked_step {fuel : Nat} (s : HeapState) (op : HeapOp) (s' : HeapState)
    (taken : s.nextRanked fuel op = some s') : Ranked s op ∧ HeapStep s op s' := by
  cases op with
  | alloc size pageAlign =>
      simp only [nextRanked] at taken
      split at taken
      · rename_i ranked
        obtain served | grows := ranked
        · exact ⟨.served served, next_step taken⟩
        · exact ⟨grows.ranked, next_step taken⟩
      · cases taken
  | free p =>
      simp only [nextRanked] at taken
      split at taken
      · rename_i sound
        exact ⟨sound, next_step taken⟩
      · cases taken
  | write a v =>
      have taken : s.next fuel (.write a v) = some s' := taken
      exact ⟨trivial, next_step taken⟩

/-- An aligned block, one that leaves 8164 bytes at the end of the heap, one that the heap grows
for, and the aligned block freed: its padding becomes larger in the index, and so does the hole
that takes the growth. -/
theorem sorted_after_growth :
    ∃ s, Reaches HeapStep Ranked bootHeap s ∧
      s.kernel.indexed.map (fun h => s.kernel.view.word (h + 8)) = [8200, 12240] ∧
      SortedBySize s.kernel.view s.kernel.indexed := by
  have ran : ((([.alloc 0x1000 true, .alloc 0x7B000 false, .alloc 0x3000 false, .free 0xC0082000] :
      List HeapOp).foldlM (HeapState.nextRanked 3) bootHeap).map fun s =>
        s.kernel.indexed.map fun h => s.kernel.view.word (h + 8)) = some [8200, 12240] := by
    decide +kernel
  obtain ⟨s, taken, sizes⟩ := Option.map_eq_some_iff.mp ran
  have reached := Reaches.of_foldlM HeapState.nextRanked_step _ taken
  exact ⟨s, reached, sizes,
    (bestFit_of_ranked_run bootKState_regionMapped bootHeap_started reached).1⟩

/-- Two aligned blocks: the padding of the second one, 3976 bytes, stays in the cell
behind that of the first one, 4084 bytes. -/
theorem padding_breaks_the_order :
    ∃ s, Reachable HeapStep bootHeap s ∧ ¬SortedBySize s.kernel.view s.kernel.indexed := by
  have ran : ((([.alloc 100 true, .alloc 0x2000 true] : List HeapOp).foldlM
      (HeapState.next 1) bootHeap).map fun s =>
        s.kernel.indexed.map fun h => s.kernel.view.word (h + 8)) =
      some [4084, 3976, 503800] := by
    decide +kernel
  obtain ⟨s, taken, sizes⟩ := Option.map_eq_some_iff.mp ran
  refine ⟨s, HeapState.reachable_of_run taken, fun sorted => ?_⟩
  have ascending : ([4084, 3976, 503800] : List Nat).Pairwise (· ≤ ·) := by
    rw [← sizes]
    exact List.pairwise_map.mpr sorted
  exact absurd ascending (by decide)

end MiniKernel.Kernel
