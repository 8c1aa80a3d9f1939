/-
# Kernel.HeapIsolation -- what the clients of the heap and its index can rely on

`Isolated`: the live allocations do not overlap, lie inside the heap, and keep
their bytes when others come and go.  `Conserved`: the index lists every hole
once and nothing else, and holes and live blocks together are the whole heap.

Both hold in every state of a run of sound steps.  Two steps that are not sound,
one after the other, are enough to lose them: `contract` masks the new length
with 0x1000 before it compares it with the least length, so a hole that starts
at an odd page of the heap makes `free` cut the heap in front of that hole.
-/
import MiniKernel.Kernel.HeapRuns

namespace MiniKernel.Kernel

open Theory VmPageDirectory

set_option autoImplicit false

/-! ## Isolation -/

/-- No two live allocations overlap, and all are inside the heap. -/
structure Isolated (d : VmPageDirectory) (s : HeapState) : Prop where
  disjoint : (s.live d).Pairwise fun x y => x.1 + x.2 ≤ y.1 ∨ y.1 + y.2 ≤ x.1
  inside : ∀ p r, (p, r) ∈ s.live d →
    s.kernel.heap.hAddrStart ≤ p ∧ p + r ≤ s.kernel.heap.hAddrEnd

/-- A call of `alloc` or `free`. -/
def HeapOp.isCall : HeapOp → Bool
  | .write _ _ => false
  | _ => true

/-- No byte changes in an allocation that is live before and after. -/
def KeepsBytes (d : VmPageDirectory) (s s' : HeapState) : Prop :=
  ∀ p r, (p, r) ∈ s.live d → (p, r) ∈ s'.live d → ∀ a, p ≤ a → a < p + r →
    s'.kernel.view a = s.kernel.view a

theorem RunInv.isolated {d : VmPageDirectory} {s : HeapState} {bs : List Block}
    (h : RunInv d s bs) : Isolated d s where
  disjoint := by
    have apart := h.inv.blocks.liveRanges_pairwise.imp
      fun {x y : Nat × Nat} less => (.inl less.1 : x.1 + x.2 ≤ y.1 ∨ y.1 + y.2 ≤ x.1)
    exact h.live.pairwise apart fun {x y} either => Or.symm either
  inside := by
    intro p r held
    obtain ⟨a, z, rfl, member, fits⟩ := h.block held
    have bounds := h.inv.blocks.bounds member
    dsimp only at bounds
    omega

/-- A sound call keeps the bytes of the others. -/
theorem RunInv.keepsBytes {R : Resize} {d : VmPageDirectory} {s s' : HeapState} {bs : List Block}
    {op : HeapOp} (h : RunInv d s bs) (call : op.isCall = true) (sound : Sound R s op)
    (step : HeapStep s op s') : KeepsBytes d s s' := by
  cases step with
  | alloc ran =>
      obtain ⟨bs', stepped⟩ := alloc_stepped h sound ran
      exact stepped.bytes
  | free held ran =>
      obtain ⟨bs', stepped⟩ := free_stepped h held sound ran
      exact stepped.bytes
  | write held inside ran => cases call

/-- In every run of sound steps the clients are isolated. -/
theorem isolated_of_sound_run {K : KState} {start end_ max : Nat} {su ro : Bool}
    {s₀ s : HeapState} (region : RegionMapped K start end_)
    (started : Started K start end_ max su ro s₀)
    (reached : Reaches HeapStep (Sound Resize.any) s₀ s) :
    Isolated s₀.kernel.dir s ∧
      ∀ op s', op.isCall = true → Sound Resize.any s op → HeapStep s op s' →
        KeepsBytes s₀.kernel.dir s s' := by
  obtain ⟨bs, inv, -⟩ := run_runInv (started_runInv region started) reached
  exact ⟨inv.isolated, fun op s' call sound step => inv.keepsBytes call sound step⟩

/-- Two blocks, of which the first one is given back. -/
theorem isolated_after_three_calls :
    ∃ s, Reaches HeapStep (Sound Resize.any) bootHeap s ∧ s.clients.length = 1 ∧
      Isolated bootHeap.kernel.dir s := by
  have ran : ((([.alloc 100 false, .alloc 200 false, .free 0xC008100C] : List HeapOp).foldlM
      (HeapState.nextSound Resize.any 1) bootHeap).map fun s => s.clients.length) = some 1 := by
    decide +kernel
  obtain ⟨s, taken, one⟩ := Option.map_eq_some_iff.mp ran
  have reached := HeapState.reaches_of_run Resize.any taken
  exact ⟨s, reached, one,
    (isolated_of_sound_run bootKState_regionMapped bootHeap_started reached).1⟩

/-- A block of 0x71000 bytes, one behind it, and the second one is freed: the heap
ends inside the first one. -/
theorem contraction_cuts_live_block :
    ∃ s, Reachable HeapStep bootHeap s ∧ ¬Isolated bootHeap.kernel.dir s := by
  have ran : ((([.alloc (0x71000 - 20) false, .alloc 100 false, .free 0xC00F200C] : List HeapOp).foldlM
      (HeapState.next 1) bootHeap).map fun s => (s.clients, s.kernel.heap.hAddrEnd)) =
      some ([(0xC008100C, 0x71000 - 20)], 0xC00F1000) := by
    decide +kernel
  obtain ⟨s, taken, shape⟩ := Option.map_eq_some_iff.mp ran
  obtain ⟨clients, end_⟩ := Prod.mk.inj shape
  have reached : Reachable HeapStep bootHeap s := HeapState.reachable_of_run taken
  refine ⟨s, reached, fun isolated => ?_⟩
  have held : (0xC008100C, 0x71000 - 20) ∈ s.live bootHeap.kernel.dir := by
    rw [HeapState.live, clients]
    exact List.mem_append_left _ List.mem_cons_self
  have inside := (isolated.inside _ _ held).2
  rw [end_] at inside
  exact absurd inside (by decide)

/-! ## Conservation -/

/-- The index is the list of the holes, and nothing is lost. -/
structure Conserved (d : VmPageDirectory) (s : HeapState) (bs : List Block) : Prop where
  /-- Tagged blocks tile the heap. -/
  blocks : Blocks s.kernel.view s.kernel.heap.hAddrStart bs s.kernel.heap.hAddrEnd
  /-- The live ones are those of the clients and of the page tables. -/
  live : (liveRanges bs).Perm (s.live d)
  /-- Each hole is in the index once, and nothing else is. -/
  index : s.kernel.indexed.Perm (holes bs)
  nodup : s.kernel.indexed.Nodup
  sum : (s.kernel.indexed.map fun h => s.kernel.view.word (h + 8)).sum +
    ((s.live d).map fun c => s.kernel.view.word (c.1 - 12 + 8)).sum =
      s.kernel.heap.hAddrEnd - s.kernel.heap.hAddrStart

/-- The sizes in the headers of holes and live blocks add up to the heap. -/
theorem Blocks.sum_sizes {m : Mem} {lo hi : Nat} {bs : List Block} (h : Blocks m lo bs hi) :
    lo + (((holes bs).map fun a => m.word (a + 8)).sum +
      ((liveRanges bs).map fun c => m.word (c.1 - 12 + 8)).sum) = hi := by
  have sizes : ∀ bs : List Block, (∀ b ∈ bs, b.Tagged m) →
      ((holes bs).map fun a => m.word (a + 8)).sum +
        ((liveRanges bs).map fun c => m.word (c.1 - 12 + 8)).sum = (bs.map Block.size).sum := by
    intro bs tagged
    induction bs with
    | nil => rfl
    | cons b bs ih =>
        have rest := ih fun c mem => tagged c (List.mem_cons_of_mem _ mem)
        have size := (tagged b List.mem_cons_self).header.size
        obtain ⟨a, s, live⟩ := b
        dsimp only at size
        cases live with
        | none =>
            rw [holes_hole, liveRanges_hole, List.map_cons, List.sum_cons, List.map_cons,
              List.sum_cons, size, ← rest, Nat.add_assoc]
        | some r =>
            rw [holes_live, liveRanges_live, List.map_cons, List.sum_cons, List.map_cons,
              List.sum_cons, ← rest]
            dsimp only
            rw [Nat.add_sub_cancel, size]
            omega
  rw [sizes bs h.tagged]
  exact h.tiles.sum

theorem RunInv.conserved {d : VmPageDirectory} {s : HeapState} {bs : List Block}
    (h : RunInv d s bs) : Conserved d s bs where
  blocks := h.inv.blocks
  live := h.live
  index := h.inv.index
  nodup := h.inv.nodup
  sum := by
    have all := h.inv.blocks.sum_sizes
    have listed := (h.inv.index.map fun a => s.kernel.view.word (a + 8)).sum_eq
    have live := (h.live.map fun c => s.kernel.view.word (c.1 - 12 + 8)).sum_eq
    rw [List.nil_append] at listed
    omega

/-- In every run of sound steps the index and the sizes are right. -/
theorem conserved_of_sound_run {K : KState} {start end_ max : Nat} {su ro : Bool}
    {s₀ s : HeapState} (region : RegionMapped K start end_)
    (started : Started K start end_ max su ro s₀)
    (reached : Reaches HeapStep (Sound Resize.any) s₀ s) :
    ∃ bs, Conserved s₀.kernel.dir s bs := by
  obtain ⟨bs, inv, -⟩ := run_runInv (started_runInv region started) reached
  exact ⟨bs, inv.conserved⟩

/-- An aligned block between two holes. -/
theorem conserved_after_aligned_call :
    ∃ s bs, Reaches HeapStep (Sound Resize.any) bootHeap s ∧ s.kernel.indexed.length = 2 ∧
      Conserved bootHeap.kernel.dir s bs := by
  have ran : ((([.alloc 0x1000 true] : List HeapOp).foldlM
      (HeapState.nextSound Resize.any 1) bootHeap).map fun s => s.kernel.indexed.length) =
      some 2 := by
    decide +kernel
  obtain ⟨s, taken, two⟩ := Option.map_eq_some_iff.mp ran
  have reached := HeapState.reaches_of_run Resize.any taken
  obtain ⟨bs, conserved⟩ := conserved_of_sound_run bootKState_regionMapped bootHeap_started reached
  exact ⟨s, bs, reached, two, conserved⟩

/-- The run of `contraction_cuts_live_block` leaves a hole in the index that starts
at the end of the first block, behind the heap. -/
theorem contraction_leaves_stale_entry :
    ∃ s, Reachable HeapStep bootHeap s ∧ ∀ bs, ¬Conserved bootHeap.kernel.dir s bs := by
  have ran : ((([.alloc (0x71000 - 20) false, .alloc 100 false, .free 0xC00F200C] : List HeapOp).foldlM
      (HeapState.next 1) bootHeap).map fun s => (s.kernel.indexed, s.kernel.heap.hAddrEnd)) =
      some ([0xC00F2000], 0xC00F1000) := by
    decide +kernel
  obtain ⟨s, taken, shape⟩ := Option.map_eq_some_iff.mp ran
  obtain ⟨indexed, end_⟩ := Prod.mk.inj shape
  have reached : Reachable HeapStep bootHeap s := HeapState.reachable_of_run taken
  refine ⟨s, reached, fun bs conserved => ?_⟩
  have listed : 0xC00F2000 ∈ holes bs :=
    conserved.index.mem_iff.mp (by rw [indexed]; exact List.mem_cons_self)
  obtain ⟨z, hole⟩ := mem_holes.mp listed
  have bounds := conserved.blocks.bounds hole
  rw [end_] at bounds
  dsimp only at bounds
  omega

end MiniKernel.Kernel
