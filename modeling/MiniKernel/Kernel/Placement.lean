/-
# Kernel.Placement -- the memory that clients of kmalloc.c see before there is a heap

Until `init_heap`, `_kmalloc` hands out the memory behind `placement_address`, without paging: a
block is where it says it is.  An aligned request always moves to the next page boundary above, so
that a placement address that is a page boundary already costs a page; below 0x1000 it moves
nowhere, and the block is aligned only if the address was.

As long as the placement address does not wrap, the blocks follow one another and nothing else
touches them: `placement_store` is the early half of `kmalloc_store`.
-/
import MiniKernel.Kernel.Kmalloc
import MiniKernel.Kernel.BitsetStorage

namespace MiniKernel.Kernel

open Theory VmPageDirectory

set_option autoImplicit false

/-- The calls that are made without a heap: nothing is given back, and the placement address stays
below the end of the address space. -/
def EarlySound (s : ClientState) : ClientOp → Prop
  | .kmalloc _ len => s.heap.kernel.placementAddress + 0x1000 + len < 4294967296
  | .kfree _ => False
  | .write _ _ => True

/-- The kernel before there is a heap. -/
structure Early (K : KState) : Prop where
  noHeap : K.heapReady = false
  flat : K.paging = false

/-- What holds in every state of a run from the placement address `low` on; the last block comes
first. -/
structure EarlyInv (low : Nat) (s : ClientState) : Prop where
  early : Early s.heap.kernel
  above : low ≤ s.heap.kernel.placementAddress
  blocks : ∀ p r, (p, r) ∈ s.heap.clients → low ≤ p ∧ p + r ≤ s.heap.kernel.placementAddress
  ordered : s.heap.clients.Pairwise fun x y => y.1 + y.2 ≤ x.1
  inside : ∀ a v, s.known a = some v → ∃ p r, (p, r) ∈ s.heap.clients ∧ p ≤ a ∧ a < p + r
  holds : ∀ a v, s.known a = some v → s.heap.kernel.mem a = v

/-- A call of a function without a heap. -/
theorem run_early {K : KState} (early : Early K) {f : Allocator} (fuel : Nat) {len : Nat}
    (fits : K.placementAddress + 0x1000 + len < 4294967296) :
    f.run fuel len K = .ok ((placedAt K.placementAddress f.aligned,
        if f.phys then placedAt K.placementAddress f.aligned else 0),
      { K with
        placementAddress := placedAt K.placementAddress f.aligned + len
        mem := if f.zero then K.mem.zeroBytes (placedAt K.placementAddress f.aligned) len
          else K.mem }) := by
  have ends : add32 (placedAt K.placementAddress f.aligned) len =
      placedAt K.placementAddress f.aligned + len := by
    have bounds := placedAt_ge (a := K.placementAddress) (by omega) f.aligned
    exact add32_eq (by omega)
  have call : Program.wp (f.run fuel len) (fun r K' =>
      r = (placedAt K.placementAddress f.aligned,
        if f.phys then placedAt K.placementAddress f.aligned else 0) ∧
      K' = { K with
        placementAddress := placedAt K.placementAddress f.aligned + len
        mem := if f.zero then K.mem.zeroBytes (placedAt K.placementAddress f.aligned) len
          else K.mem }) (fun _ => False) K := by
    rw [f.run_eq]
    refine wp_kmalloc_early early.noHeap (by omega) (by omega) ?_
    rw [ends]
    cases f.zero with
    | false => exact ⟨rfl, rfl⟩
    | true =>
        have cleared := bzero_flat (K := { K with
          placementAddress := placedAt K.placementAddress f.aligned + len })
          early.flat (placedAt K.placementAddress f.aligned) len
        exact (Program.wp_of_ok cleared).mpr ⟨rfl, rfl⟩
  obtain ⟨r, K', ran, rfl, rfl⟩ := Program.wp_some call
  exact ran

theorem write8_early {K : KState} (early : Early K) (a : Nat) (v : UInt8) :
    write8 a v K = .ok ((), { K with mem := K.mem.setByte a v }) := by
  simp [write8, KState.put8, KState.translate, early.flat]

theorem peek8_early {K : KState} (early : Early K) (a : Nat) : K.peek8 a = .ok (K.mem a) := by
  simp [KState.peek8, KState.translate, early.flat]

namespace EarlyInv

variable {low : Nat} {s : ClientState} {K' : KState}

theorem kmalloc (inv : EarlyInv low s) {f : Allocator} {fuel len p phys : Nat}
    (fits : s.heap.kernel.placementAddress + 0x1000 + len < 4294967296)
    (ran : f.run fuel len s.heap.kernel = .ok ((p, phys), K')) :
    EarlyInv low ⟨⟨K', (p, len) :: s.heap.clients⟩, s.known.grant p len f.zero⟩ := by
  have bounds := placedAt_ge (a := s.heap.kernel.placementAddress) (by omega) f.aligned
  have above := inv.above
  rw [run_early inv.early _ fits] at ran
  obtain ⟨result, rfl⟩ := Prod.mk.inj (Except.ok.inj ran)
  obtain ⟨rfl, -⟩ := Prod.mk.inj result
  refine ⟨⟨inv.early.noHeap, inv.early.flat⟩, ?_, ?_, ?_, ?_, ?_⟩
  · show low ≤ placedAt _ _ + len
    omega
  · intro q r mem
    show low ≤ q ∧ q + r ≤ placedAt _ _ + len
    rcases List.mem_cons.mp mem with new | old
    · obtain ⟨rfl, rfl⟩ := Prod.mk.inj new
      omega
    · have before := inv.blocks q r old
      omega
  · refine List.pairwise_cons.mpr ⟨fun x mem => ?_, inv.ordered⟩
    have before := inv.blocks x.1 x.2 mem
    dsimp only
    omega
  · intro a v known
    by_cases own : placedAt s.heap.kernel.placementAddress f.aligned ≤ a ∧
        a < placedAt s.heap.kernel.placementAddress f.aligned + len
    · exact ⟨_, len, List.mem_cons_self, own⟩
    · obtain ⟨q, r, held, here⟩ := inv.inside a v ((if_neg own).symm.trans known)
      exact ⟨q, r, List.mem_cons_of_mem _ held, here⟩
  · intro a v known
    dsimp only
    by_cases own : placedAt s.heap.kernel.placementAddress f.aligned ≤ a ∧
        a < placedAt s.heap.kernel.placementAddress f.aligned + len
    · have fresh := (if_pos own).symm.trans known
      split_ifs at fresh with zero
      rw [if_pos zero, ← Option.some.inj fresh]
      exact Mem.zeroBytes_inside own.1 own.2
    · have before := inv.holds a v ((if_neg own).symm.trans known)
      split_ifs
      · rw [Mem.zeroBytes_outside (by omega), before]
      · exact before

theorem write (inv : EarlyInv low s) {p r a : Nat} {v : UInt8} (held : (p, r) ∈ s.heap.clients)
    (inside : p ≤ a ∧ a < p + r) (ran : write8 a v s.heap.kernel = .ok ((), K')) :
    EarlyInv low ⟨⟨K', s.heap.clients⟩, s.known.store a v⟩ := by
  rw [write8_early inv.early] at ran
  obtain rfl := (Prod.mk.inj (Except.ok.inj ran)).2
  refine ⟨⟨inv.early.noHeap, inv.early.flat⟩, inv.above, inv.blocks, inv.ordered, ?_, ?_⟩
  · intro b w known
    by_cases same : b = a
    · rw [same]
      exact ⟨p, r, held, inside⟩
    · exact inv.inside b w ((Function.update_of_ne same _ _).symm.trans known)
  · intro b w known
    by_cases same : b = a
    · subst same
      have known : Function.update s.known b (some v) b = some w := known
      rw [Function.update_self] at known
      rw [← Option.some.inj known]
      exact if_pos rfl
    · have before := inv.holds b w ((Function.update_of_ne same _ _).symm.trans known)
      rw [← before]
      exact if_neg same

theorem step (inv : EarlyInv low s) {op : ClientOp} {s' : ClientState} (sound : EarlySound s op)
    (step : ClientStep s op s') : EarlyInv low s' := by
  cases step with
  | kmalloc ran => exact inv.kmalloc sound ran
  | kfree held ran => exact sound.elim
  | write held inside ran => exact inv.write held inside ran

theorem of_run {K : KState} (early : Early K)
    (reached : Reaches ClientStep EarlySound (.start ⟨K, []⟩) s) :
    EarlyInv K.placementAddress s := by
  refine reached.invariant ⟨early, Nat.le_refl _, ?_, List.Pairwise.nil, ?_, ?_⟩
    fun _ _ _ inv sound step => inv.step sound step
  · intro p r mem
    cases mem
  · intro a v known
    cases known
  · intro a v known
    cases known

end EarlyInv

/-- **Early memory is a store.**  The blocks of a run without a heap follow one another behind the
placement address, and what clients know of them is in memory. -/
theorem placement_store {K : KState} (early : Early K) {s : ClientState}
    (reached : Reaches ClientStep EarlySound (.start ⟨K, []⟩) s) :
    (s.heap.clients.Pairwise fun x y => y.1 + y.2 ≤ x.1) ∧
      (∀ p r, (p, r) ∈ s.heap.clients →
        K.placementAddress ≤ p ∧ p + r ≤ s.heap.kernel.placementAddress) ∧
      ∀ a v, s.known a = some v → s.heap.kernel.peek8 a = .ok v := by
  have inv := EarlyInv.of_run early reached
  refine ⟨inv.ordered, inv.blocks, fun a v known => ?_⟩
  rw [peek8_early inv.early, inv.holds a v known]

/-- Where an aligned block starts: at the page boundary above, even if the address is one. -/
theorem placedAt_aligned {a : Nat} (fits : a + 0x1000 < 4294967296) :
    placedAt a true = if 0x1000 ≤ a then (a / 0x1000 + 1) * 0x1000 else a := by
  have mask := land_pageMask (a := a) (by omega)
  unfold placedAt
  by_cases low : 0x1000 ≤ a
  · have some_page : a &&& pageMask ≠ 0 := by
      rw [mask]
      omega
    rw [if_pos ⟨rfl, some_page⟩, if_pos low, mask, add32_eq (by omega)]
    omega
  · rw [if_neg fun both => both.2 (by rw [mask]; omega), if_neg low]

/-- **Early addresses.**  Every call of such a run returns, with a block that is where its physical
address says.  An aligned block starts a page exactly when the placement address is 0 or has reached the
first page boundary, and then it starts the page above, whatever the address. -/
theorem placement_physical {K : KState} (early : Early K) {s : ClientState}
    (reached : Reaches ClientStep EarlySound (.start ⟨K, []⟩) s) (f : Allocator) (fuel : Nat)
    {len : Nat} (sound : EarlySound s (.kmalloc f len)) :
    ∃ p phys K', f.run fuel len s.heap.kernel = .ok ((p, phys), K') ∧
      K'.placementAddress = p + len ∧ (f.phys = true → K'.translate p = some phys) ∧
      (f.aligned = false → p = s.heap.kernel.placementAddress) ∧
      (f.aligned = true → (p % 0x1000 = 0 ↔ s.heap.kernel.placementAddress = 0 ∨
        0x1000 ≤ s.heap.kernel.placementAddress) ∧
        (0x1000 ≤ s.heap.kernel.placementAddress →
          p = (s.heap.kernel.placementAddress / 0x1000 + 1) * 0x1000)) := by
  have inv := EarlyInv.of_run early reached
  have room : s.heap.kernel.placementAddress + 0x1000 + len < 4294967296 := sound
  refine ⟨_, _, _, run_early inv.early fuel sound, rfl, fun phys => ?_, fun plain => ?_, fun aligned => ?_⟩
  · rw [if_pos phys, KState.translate, if_neg]
    simp [inv.early.flat]
  · rw [plain, placedAt, if_neg (by simp)]
  · rw [aligned, placedAt_aligned (by omega)]
    split_ifs with low
    · constructor
      · omega
      · intro _
        rfl
    · constructor
      · omega
      · intro high
        exact absurd high low

/-! ## A kernel that was just loaded -/

/-- The kernel ends in the middle of a page. -/
def loadedKState : KState :=
  { bootKState with heapReady := false, paging := false, placementAddress := 0x204321 }

theorem loadedKState_early : Early loadedKState := ⟨rfl, rfl⟩

/-- One block, cleared. -/
def clearedBlock : ClientState :=
  ⟨⟨{ loadedKState with
      placementAddress := 0x204385
      mem := loadedKState.mem.zeroBytes 0x204321 100 }, [(0x204321, 100)]⟩,
    Known.grant (fun _ => none) 0x204321 100 true⟩

/-- A byte was written into it. -/
def oneBlock : ClientState :=
  ⟨⟨{ clearedBlock.heap.kernel with mem := clearedBlock.heap.kernel.mem.setByte 0x204323 7 },
    [(0x204321, 100)]⟩, clearedBlock.known.store 0x204323 7⟩

theorem oneBlock_reached :
    Reaches ClientStep EarlySound (.start ⟨loadedKState, []⟩) oneBlock := by
  have room : EarlySound (.start ⟨loadedKState, []⟩) (.kmalloc .kmalloc0 100) := by
    show 0x204321 + 0x1000 + 100 < 4294967296
    decide
  have cleared : ClientStep (.start ⟨loadedKState, []⟩) (.kmalloc .kmalloc0 100) clearedBlock :=
    .kmalloc (run_early loadedKState_early 0 room)
  have wrote : ClientStep clearedBlock (.write 0x204323 7) oneBlock :=
    .write (p := 0x204321) (r := 100) List.mem_cons_self (by decide)
      (write8_early ⟨rfl, rfl⟩ _ _)
  have allowed : EarlySound clearedBlock (.write 0x204323 7) := trivial
  exact .tail (.tail .refl room cleared) allowed wrote

theorem oneBlock_read :
    oneBlock.heap.kernel.peek8 0x204322 = .ok 0 ∧ oneBlock.heap.kernel.peek8 0x204323 = .ok 7 := by
  have store := (placement_store loadedKState_early oneBlock_reached).2.2
  exact ⟨store _ _ rfl, store _ _ rfl⟩

/-- The first page table. -/
theorem next_page_physical :
    ∃ p phys K', Allocator.kmalloc0Ap.run 0 0x1000 oneBlock.heap.kernel = .ok ((p, phys), K') ∧
      p = 0x205000 ∧ K'.translate p = some phys := by
  have room : EarlySound oneBlock (.kmalloc .kmalloc0Ap 0x1000) := by
    show 0x204385 + 0x1000 + 0x1000 < 4294967296
    decide
  obtain ⟨p, phys, K', ran, -, physical, -, aligned⟩ :=
    placement_physical loadedKState_early oneBlock_reached .kmalloc0Ap 0 room
  exact ⟨p, phys, K', ran, (aligned rfl).2 (by decide), physical rfl⟩

end MiniKernel.Kernel
