/-
# Kernel.HeapSafety -- the assertions of the heap

`alloc` and `free` check the magic numbers of the tags they meet, and that a hole
they unify with is in the index.  In a run of sound steps none of these checks
fails: a call that does not return has run out of address space, of room in the
index, or of frames (`Exhausted`).  What `free` reads in front of a block and
behind the heap is not part of any block, so `FreeSafe` is asked for too.

A merge leaves the tags of the right hole where they were.  After a contraction
in front of them, the next block that ends the heap finds them, and the search
for their hole in the index fails (`stale_header_fails_the_search`).
-/
import MiniKernel.Kernel.HeapRuns

namespace MiniKernel.Kernel

open Theory VmPageDirectory

set_option autoImplicit false

/-- The calls that keep clear of the assertions. -/
def Safe (s : HeapState) : HeapOp → Prop
  | .alloc size pageAlign => AllocSound Resize.any size pageAlign s.kernel
  | .free p =>
      FreeSound Resize.any (s.kernel.marked (p - 12)) (p - 12) ∧
        FreeSafe (s.kernel.marked (p - 12)) (p - 12)
  | .write _ _ => True

/-- The words that a call of `free` looks at in front of the block and behind the heap. -/
def FreesSafely (s : HeapState) : HeapOp → Prop
  | .free p => FreeSafe (s.kernel.marked (p - 12)) (p - 12)
  | _ => True

theorem Safe.of_sound {s : HeapState} {op : HeapOp} (sound : Sound Resize.any s op)
    (safely : FreesSafely s op) : Safe s op := by
  cases op with
  | alloc size pageAlign => exact sound
  | free p => exact ⟨sound, safely⟩
  | write a v => exact sound

theorem Safe.sound {s : HeapState} {op : HeapOp} (safe : Safe s op) : Sound Resize.any s op := by
  cases op with
  | alloc size pageAlign => exact safe
  | free p => exact safe.1
  | write a v => exact safe

/-- What a client may ask for in `s` stops with `e`. -/
inductive Stops (s : HeapState) : HeapOp → Stop → Prop where
  | alloc {size : Nat} {pageAlign : Bool} {fuel : Nat} {e : Stop}
      (ran : alloc fuel size pageAlign s.kernel = .error e) : Stops s (.alloc size pageAlign) e
  | free {p r : Nat} {e : Stop} (held : (p, r) ∈ s.clients) (ran : free p s.kernel = .error e) :
      Stops s (.free p) e
  | write {p r a : Nat} {v : UInt8} {e : Stop} (held : (p, r) ∈ s.clients)
      (inside : p ≤ a ∧ a < p + r) (ran : write8 a v s.kernel = .error e) : Stops s (.write a v) e

/-- A safe step from a state in order stops for want of resources only. -/
theorem RunInv.exhausted {d : VmPageDirectory} {s : HeapState} {bs : List Block} {op : HeapOp}
    {e : Stop} (h : RunInv d s bs) (safe : Safe s op) (stops : Stops s op e) : Exhausted e := by
  cases stops with
  | alloc ran => exact Program.wp_error (wp_alloc safe _ h.inv) ran
  | free held ran =>
      obtain ⟨header, z, rfl, member, -⟩ := h.block (List.mem_append_left _ held)
      obtain ⟨sound, readable⟩ := safe
      rw [Nat.add_sub_cancel] at sound readable
      exact Program.wp_error (wp_free h.inv member sound) ran readable
  | @write p r a v e held inside ran =>
      -- a store inside a live block always finds its page
      obtain ⟨x, z, rfl, member, fits⟩ := h.block (List.mem_append_left _ held)
      have bounds := h.inv.blocks.bounds member
      dsimp only at bounds
      rw [write8_eq h.inv.mapped.backed (by omega : _ ≤ a) (by omega) v] at ran
      cases ran

/-! ## Runs -/

/-- In every run of safe steps, the next one stops for want of resources only. -/
theorem exhausted_of_safe_run {K : KState} {start end_ max : Nat} {su ro : Bool}
    {s₀ s : HeapState} (region : RegionMapped K start end_)
    (started : Started K start end_ max su ro s₀) (reached : Reaches HeapStep Safe s₀ s) :
    ∀ op e, Safe s op → Stops s op e → Exhausted e := by
  obtain ⟨bs, inv, -⟩ := run_runInv (R := Resize.any) (started_runInv region started)
    (reached.mono fun _ _ safe => safe.sound)
  exact fun op e safe stops => inv.exhausted safe stops

instance (K : KState) (a : Nat) : Decidable (∃ v, K.peek32 a = .ok v) :=
  match K.peek32 a with
  | .ok v => .isTrue ⟨v, rfl⟩
  | .error _ => .isFalse (by rintro ⟨v, ⟨⟩⟩)

instance (K : KState) (a v : Nat) : Decidable (K.peek32 a = .ok v) :=
  inferInstanceAs (Decidable (_ = _))

/-- What `FreeSafe` asks of the words behind the heap, computed. -/
def behindSafe (K : KState) (header : Nat) : Bool :=
  match unifyLeft header (K.blockEnd header - 8) K with
  | .ok (_, K') => decide (K.blockEnd header = K.heap.hAddrEnd →
      (∃ v, K'.peek32 K.heap.hAddrEnd = .ok v) ∧
        (K'.view.word K.heap.hAddrEnd = vmHeapHdrMagic →
          K'.peek32 (add32 K.heap.hAddrEnd 4) = .ok 0))
  | .error _ => true

theorem behindSafe_iff {K : KState} {header : Nat} : behindSafe K header = true ↔
    ∀ r K', unifyLeft header (K.blockEnd header - 8) K = .ok (r, K') →
      K.blockEnd header = K.heap.hAddrEnd → (∃ v, K'.peek32 K.heap.hAddrEnd = .ok v) ∧
        (K'.view.word K.heap.hAddrEnd = vmHeapHdrMagic →
          K'.peek32 (add32 K.heap.hAddrEnd 4) = .ok 0) := by
  unfold behindSafe
  cases unifyLeft header (K.blockEnd header - 8) K with
  | ok result =>
      rw [decide_eq_true_eq]
      constructor
      · rintro safe _ _ ⟨⟩
        exact safe
      · exact fun safe => safe _ _ rfl
  | error e =>
      constructor
      · rintro - _ _ ⟨⟩
      · exact fun _ => rfl

instance (K : KState) (header : Nat) : Decidable (FreeSafe K header) :=
  decidable_of_iff ((K.view.word (header - 8) = vmHeapFtrMagic →
      ∃ v, K.peek32 (add32 (K.view.word (header - 4)) 4) = .ok v) ∧ behindSafe K header = true)
    ⟨fun h => ⟨h.1, behindSafe_iff.mp h.2⟩, fun h => ⟨h.left, behindSafe_iff.mpr h.right⟩⟩

instance (s : HeapState) : (op : HeapOp) → Decidable (FreesSafely s op)
  | .alloc _ _ => .isTrue trivial
  | .free p => inferInstanceAs (Decidable (FreeSafe (s.kernel.marked (p - 12)) (p - 12)))
  | .write _ _ => .isTrue trivial

/-- One safe step, computed. -/
def HeapState.nextSafe (fuel : Nat) (s : HeapState) (op : HeapOp) : Option HeapState :=
  if FreesSafely s op then s.nextSound Resize.any fuel op else none

theorem HeapState.nextSafe_step {fuel : Nat} (s : HeapState) (op : HeapOp) (s' : HeapState)
    (taken : s.nextSafe fuel op = some s') : Safe s op ∧ HeapStep s op s' := by
  unfold nextSafe at taken
  split at taken
  · rename_i safely
    obtain ⟨sound, step⟩ := nextSound_step Resize.any s op s' taken
    exact ⟨.of_sound sound safely, step⟩
  · cases taken

/-- Three blocks are taken and freed, the second one to the right of a hole and the last one
between two holes, which cuts the heap down to its least size; then one block takes all of it and
is freed at its end. -/
def freedBlocks : List HeapOp :=
  [.alloc 100 false, .alloc 200 false, .alloc 300 false, .free 0xC008100C, .free 0xC0081084,
    .free 0xC0081160, .alloc 0x6FFEC false, .free 0xC008100C]

/-- All of it is safe. -/
theorem exhausted_after_frees :
    ∃ s, Reaches HeapStep Safe bootHeap s ∧ s.clients = [] ∧
      s.kernel.heap.hAddrEnd = 0xC00F1000 ∧ s.kernel.indexed = [0xC0081000] ∧
      ∀ op e, Safe s op → Stops s op e → Exhausted e := by
  have ran : (freedBlocks.foldlM (HeapState.nextSafe 1) bootHeap).map (fun s =>
      (s.clients, s.kernel.heap.hAddrEnd, s.kernel.indexed)) =
      some ([], 0xC00F1000, [0xC0081000]) := by
    decide +kernel
  obtain ⟨s, taken, shape⟩ := Option.map_eq_some_iff.mp ran
  obtain ⟨clients, shape⟩ := Prod.mk.inj shape
  obtain ⟨end_, index⟩ := Prod.mk.inj shape
  have reached := Reaches.of_foldlM HeapState.nextSafe_step freedBlocks taken
  exact ⟨s, reached, clients, end_, index,
    exhausted_of_safe_run bootKState_regionMapped bootHeap_started reached⟩

/-- A block of 0x6FFEC bytes is taken, freed and taken again: the second `free` finds
the header that the first one left behind the heap. -/
theorem stale_header_fails_the_search :
    ∃ s, Reachable HeapStep bootHeap s ∧
      Stops s (.free 0xC008100C) (.panic (.assertion .foundItem)) := by
  have ran : ((([.alloc 0x6FFEC false, .free 0xC008100C, .alloc 0x6FFEC false] : List HeapOp).foldlM
      (HeapState.next 1) bootHeap).map fun s =>
        (s.clients, (free 0xC008100C s.kernel).map fun r => r.1)) =
      some ([(0xC008100C, 0x6FFEC)], .error (.panic (.assertion .foundItem))) := by
    decide +kernel
  obtain ⟨s, taken, shape⟩ := Option.map_eq_some_iff.mp ran
  obtain ⟨clients, fails⟩ := Prod.mk.inj shape
  refine ⟨s, HeapState.reachable_of_run taken, .free (r := 0x6FFEC) ?_ ?_⟩
  · rw [clients]
    exact List.mem_cons_self
  · cases run : free 0xC008100C s.kernel with
    | ok r =>
        rw [run] at fails
        cases fails
    | error e =>
        rw [run] at fails
        exact congrArg _ (Except.error.inj fails)

end MiniKernel.Kernel
