/-
# Kernel.FrameSet -- the frame bitset is a set of frame numbers

`usedFrames` is the set of the frames below `nframes` whose bit is set.  The three helpers
that take an address are its insertion, its removal and its membership test, at the frame
of the address, and `first_frame` is the least number that is not in it.

`init_paging` makes `nframes` a multiple of 32, so that the scan of `first_frame`, which
goes over whole words, sees every frame (`scanned_eq`).
-/
import MiniKernel.Kernel.FrameOwnership
import Mathlib.Order.Bounds.Basic

namespace MiniKernel.Kernel

open Theory

set_option autoImplicit false

namespace Bitset

variable {b : Bitset} {a a' f : Nat}

/-- The frames in use. -/
def usedFrames (b : Bitset) : Set Nat := {f | f < b.nframes ∧ b.used f = true}

/-- The frames that `first_frame` may return. -/
def freeFrames (b : Bitset) : Set Nat := {f | f < b.nframes ∧ b.used f = false}

/-- `a` is the address of a frame. -/
def FrameAddress (b : Bitset) (a : Nat) : Prop := a % 0x1000 = 0 ∧ a < b.nframes * 0x1000

/-! ## The helpers that take an address -/

theorem FrameAddress.lt (h : b.FrameAddress a) : a / 0x1000 < b.nframes := by
  obtain ⟨-, inside⟩ := h
  omega

theorem FrameAddress.ne (h : b.FrameAddress a) (h' : b.FrameAddress a') (other : a' ≠ a) :
    a' / 0x1000 ≠ a / 0x1000 := by
  obtain ⟨aligned, -⟩ := h
  obtain ⟨aligned', -⟩ := h'
  omega

/-- `test_frame` returns the mask of its bit, or zero. -/
theorem testFrame_eq (b : Bitset) (a : Nat) :
    b.testFrame a =
      if b.used (a / 0x1000) = true then 1#32 <<< offsetFromBit (a / 0x1000) else 0 := by
  have bit : offsetFromBit (a / 0x1000) < 32 := Nat.mod_lt _ (by decide)
  apply BitVec.eq_of_getLsbD_eq
  intro i width
  rw [testFrame, BitVec.getLsbD_and, WordSet.getLsbD_mask width]
  by_cases here : i = offsetFromBit (a / 0x1000)
  · subst here
    have same : b.used (a / 0x1000) =
        (b.frames (indexFromBit (a / 0x1000))).getLsbD (offsetFromBit (a / 0x1000)) := rfl
    rw [same]
    cases (b.frames (indexFromBit (a / 0x1000))).getLsbD (offsetFromBit (a / 0x1000)) with
    | true => simp [WordSet.getLsbD_mask bit]
    | false => simp
  · split
    · simp [WordSet.getLsbD_mask width, here]
    · simp [here]

theorem testFrame_ne_zero_iff : b.testFrame a ≠ 0 ↔ b.used (a / 0x1000) = true := by
  have bit : offsetFromBit (a / 0x1000) < 32 := Nat.mod_lt _ (by decide)
  rw [testFrame_eq]
  have mask : 1#32 <<< offsetFromBit (a / 0x1000) ≠ 0 := by
    intro zero
    have low := congrArg (·.getLsbD (offsetFromBit (a / 0x1000))) zero
    simp [WordSet.getLsbD_mask bit] at low
  by_cases set : b.used (a / 0x1000) = true
  · rw [if_pos set]
    exact ⟨fun _ => set, fun _ => mask⟩
  · rw [if_neg set]
    exact ⟨fun ne => absurd rfl ne, fun h => absurd h set⟩

theorem testFrame_congr {b' : Bitset} (same : b'.used (a / 0x1000) = b.used (a / 0x1000)) :
    b'.testFrame a = b.testFrame a := by
  rw [testFrame_eq, testFrame_eq, same]

/-- `test_frame` is membership. -/
theorem testFrame_iff_mem (address : b.FrameAddress a) :
    b.testFrame a ≠ 0 ↔ a / 0x1000 ∈ b.usedFrames := by
  rw [testFrame_ne_zero_iff]
  exact ⟨fun set => ⟨address.lt, set⟩, fun mem => mem.2⟩

/-- `set_frame` is insertion. -/
theorem usedFrames_setFrame (address : b.FrameAddress a) :
    (b.setFrame a).usedFrames = insert (a / 0x1000) b.usedFrames := by
  ext f
  have bound := address.lt
  simp only [usedFrames, Set.mem_insert_iff, Set.mem_ofPred_eq, used_setFrame,
    Bool.or_eq_true, decide_eq_true_eq]
  constructor
  · rintro ⟨inside, rfl | set⟩
    · exact .inl rfl
    · exact .inr ⟨inside, set⟩
  · rintro (rfl | ⟨inside, set⟩)
    · exact ⟨bound, .inl rfl⟩
    · exact ⟨inside, .inr set⟩

/-- `clear_frame` is removal. -/
theorem usedFrames_clearFrame : (b.clearFrame a).usedFrames = b.usedFrames \ {a / 0x1000} := by
  ext f
  simp only [usedFrames, Set.mem_sdiff, Set.mem_singleton_iff, Set.mem_ofPred_eq,
    used_clearFrame, Bool.and_eq_true, Bool.not_eq_true',
    decide_eq_false_iff_not]
  constructor
  · rintro ⟨inside, other, set⟩
    exact ⟨⟨inside, set⟩, other⟩
  · rintro ⟨⟨inside, set⟩, other⟩
    exact ⟨inside, other, set⟩

/-- A helper that keeps the set of the other frames keeps their `test_frame`. -/
theorem testFrame_setFrame_of_ne (other : a' / 0x1000 ≠ a / 0x1000) :
    (b.setFrame a).testFrame a' = b.testFrame a' := by
  apply testFrame_congr
  simp [used_setFrame, other]

theorem testFrame_clearFrame_of_ne (other : a' / 0x1000 ≠ a / 0x1000) :
    (b.clearFrame a).testFrame a' = b.testFrame a' := by
  apply testFrame_congr
  simp [used_clearFrame, other]

/-! ## `first_frame` -/

/-- The scan goes over every frame. -/
theorem scanned_eq (words : b.nframes % 32 = 0) : b.scanned = b.nframes := by
  show b.nframes / (8 * 4) * 32 = b.nframes
  omega

/-- `first_frame` is the least free frame. -/
theorem firstFrame_isLeast (words : b.nframes % 32 = 0) (some_free : b.freeFrames.Nonempty) :
    IsLeast b.freeFrames b.firstFrame := by
  have scanned := scanned_eq words
  rcases b.firstFrame_spec with ⟨inside, free, below⟩ | ⟨-, full⟩
  · refine ⟨⟨by omega, free⟩, ?_⟩
    rintro g ⟨-, clear⟩
    by_contra lower
    have set := below g (by omega)
    rw [clear] at set
    cases set
  · obtain ⟨g, inside, clear⟩ := some_free
    have set := full g (by omega)
    rw [clear] at set
    cases set

/-- It is `-1` when every frame is in use, and never otherwise. -/
theorem firstFrame_eq_none_iff (words : b.nframes % 32 = 0) (bound : b.nframes < 4294967296) :
    b.firstFrame = 0xFFFFFFFF ↔ ∀ f, f < b.nframes → b.used f = true := by
  have scanned := scanned_eq words
  constructor
  · intro none f inside
    by_contra clear
    have least := firstFrame_isLeast words ⟨f, inside, by simpa using clear⟩
    have lt : b.firstFrame < b.nframes := least.1.1
    omega
  · intro full
    rcases b.firstFrame_spec with ⟨inside, clear, -⟩ | ⟨none, -⟩
    · have set := full b.firstFrame (by omega)
      rw [clear] at set
      cases set
    · exact none

end Bitset

/-! ## The set -/

/-- **The frame bitset.**  `first_frame` is the least number below `nframes` with a clear bit,
and `-1` exactly when all are set; `set_frame` and `clear_frame` change what `test_frame`
returns for their own frame, and for no other. -/
theorem bitset_is_a_set {b : Bitset} (words : b.nframes % 32 = 0) (bound : b.nframes < 4294967296) :
    (b.freeFrames.Nonempty → IsLeast b.freeFrames b.firstFrame) ∧
      (b.firstFrame = 0xFFFFFFFF ↔ ∀ f, f < b.nframes → b.used f = true) ∧
      ∀ a, b.FrameAddress a →
        (b.setFrame a).testFrame a ≠ 0 ∧ (b.clearFrame a).testFrame a = 0 ∧
          ∀ a', b.FrameAddress a' → a' ≠ a →
            (b.setFrame a).testFrame a' = b.testFrame a' ∧
              (b.clearFrame a).testFrame a' = b.testFrame a' := by
  refine ⟨Bitset.firstFrame_isLeast words, Bitset.firstFrame_eq_none_iff words bound, ?_⟩
  intro a address
  refine ⟨?_, ?_, ?_⟩
  · have after : (b.setFrame a).FrameAddress a := address
    rw [Bitset.testFrame_iff_mem after, Bitset.usedFrames_setFrame address]
    exact Set.mem_insert _ _
  · have after : (b.clearFrame a).FrameAddress a := address
    by_contra nonzero
    rw [← ne_eq, Bitset.testFrame_iff_mem after, Bitset.usedFrames_clearFrame] at nonzero
    exact nonzero.2 rfl
  · intro a' address' other
    have ne := address.ne address' other
    exact ⟨Bitset.testFrame_setFrame_of_ne ne, Bitset.testFrame_clearFrame_of_ne ne⟩

/-- With frame 31 set in the empty bitset, frame 0 is the first free one, and frame 31 is
tested by the last bit of its word. -/
theorem bitset_with_frame_31 :
    IsLeast (Bitset.boot.setFrame 0x1F000).freeFrames 0 ∧
      (Bitset.boot.setFrame 0x1F000).testFrame 0x1F000 = 0x80000000#32 ∧
      ((Bitset.boot.setFrame 0x1F000).clearFrame 0x1F000).testFrame 0x1F000 = 0 := by
  obtain ⟨least, -, each⟩ :=
    bitset_is_a_set (b := Bitset.boot.setFrame 0x1F000) (by decide) (by decide)
  refine ⟨?_, by decide, (each 0x1F000 ⟨by decide, by decide⟩).2.1⟩
  exact least ⟨0, by decide, by decide⟩

end MiniKernel.Kernel
