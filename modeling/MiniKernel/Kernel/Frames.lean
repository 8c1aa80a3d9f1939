/-
# Kernel.Frames -- the frame bitset of paging.c

`frames` is an array of 32-bit words, one bit for each physical frame.  The
three bit helpers take a physical *address* and divide it by the page size;
`first_frame` returns a frame *number*, and so does the `p_frame` field hold
one.  `alloc_frame` converts (`set_frame(idx * 0x1000)`), `free_frame` does not
(`clear_frame(p->p_frame)`), and both read `p_frame == 0` as "no frame".

`used_setFrame`, `used_clearFrame` and `firstFrame_spec` describe the helpers as
operations on the set of used frame numbers.
-/
import MiniKernel.Kernel.Panic
import MiniKernel.Theory.WordSet

namespace MiniKernel.Kernel

open Theory

set_option autoImplicit false

/-- `frames` and `nframes`. -/
structure Bitset where
  frames : Nat → BitVec 32
  nframes : Nat

/-- `struct vm_page`: the fields the kernel writes. -/
structure VmPage where
  pPresent : Bool
  pRw : Bool
  pUser : Bool
  pFrame : Nat
  deriving DecidableEq, Repr

/-- An entry of a zeroed page table. -/
def VmPage.zero : VmPage := { pPresent := false, pRw := false, pUser := false, pFrame := 0 }

/-- `INDEX_FROM_BIT` -/
def indexFromBit (a : Nat) : Nat := a / (8 * 4)

/-- `OFFSET_FROM_BIT` -/
def offsetFromBit (a : Nat) : Nat := a % (8 * 4)

namespace Bitset

/-- `set_frame` -/
def setFrame (b : Bitset) (frameAddr : Nat) : Bitset :=
  let frame := frameAddr / 0x1000
  let idx := indexFromBit frame
  let off := offsetFromBit frame
  { b with frames := Function.update b.frames idx (b.frames idx ||| (1#32 <<< off)) }

/-- `clear_frame` -/
def clearFrame (b : Bitset) (frameAddr : Nat) : Bitset :=
  let frame := frameAddr / 0x1000
  let idx := indexFromBit frame
  let off := offsetFromBit frame
  { b with frames := Function.update b.frames idx (b.frames idx &&& ~~~(1#32 <<< off)) }

/-- `test_frame` -/
def testFrame (b : Bitset) (frameAddr : Nat) : BitVec 32 :=
  let frame := frameAddr / 0x1000
  b.frames (indexFromBit frame) &&& (1#32 <<< offsetFromBit frame)

/-- The inner loop of `first_frame`: `n` bits are left, from `j` on. -/
def firstBit (word : BitVec 32) : Nat → Nat → Option Nat
  | 0, _ => none
  | n + 1, j => if word &&& (1#32 <<< j) = 0 then some j else firstBit word n (j + 1)

/-- The outer loop of `first_frame`: `n` words are left, from `i` on. -/
def firstWord (frames : Nat → BitVec 32) : Nat → Nat → Option Nat
  | 0, _ => none
  | n + 1, i =>
      if frames i = 0xFFFFFFFF#32 then firstWord frames n (i + 1)
      else
        match firstBit (frames i) 32 0 with
        | some j => some (i * 4 * 8 + j)
        | none => firstWord frames n (i + 1)

/-- `first_frame`; `(uint32_t)-1` when no frame is free. -/
def firstFrame (b : Bitset) : Nat :=
  (firstWord b.frames (indexFromBit b.nframes) 0).getD 0xFFFFFFFF

end Bitset

/-- `alloc_frame`, on the bitset and the page it is given. -/
def allocFrame (b : Bitset) (p : VmPage) (isKernel isWriteable : Bool) :
    Except Stop (Bitset × VmPage) :=
  if p.pFrame ≠ 0 then .ok (b, p)
  else
    let idx := b.firstFrame
    if idx = 0xFFFFFFFF then .error (.panic .noFreeFrame)
    else
      -- `p_frame` is a 20-bit field
      .ok (b.setFrame (idx * 0x1000 % 4294967296),
        { pPresent := true, pFrame := idx % 0x100000, pRw := isWriteable, pUser := !isKernel })

/-- `free_frame`, on the bitset and the page it is given. -/
def freeFrame (b : Bitset) (p : VmPage) : Bitset × VmPage :=
  if p.pFrame = 0 then (b, p)
  else (b.clearFrame p.pFrame, { p with pFrame := 0 })

/-! ## The set of used frames -/

namespace Bitset

/-- Frame number `f` is marked used. -/
def used (b : Bitset) (f : Nat) : Bool := WordSet.mem b.frames f

theorem used_setFrame (b : Bitset) (a f : Nat) :
    (b.setFrame a).used f = (decide (f = a / 0x1000) || b.used f) :=
  WordSet.mem_insert (by decide) b.frames f (a / 0x1000)

theorem used_clearFrame (b : Bitset) (a f : Nat) :
    (b.clearFrame a).used f = (!decide (f = a / 0x1000) && b.used f) :=
  WordSet.mem_erase (by decide) b.frames f (a / 0x1000)

theorem firstBit_spec (word : BitVec 32) (n j : Nat) (width : j + n ≤ 32) :
    match firstBit word n j with
    | some k => j ≤ k ∧ k < j + n ∧ word.getLsbD k = false ∧
        ∀ i, j ≤ i → i < k → word.getLsbD i = true
    | none => ∀ i, j ≤ i → i < j + n → word.getLsbD i = true := by
  induction n generalizing j with
  | zero => intro i h₁ h₂; omega
  | succ n ih =>
      have clear : word &&& (1#32 <<< j) = 0 ↔ word.getLsbD j = false := by
        constructor
        · intro zero
          have bit := congrArg (·.getLsbD j) zero
          simpa [WordSet.getLsbD_mask (w := 32) (show j < 32 by omega)] using bit
        · intro zero
          apply BitVec.eq_of_getLsbD_eq
          intro i hi
          rw [BitVec.getLsbD_and, WordSet.getLsbD_mask hi]
          by_cases h : i = j
          · subst h; simp [zero]
          · simp [h]
      have rest := ih (j + 1) (by omega)
      by_cases free : word.getLsbD j = false
      · rw [firstBit, if_pos (clear.mpr free)]
        exact ⟨Nat.le_refl _, by omega, free, by omega⟩
      · have set : word.getLsbD j = true := by simpa using free
        rw [firstBit, if_neg (fun h => free (clear.mp h))]
        revert rest
        cases firstBit word n (j + 1) with
        | some k =>
            rintro ⟨lo, hi, zero, below⟩
            refine ⟨by omega, by omega, zero, fun i h₁ h₂ => ?_⟩
            rcases Nat.eq_or_lt_of_le h₁ with rfl | h
            · exact set
            · exact below i h h₂
        | none =>
            intro all i h₁ h₂
            rcases Nat.eq_or_lt_of_le h₁ with rfl | h
            · exact set
            · exact all i h (by omega)

/-- A word with a clear bit yields its lowest one. -/
theorem firstBit_of_ne {word : BitVec 32} (ne : word ≠ 0xFFFFFFFF#32) :
    ∃ k, firstBit word 32 0 = some k ∧ k < 32 ∧ word.getLsbD k = false ∧
      ∀ i, i < k → word.getLsbD i = true := by
  have spec := firstBit_spec word 32 0 (by omega)
  cases found : firstBit word 32 0 with
  | some k =>
      rw [found] at spec
      exact ⟨k, rfl, by omega, spec.2.2.1, fun i h => spec.2.2.2 i (by omega) h⟩
  | none =>
      rw [found] at spec
      refine absurd ?_ ne
      apply BitVec.eq_of_getLsbD_eq
      intro i hi
      rw [spec i (by omega) (by omega)]
      exact (by decide : ∀ j < 32, true = (0xFFFFFFFF#32).getLsbD j) i hi

/-- All frames of word `i` are used, when the word is full. -/
theorem mem_of_full {frames : Nat → BitVec 32} {i f : Nat} (full : frames i = 0xFFFFFFFF#32)
    (word : f / 32 = i) : WordSet.mem frames f = true := by
  rw [WordSet.mem, word, full]
  exact (by decide : ∀ j < 32, (0xFFFFFFFF#32).getLsbD j = true) _ (Nat.mod_lt _ (by decide))

theorem firstWord_spec (frames : Nat → BitVec 32) (n i : Nat) :
    match firstWord frames n i with
    | some f => i * 32 ≤ f ∧ f < (i + n) * 32 ∧ WordSet.mem frames f = false ∧
        ∀ g, i * 32 ≤ g → g < f → WordSet.mem frames g = true
    | none => ∀ g, i * 32 ≤ g → g < (i + n) * 32 → WordSet.mem frames g = true := by
  induction n generalizing i with
  | zero => intro g h₁ h₂; omega
  | succ n ih =>
      have rest := ih (i + 1)
      by_cases full : frames i = 0xFFFFFFFF#32
      · have here : ∀ g, i * 32 ≤ g → g < (i + 1) * 32 → WordSet.mem frames g = true :=
          fun g h₁ h₂ => mem_of_full full (by omega)
        rw [firstWord, if_pos full]
        revert rest
        cases firstWord frames n (i + 1) with
        | some f =>
            rintro ⟨lo, hi, free, below⟩
            refine ⟨by omega, by omega, free, fun g h₁ h₂ => ?_⟩
            by_cases h : g < (i + 1) * 32
            · exact here g h₁ h
            · exact below g (by omega) h₂
        | none =>
            intro all g h₁ h₂
            by_cases h : g < (i + 1) * 32
            · exact here g h₁ h
            · exact all g (by omega) (by omega)
      · obtain ⟨k, found, width, free, below⟩ := firstBit_of_ne full
        have bit : ∀ j, j < 32 → WordSet.mem frames (i * 4 * 8 + j) = (frames i).getLsbD j := by
          intro j hj
          rw [WordSet.mem, show (i * 4 * 8 + j) / 32 = i by omega,
            show (i * 4 * 8 + j) % 32 = j by omega]
        rw [firstWord, if_neg full, found]
        refine ⟨by omega, by omega, (bit k width).trans free, fun g h₁ h₂ => ?_⟩
        have word := bit (g - i * 32) (by omega)
        rw [show i * 4 * 8 + (g - i * 32) = g by omega] at word
        exact word.trans (below _ (by omega))

/-- The frames the scan of `first_frame` looks at. -/
def scanned (b : Bitset) : Nat := indexFromBit b.nframes * 32

/-- `first_frame` returns the least free frame it scans, or `-1` when all of
them are used. -/
theorem firstFrame_spec (b : Bitset) :
    (b.firstFrame < b.scanned ∧ b.used b.firstFrame = false ∧
        ∀ g, g < b.firstFrame → b.used g = true) ∨
      (b.firstFrame = 0xFFFFFFFF ∧ ∀ g, g < b.scanned → b.used g = true) := by
  have spec := firstWord_spec b.frames (indexFromBit b.nframes) 0
  unfold firstFrame scanned used
  revert spec
  cases firstWord b.frames (indexFromBit b.nframes) 0 with
  | some f =>
      rintro ⟨-, hi, free, below⟩
      exact .inl ⟨by simpa using hi, free, fun g h => below g (by omega) h⟩
  | none =>
      intro all
      exact .inr ⟨rfl, fun g h => all g (by omega) (by omega)⟩

theorem scanned_le (b : Bitset) : b.scanned ≤ b.nframes := by
  unfold scanned indexFromBit; omega

end Bitset

/-! ## What `alloc_frame` and `free_frame` do -/

/-- Every outcome of `alloc_frame`: the page had a frame, or it gets the first
free one, or there is none. -/
theorem allocFrame_cases {b : Bitset} {p : VmPage} {k w : Bool} (small : b.nframes ≤ 0x100000) :
    (p.pFrame ≠ 0 ∧ allocFrame b p k w = .ok (b, p)) ∨
    (p.pFrame = 0 ∧ b.firstFrame < b.nframes ∧ b.used b.firstFrame = false ∧
      allocFrame b p k w = .ok (b.setFrame (b.firstFrame * 0x1000),
        { pPresent := true, pFrame := b.firstFrame, pRw := w, pUser := !k })) ∨
    (p.pFrame = 0 ∧ b.firstFrame = 0xFFFFFFFF ∧
      allocFrame b p k w = .error (.panic .noFreeFrame)) := by
  by_cases held : p.pFrame ≠ 0
  · exact .inl ⟨held, by rw [allocFrame, if_pos held]⟩
  · have none : p.pFrame = 0 := by simpa using held
    have bound := b.scanned_le
    rcases b.firstFrame_spec with ⟨lt, free, -⟩ | ⟨full, -⟩
    · refine .inr (.inl ⟨none, by omega, free, ?_⟩)
      rw [allocFrame, if_neg held]
      simp only
      rw [if_neg (by omega), Nat.mod_eq_of_lt (show b.firstFrame < 0x100000 by omega),
        Nat.mod_eq_of_lt (by omega)]
    · refine .inr (.inr ⟨none, full, ?_⟩)
      rw [allocFrame, if_neg held]
      simp [full]

theorem used_alloc (b : Bitset) (f g : Nat) :
    (b.setFrame (f * 0x1000)).used g = (decide (g = f) || b.used g) := by
  rw [Bitset.used_setFrame, Nat.mul_div_cancel _ (by decide)]

end MiniKernel.Kernel
