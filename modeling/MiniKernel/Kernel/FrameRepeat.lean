/-
# Kernel.FrameRepeat -- alloc_frame on a page that was given a frame

`alloc_frame` returns at once when the page has a frame ("Frame already allocated, return
immediately"), and reads `p_frame != 0` for that.  The test is right for every frame but
number 0: a page that was given frame 0 is given a second frame by the next call.

So the second call changes nothing exactly when the first one did not hand out frame 0, that
is when bit 0 of the bitset was set before it (`repeated_alloc_frame`).  `p_frame` has 20
bits, and with more than 2^20 frames the same happens at every multiple of 2^20.
-/
import MiniKernel.Kernel.FrameOwnership

namespace MiniKernel.Kernel

open Theory

set_option autoImplicit false

/-- `f` is the first clear bit that `first_frame` looks at. -/
def Bitset.Lowest (b : Bitset) (f : Nat) : Prop :=
  f < b.scanned ∧ b.used f = false ∧ ∀ g, g < f → b.used g = true

theorem Bitset.Lowest.unique {b : Bitset} {f g : Nat} (h : b.Lowest f) (h' : b.Lowest g) :
    f = g := by
  obtain ⟨-, free, below⟩ := h
  obtain ⟨-, free', below'⟩ := h'
  rcases Nat.lt_trichotomy f g with lt | same | lt
  · exact absurd free (by simp [below' f lt])
  · exact same
  · exact absurd free' (by simp [below g lt])

/-! ## One call -/

section Call

variable {b b' : Bitset} {p v : VmPage} {k w : Bool}

theorem allocFrame_of_frame (held : p.pFrame ≠ 0) : allocFrame b p k w = .ok (b, p) := by
  rw [allocFrame, if_pos held]

/-- A call that gives a frame takes the lowest clear bit, and keeps 20 bits of its number. -/
theorem allocFrame_gives (frameless : p.pFrame = 0) (ran : allocFrame b p k w = .ok (b', v)) :
    b.Lowest b.firstFrame ∧ b' = b.setFrame (b.firstFrame * 0x1000 % 4294967296) ∧
      v = { pPresent := true, pFrame := b.firstFrame % 0x100000, pRw := w, pUser := !k } := by
  rw [allocFrame, if_neg (by simp [frameless])] at ran
  simp only at ran
  split at ran
  next none => cases ran
  next found =>
    have same := Except.ok.inj ran
    rcases b.firstFrame_spec with lowest | ⟨none, -⟩
    · exact ⟨lowest, (congrArg Prod.fst same).symm, (congrArg Prod.snd same).symm⟩
    · exact absurd none found

/-- A call on a page without a frame never leaves the bitset as it is, as long as frame
numbers fit the field. -/
theorem allocFrame_ne_of_frameless (small : b.nframes ≤ 0x100000) (frameless : p.pFrame = 0) :
    allocFrame b p k w ≠ .ok (b, v) := by
  intro ran
  obtain ⟨⟨inside, free, -⟩, bits, -⟩ := allocFrame_gives frameless ran
  have bound := b.scanned_le
  have fits : b.firstFrame * 0x1000 % 4294967296 = b.firstFrame * 0x1000 :=
    Nat.mod_eq_of_lt (by omega)
  have set : (b.setFrame (b.firstFrame * 0x1000)).used b.firstFrame = true := by
    simp [used_alloc]
  rw [← fits, ← bits, free] at set
  cases set

end Call

/-! ## Calls on other pages -/

section Repeat

variable {P : Type} [DecidableEq P] {s s₁ s₂ : FrameState P} {p : P} {k w : Bool}

/-- An `alloc_frame` call for another page than `p`. -/
def OnOthers (p : P) (_ : FrameState P) : FrameCall P → Prop
  | .allocFrame q _ _ => q ≠ p
  | .freeFrame _ => False

/-- Whatever other pages were given in the meantime, the next call on `p` changes neither the
page nor the bitset. -/
def RepeatKeeps (p : P) (s₁ : FrameState P) : Prop :=
  ∀ s₂, Reaches FrameStep (OnOthers p) s₁ s₂ → ∀ k w,
    allocFrame s₂.bits (s₂.page p) k w = .ok (s₂.bits, s₂.page p)

theorem nframes_allocFrame {b b' : Bitset} {v v' : VmPage}
    (ran : allocFrame b v k w = .ok (b', v')) : b'.nframes = b.nframes := by
  by_cases frameless : v.pFrame = 0
  · obtain ⟨-, rfl, -⟩ := allocFrame_gives frameless ran
    rfl
  · rw [allocFrame_of_frame frameless] at ran
    obtain ⟨rfl, -⟩ := Prod.mk.inj (Except.ok.inj ran)
    rfl

/-- Calls on other pages leave the page and the number of frames. -/
theorem others_keep (run : Reaches FrameStep (OnOthers p) s₁ s₂) :
    s₂.page p = s₁.page p ∧ s₂.bits.nframes = s₁.bits.nframes := by
  refine run.invariant (I := fun s => s.page p = s₁.page p ∧ s.bits.nframes = s₁.bits.nframes)
    ⟨rfl, rfl⟩ ?_
  rintro s call s' ⟨page, frames⟩ other step
  cases step with
  | allocFrame ran =>
      refine ⟨?_, (nframes_allocFrame ran).trans frames⟩
      rw [← page]
      exact Function.update_of_ne (Ne.symm other) _ _
  | freeFrame => exact absurd other id

/-- What the page is after the call that gave it a frame. -/
theorem page_given (frameless : (s.page p).pFrame = 0)
    (gave : FrameStep s (.allocFrame p k w) s₁) :
    ∃ f, s.bits.Lowest f ∧ s₁.bits.nframes = s.bits.nframes ∧
      s₁.page p = { pPresent := true, pFrame := f % 0x100000, pRw := w, pUser := !k } := by
  cases gave with
  | allocFrame ran =>
      obtain ⟨lowest, -, page⟩ := allocFrame_gives frameless ran
      exact ⟨_, lowest, nframes_allocFrame ran, (Function.update_self _ _ _).trans page⟩

/-- **A repeated call.**  It changes nothing exactly when the first clear bit, whose frame the
page was given, is not at a multiple of 2^20; where frame numbers fit `p_frame`, exactly when
bit 0 was set, and otherwise every single one of the later calls changes something. -/
theorem repeated_alloc_frame (frameless : (s.page p).pFrame = 0)
    (gave : FrameStep s (.allocFrame p k w) s₁) :
    (RepeatKeeps p s₁ ↔ ∃ f, s.bits.Lowest f ∧ f % 0x100000 ≠ 0) ∧
      (s.bits.nframes ≤ 0x100000 → ∀ s₂, Reaches FrameStep (OnOthers p) s₁ s₂ → ∀ k' w',
        (allocFrame s₂.bits (s₂.page p) k' w' = .ok (s₂.bits, s₂.page p) ↔
          s.bits.used 0 = true)) := by
  obtain ⟨f, lowest, frames, page⟩ := page_given frameless gave
  have kept : ∀ s₂, Reaches FrameStep (OnOthers p) s₁ s₂ → (s₂.page p).pFrame = f % 0x100000 := by
    intro s₂ run
    rw [(others_keep run).1, page]
  constructor
  · constructor
    · intro keeps
      refine ⟨f, lowest, fun zero => ?_⟩
      -- the same page again, for the other kind of owner
      have again := keeps s₁ .refl (!k) w
      obtain ⟨-, -, changed⟩ := allocFrame_gives ((kept s₁ .refl).trans zero) again
      rw [page] at changed
      have user : (!k) = !!k := congrArg VmPage.pUser changed
      cases k <;> cases user
    · rintro ⟨g, lowest', nonzero⟩ s₂ run k' w'
      obtain rfl := lowest.unique lowest'
      exact allocFrame_of_frame (by rw [kept s₂ run]; exact nonzero)
  · intro small s₂ run k' w'
    obtain ⟨inside, free, below⟩ := lowest
    have bound := s.bits.scanned_le
    have fits : f % 0x100000 = f := Nat.mod_eq_of_lt (by omega)
    constructor
    · intro keeps
      rcases Nat.eq_zero_or_pos f with rfl | pos
      · have few : s₂.bits.nframes ≤ 0x100000 := by rw [(others_keep run).2, frames]; exact small
        exact absurd keeps (allocFrame_ne_of_frameless few (kept s₂ run))
      · exact below 0 pos
    · intro set
      have nonzero : f ≠ 0 := by
        rintro rfl
        rw [free] at set
        cases set
      exact allocFrame_of_frame (by rw [kept s₂ run, fits]; exact nonzero)

end Repeat

/-- With frame 0 in use, a page keeps frame 1 however often it is asked for a frame. -/
theorem frame_1_given_once :
    ∃ s : FrameState (Fin 2),
      FrameStep { FrameState.boot with bits := Bitset.boot.setFrame 0 } (.allocFrame 0 true true)
        s ∧ (s.page 0).pFrame = 1 ∧ RepeatKeeps 0 s := by
  refine ⟨_, .allocFrame rfl, by decide, ?_⟩
  refine (repeated_alloc_frame (k := true) (w := true) rfl (.allocFrame rfl)).1.mpr ?_
  exact ⟨1, ⟨by decide, by decide, by decide⟩, by decide⟩

/-- At boot the first page gets frame 0, and the same call again gives it frame 1. -/
theorem frame_0_given_again :
    ∃ s : FrameState (Fin 2), FrameStep FrameState.boot (.allocFrame 0 true true) s ∧
      (s.page 0).pFrame = 0 ∧ s.bits.used 0 = true ∧ s.bits.used 1 = false ∧
      (∃ b v, allocFrame s.bits (s.page 0) true true = .ok (b, v) ∧ v.pFrame = 1 ∧
        b.used 1 = true) ∧ ¬RepeatKeeps 0 s := by
  refine ⟨_, .allocFrame rfl, by decide, by decide, by decide, ⟨_, _, rfl, by decide, by decide⟩, ?_⟩
  intro keeps
  have again := congrArg (fun r => (r.toOption.map fun c => c.2.pFrame)) (keeps _ .refl true true)
  exact absurd again (by decide)

end MiniKernel.Kernel
