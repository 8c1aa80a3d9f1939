/-
# Kernel.FrameOwnership -- which page owns which frame

The bitset says which frames are used, the pages say which frame each of them
holds, and the history says which frame `alloc_frame` gave to which page and
`free_frame` has not taken back.  `FrameState` carries that history as `owns`,
next to the two pieces of state of the source.

`alloc_frame` keeps the three in agreement (`allocFrame_owned`).  `free_frame`
never gives back the frame of the page: it passes a frame number where
`clear_frame` expects an address, so below 16 MiB it clears bit 0, and a page
that holds frame 0 counts as a page without a frame.  So a run keeps the
agreement exactly as long as it releases nothing
(`owned_of_run_without_release`).
-/
import MiniKernel.Kernel.Frames
import MiniKernel.Theory.Transition

namespace MiniKernel.Kernel

open Theory

set_option autoImplicit false

/-- The values `init_paging` gives to `nframes` and, zeroed, to `frames`. -/
def Bitset.boot : Bitset := { frames := fun _ => 0, nframes := 0x1000000 / 0x1000 }

/-- The bitset, the pages, and the frames each page was given and still owns. -/
structure FrameState (P : Type) where
  bits : Bitset
  page : P → VmPage
  owns : P → Nat → Prop

namespace FrameState

variable {P : Type}

/-- All frames free, no page with a frame. -/
def boot : FrameState P :=
  { bits := Bitset.boot, page := fun _ => VmPage.zero, owns := fun _ _ => False }

/-- The frame `alloc_frame` gives to a page: none when the page has one. -/
def given (s : FrameState P) (p : P) (f : Nat) : Prop :=
  (s.page p).pFrame = 0 ∧ f = s.bits.firstFrame

end FrameState

/-- The calls a run is made of. -/
inductive FrameCall (P : Type) where
  | allocFrame (p : P) (isKernel isWriteable : Bool)
  | freeFrame (p : P)

section Runs

variable {P : Type}

/-- Bit `f` is set exactly when a page owns frame `f`, and no frame has two
owners. -/
structure Owned (s : FrameState P) : Prop where
  used_iff : ∀ f, s.bits.used f = true ↔ ∃ p, s.owns p f
  unique : ∀ p q f, s.owns p f → s.owns q f → p = q

/-- Releasing `p` clears the bits of the frames `p` owns and no other bit. -/
def ReleasesExactly (s : FrameState P) (p : P) : Prop :=
  ∀ f, (freeFrame s.bits (s.page p)).1.used f = true ↔ s.bits.used f = true ∧ ¬s.owns p f

/-- The calls that take no frame from its owner. -/
def TakesNothing (s : FrameState P) : FrameCall P → Prop
  | .allocFrame _ _ _ => True
  | .freeFrame p => ∀ f, ¬s.owns p f

/-- What holds besides `Owned` in a run that released nothing: a page that owns
no frame holds none. -/
structure OwnedRun (s : FrameState P) : Prop extends Owned s where
  nframes : s.bits.nframes = 0x1000
  held : ∀ p, (s.page p).pFrame ≠ 0 → s.owns p (s.page p).pFrame ∧ (s.page p).pFrame < 0x1000

theorem ownedRun_boot : OwnedRun (FrameState.boot : FrameState P) where
  used_iff f := by
    simp [FrameState.boot, Bitset.boot, Bitset.used, WordSet.mem]
  unique _ _ _ h := h.elim
  nframes := rfl
  held p h := absurd rfl h

/-- A release of a page that owns nothing changes nothing. -/
theorem freeFrame_of_takesNothing {s : FrameState P} {p : P} (owned : OwnedRun s)
    (nothing : ∀ f, ¬s.owns p f) : freeFrame s.bits (s.page p) = (s.bits, s.page p) := by
  have none : (s.page p).pFrame = 0 := by
    by_contra h
    exact nothing _ (owned.held p h).1
  rw [freeFrame, if_pos none]

/-- A release never clears the bit of a frame its page owns, unless it is bit 0
and the page holds another frame. -/
theorem used_after_freeFrame {s : FrameState P} {p : P} {f : Nat} (owned : OwnedRun s)
    (owner : s.owns p f) (kept : f ≠ 0 ∨ (s.page p).pFrame = 0) :
    (freeFrame s.bits (s.page p)).1.used f = true := by
  have used := (owned.used_iff f).mpr ⟨p, owner⟩
  unfold freeFrame
  split
  · exact used
  · rename_i held
    have small := (owned.held p held).2
    have nonzero : f ≠ 0 := kept.resolve_right held
    rw [Bitset.used_clearFrame, used]
    have : ¬f = (s.page p).pFrame / 0x1000 := by omega
    simp [this]

variable [DecidableEq P]

/-- One call that returns. -/
inductive FrameStep : FrameState P → FrameCall P → FrameState P → Prop where
  | allocFrame {s : FrameState P} {p : P} {isKernel isWriteable : Bool} {b : Bitset} {v : VmPage}
      (ran : allocFrame s.bits (s.page p) isKernel isWriteable = .ok (b, v)) :
      FrameStep s (.allocFrame p isKernel isWriteable)
        { bits := b
          page := Function.update s.page p v
          owns := fun q f => s.owns q f ∨ (q = p ∧ s.given p f) }
  | freeFrame {s : FrameState P} {p : P} :
      FrameStep s (.freeFrame p)
        { bits := (freeFrame s.bits (s.page p)).1
          page := Function.update s.page p (freeFrame s.bits (s.page p)).2
          owns := fun q f => s.owns q f ∧ q ≠ p }

/-- `alloc_frame` keeps the agreement. -/
theorem allocFrame_owned {s s' : FrameState P} {p : P} {k w : Bool} (owned : OwnedRun s)
    (step : FrameStep s (.allocFrame p k w) s') : OwnedRun s' := by
  cases step with
  | allocFrame ran =>
  rcases allocFrame_cases (b := s.bits) (p := s.page p) (k := k) (w := w)
    (by rw [owned.nframes]; decide) with ⟨held, same⟩ | ⟨none, lt, free, gave⟩ | ⟨-, -, stopped⟩
  · rw [same] at ran
    obtain ⟨rfl, rfl⟩ : s.bits = _ ∧ s.page p = _ := by simpa using ran
    have nothing : ∀ f, ¬s.given p f := fun f h => held h.1
    exact {
      used_iff := by simpa [nothing] using owned.used_iff
      unique := by simpa [nothing] using owned.unique
      nframes := owned.nframes
      held := by simpa [nothing] using owned.held }
  · rw [gave] at ran
    obtain ⟨rfl, rfl⟩ : s.bits.setFrame (s.bits.firstFrame * 0x1000) = _ ∧ _ = _ := by
      simpa using ran
    have nobody : ∀ q, ¬s.owns q s.bits.firstFrame := by
      intro q h
      have := (owned.used_iff s.bits.firstFrame).mpr ⟨q, h⟩
      simp [free] at this
    have given : ∀ f, s.given p f ↔ f = s.bits.firstFrame := fun f => by
      simp [FrameState.given, none]
    refine { used_iff := fun f => ?_, unique := ?_, nframes := owned.nframes, held := ?_ }
    · simp only [used_alloc, Bool.or_eq_true, decide_eq_true_eq, owned.used_iff, given]
      constructor
      · rintro (rfl | ⟨q, h⟩)
        · exact ⟨p, .inr ⟨rfl, rfl⟩⟩
        · exact ⟨q, .inl h⟩
      · rintro ⟨q, h | ⟨-, rfl⟩⟩
        · exact .inr ⟨q, h⟩
        · exact .inl rfl
    · intro q r f hq hr
      rcases hq with hq | ⟨rfl, hq⟩ <;> rcases hr with hr | ⟨rfl, hr⟩
      · exact owned.unique q r f hq hr
      · exact absurd ((given f).mp hr ▸ hq) (nobody q)
      · exact absurd ((given f).mp hq ▸ hr) (nobody r)
      · rfl
    · intro q
      have bound := owned.nframes
      by_cases h : q = p
      · subst h
        intro _
        simp only [Function.update_self, given]
        exact ⟨.inr ⟨trivial, trivial⟩, by omega⟩
      · simp only [Function.update_of_ne h]
        intro nonzero
        exact ⟨.inl (owned.held q nonzero).1, (owned.held q nonzero).2⟩
  · rw [stopped] at ran
    cases ran

theorem freeFrame_owned {s s' : FrameState P} {p : P} (owned : OwnedRun s)
    (nothing : ∀ f, ¬s.owns p f) (step : FrameStep s (.freeFrame p) s') : OwnedRun s' := by
  cases step with
  | freeFrame =>
  rw [freeFrame_of_takesNothing owned nothing, Function.update_eq_self]
  have same : ∀ q f, s.owns q f ∧ q ≠ p ↔ s.owns q f :=
    fun q f => ⟨fun h => h.1, fun h => ⟨h, fun e => nothing f (e ▸ h)⟩⟩
  exact {
    used_iff := by simpa only [same] using owned.used_iff
    unique := by simpa only [same] using owned.unique
    nframes := owned.nframes
    held := by simpa only [same] using owned.held }

/-- A release of a page that owns a frame always breaks the agreement: the frame
it should give back stays used and has no owner. -/
theorem freeFrame_breaks {s s' : FrameState P} {p : P} {f : Nat} (owned : OwnedRun s)
    (owner : s.owns p f) (step : FrameStep s (.freeFrame p) s') : ¬Owned s' := by
  intro after
  cases step with
  | freeFrame =>
  have leak : ∀ g, s.owns p g → (g ≠ 0 ∨ (s.page p).pFrame = 0) → False := by
    intro g owns kept
    obtain ⟨q, hq, ne⟩ := (after.used_iff g).mp (used_after_freeFrame owned owns kept)
    exact ne (owned.unique q p g hq owns)
  by_cases held : (s.page p).pFrame = 0
  · exact leak f owner (.inr held)
  · exact leak _ (owned.held p held).1 (.inl held)

/-- **Frame ownership.**  As long as a run takes no frame from its owner, the
bitset and the owners agree and every release is exact; the first release of a
page that owns a frame breaks the agreement. -/
theorem owned_of_run_without_release {s : FrameState P}
    (run : Reaches FrameStep TakesNothing FrameState.boot s) :
    (Owned s ∧ ∀ p, (∀ f, ¬s.owns p f) → ReleasesExactly s p) ∧
      ∀ p s', FrameStep s (.freeFrame p) s' → (Owned s' ↔ ∀ f, ¬s.owns p f) := by
  have owned : OwnedRun s := by
    refine run.invariant ownedRun_boot fun s call s' owned takes step => ?_
    cases call with
    | allocFrame p k w => exact allocFrame_owned owned step
    | freeFrame p => exact freeFrame_owned owned takes step
  refine ⟨⟨owned.toOwned, fun p nothing f => ?_⟩, fun p s' step => ⟨fun after f owner => ?_, ?_⟩⟩
  · rw [freeFrame_of_takesNothing owned nothing]
    simp [nothing f]
  · exact freeFrame_breaks owned owner step after
  · intro nothing
    exact (freeFrame_owned owned nothing step).toOwned

end Runs

/-- Two pages get frames 0 and 1, a third one is released without a frame. -/
theorem owned_after_two_pages :
    ∃ s : FrameState (Fin 3), s.owns 0 0 ∧ s.owns 1 1 ∧ Owned s := by
  refine ⟨_, ?_, ?_, (owned_of_run_without_release (P := Fin 3)
    (.tail (i := .freeFrame 2) (.tail (i := .allocFrame 1 false true)
      (.tail (i := .allocFrame 0 false true) .refl trivial (.allocFrame rfl))
      trivial (.allocFrame rfl)) ?_ .freeFrame)).1.1⟩
  · simp [FrameState.given, FrameState.boot, VmPage.zero]
    decide
  · simp [FrameState.given, FrameState.boot, VmPage.zero]
    decide
  · simp [TakesNothing, FrameState.boot]

/-- Page 0 gets frame 0 and page 1 frame 1; releasing page 1 clears bit 0 and
leaves bit 1 set. -/
theorem release_returns_wrong_frame :
    ∃ s : FrameState (Fin 2), Reachable FrameStep FrameState.boot s ∧
      s.owns 0 0 ∧ s.bits.used 0 = false ∧ s.bits.used 1 = true ∧ ¬Owned s := by
  refine ⟨_, .tail (i := .freeFrame 1) (.tail (i := .allocFrame 1 false true)
    (.tail (i := .allocFrame 0 false true) .refl trivial (.allocFrame rfl))
    trivial (.allocFrame rfl)) trivial .freeFrame, ?_, ?_, ?_, ?_⟩
  · simp [FrameState.given, FrameState.boot, VmPage.zero]
    decide
  · decide
  · decide
  · intro owned
    have used := (owned.used_iff 0).mpr ⟨0, by
      simp [FrameState.given, FrameState.boot, VmPage.zero]
      decide⟩
    exact absurd used (by decide)

end MiniKernel.Kernel
