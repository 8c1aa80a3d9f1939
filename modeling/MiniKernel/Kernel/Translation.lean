/-
# Kernel.Translation -- what the page tables let the MMU translate

The MMU translates an address when its entry has `p_present` set, to the frame
in `p_frame`.  `NoAlias` is what paging needs of a state: two present entries
never name one frame, and a present entry names a used frame.

`get_page` and `alloc_frame` keep it, whatever table a missing slot is filled
with (`getPage_noAlias`, `allocFrame_noAlias`).  `free_frame` resets `p_frame`
and not `p_present`, and clears bit 0 of the bitset, so the entry it releases
goes on translating, to the free frame 0 (`freeFrame_aliases`).
-/
import MiniKernel.Kernel.Paging
import MiniKernel.Kernel.FrameOwnership

namespace MiniKernel.Kernel

open Theory

set_option autoImplicit false

/-- The directory and the bitset. -/
structure PagingState where
  dir : VmPageDirectory
  bits : Bitset

/-- Empty page tables and an all-zero bitset. -/
def PagingState.boot : PagingState := { dir := VmPageDirectory.zero, bits := Bitset.boot }

/-- The calls a run is made of.  `fresh` is the zeroed block, address and
physical address, that `kmalloc0_ap` returns when `get_page` asks for a table. -/
inductive PagingCall where
  | getPage (address : Nat) (create : Bool) (fresh : Nat × Nat)
  | allocFrame (address : Nat) (isKernel isWriteable : Bool)
  | freeFrame (address : Nat)

/-- One call that returns.  A page is passed by an address that `get_page` has
an entry for. -/
inductive PagingStep : PagingState → PagingCall → PagingState → Prop where
  | getPage {s s' : PagingState} {address : Nat} {create : Bool} {fresh : Nat × Nat}
      {p : Option PagePtr}
      (ran : getPage PagingState.dir (fun d s => { s with dir := d }) (fun _ => pure fresh)
        address create s = .ok (p, s')) :
      PagingStep s (.getPage address create fresh) s'
  | allocFrame {s : PagingState} {address : Nat} {isKernel isWriteable : Bool} {v v' : VmPage}
      {b : Bitset} (got : s.dir.page (pagePtr address) = some v)
      (ran : allocFrame s.bits v isKernel isWriteable = .ok (b, v')) :
      PagingStep s (.allocFrame address isKernel isWriteable)
        { dir := s.dir.setPage (pagePtr address) v', bits := b }
  | freeFrame {s : PagingState} {address : Nat} {v : VmPage}
      (got : s.dir.page (pagePtr address) = some v) :
      PagingStep s (.freeFrame address)
        { dir := s.dir.setPage (pagePtr address) (freeFrame s.bits v).2
          bits := (freeFrame s.bits v).1 }

/-- Distinct present entries hold distinct frames, and the frame of a present
entry is used. -/
structure NoAlias (s : PagingState) : Prop where
  distinct : ∀ p q v w, s.dir.page p = some v → s.dir.page q = some w →
    v.pPresent = true → w.pPresent = true → p ≠ q → v.pFrame ≠ w.pFrame
  used : ∀ p v, s.dir.page p = some v → v.pPresent = true → s.bits.used v.pFrame = true

/-- The calls that release no frame: `free_frame` on entries without one. -/
def KeepsFrames (s : PagingState) : PagingCall → Prop
  | .freeFrame address => ∀ v, s.dir.page (pagePtr address) = some v → v.pFrame = 0
  | _ => True

/-- What holds besides `NoAlias`: only present entries hold a frame. -/
structure TranslationOk (s : PagingState) : Prop extends NoAlias s where
  nframes : s.bits.nframes = 0x1000
  present : ∀ p v, s.dir.page p = some v → v.pFrame ≠ 0 → v.pPresent = true ∧ v.pFrame < 0x1000

theorem translationOk_boot : TranslationOk PagingState.boot where
  distinct p q v w h := by simp [PagingState.boot, VmPageDirectory.zero, VmPageDirectory.page] at h
  used p v h := by simp [PagingState.boot, VmPageDirectory.zero, VmPageDirectory.page] at h
  nframes := rfl
  present p v h := by simp [PagingState.boot, VmPageDirectory.zero, VmPageDirectory.page] at h

/-- A new table holds no present entry. -/
theorem install_noAlias {s : PagingState} (ok : TranslationOk s) (t address phys : Nat) :
    TranslationOk { s with dir := s.dir.install t address phys } := by
  have entry : ∀ p v, (s.dir.install t address phys).page p = some v →
      v = VmPage.zero ∨ s.dir.page p = some v := by
    intro p v h
    rw [VmPageDirectory.page_install] at h
    split at h
    · exact .inl (Option.some.inj h).symm
    · exact .inr h
  have present : ∀ p v, (s.dir.install t address phys).page p = some v → v.pPresent = true →
      s.dir.page p = some v := by
    intro p v h live
    refine (entry p v h).resolve_left fun zero => ?_
    subst zero
    cases live
  refine { distinct := ?_, used := ?_, nframes := ok.nframes, present := ?_ }
  · intro p q v w hv hw pv pw ne
    exact ok.distinct p q v w (present p v hv pv) (present q w hw pw) pv pw ne
  · intro p v hv pv
    exact ok.used p v (present p v hv pv) pv
  · intro p v hv frame
    refine ok.present p v ((entry p v hv).resolve_left fun zero => ?_) frame
    subst zero
    exact frame rfl

theorem getPage_noAlias {s s' : PagingState} {address : Nat} {create : Bool} {fresh : Nat × Nat}
    {p : Option PagePtr} (ok : TranslationOk s)
    (ran : getPage PagingState.dir (fun d s => { s with dir := d }) (fun _ => pure fresh)
      address create s = .ok (p, s')) : TranslationOk s' := by
  refine Program.wp_ok (Q := fun _ s' => TranslationOk s') (E := fun _ => True) ?_ ran
  simp only [getPage, Program.wp_bind, Program.wp_get, Program.wp_ite, Program.wp_pure,
    Program.wp_modify]
  refine ⟨fun _ => ok, fun _ => ⟨fun _ => install_noAlias ok _ _ _, fun _ => ok⟩⟩

theorem allocFrame_noAlias {s s' : PagingState} {address : Nat} {k w : Bool}
    (ok : TranslationOk s) (step : PagingStep s (.allocFrame address k w) s') :
    TranslationOk s' := by
  cases step with
  | @allocFrame _ _ _ v v' b got ran =>
  have page : ∀ q, (s.dir.setPage (pagePtr address) v').page q =
      if q = pagePtr address then some v' else s.dir.page q := by
    intro q
    rw [VmPageDirectory.page_setPage, got, Option.map_some]
  rcases allocFrame_cases (b := s.bits) (p := v) (k := k) (w := w)
    (by rw [ok.nframes]; decide) with ⟨held, same⟩ | ⟨none, lt, free, gave⟩ | ⟨-, -, stopped⟩
  · rw [same] at ran
    obtain ⟨rfl, rfl⟩ : s.bits = b ∧ v = v' := by simpa using ran
    have unchanged : ∀ q, (s.dir.setPage (pagePtr address) v).page q = s.dir.page q := by
      intro q
      rw [page]
      split
      · rename_i h; rw [h, got]
      · rfl
    refine { distinct := ?_, used := ?_, nframes := ok.nframes, present := ?_ }
    · simpa only [unchanged] using ok.distinct
    · simpa only [unchanged] using ok.used
    · simpa only [unchanged] using ok.present
  · rw [gave] at ran
    obtain ⟨rfl, rfl⟩ : s.bits.setFrame (s.bits.firstFrame * 0x1000) = b ∧ _ = v' := by
      simpa using ran
    -- the frame was free, so no present entry names it
    have fresh : ∀ q x, s.dir.page q = some x → x.pPresent = true →
        x.pFrame ≠ s.bits.firstFrame := by
      intro q x hx px same
      have := ok.used q x hx px
      rw [same, free] at this
      cases this
    have bound := ok.nframes
    refine { distinct := ?_, used := ?_, nframes := ok.nframes, present := ?_ }
    · intro p q x y hx hy px py ne
      simp only [page] at hx hy
      split at hx <;> split at hy
      · rename_i hp hq; exact absurd (hp.trans hq.symm) ne
      · obtain rfl := Option.some.inj hx
        exact (fresh q y hy py).symm
      · obtain rfl := Option.some.inj hy
        exact fresh p x hx px
      · exact ok.distinct p q x y hx hy px py ne
    · intro p x hx px
      simp only [page] at hx
      rw [used_alloc]
      split at hx
      · obtain rfl := Option.some.inj hx
        simp
      · simp [ok.used p x hx px]
    · intro p x hx frame
      simp only [page] at hx
      split at hx
      · obtain rfl := Option.some.inj hx
        exact ⟨rfl, by dsimp only; omega⟩
      · exact ok.present p x hx frame
  · rw [stopped] at ran
    cases ran

theorem freeFrame_noAlias {s s' : PagingState} {address : Nat} (ok : TranslationOk s)
    (keeps : KeepsFrames s (.freeFrame address)) (step : PagingStep s (.freeFrame address) s') :
    TranslationOk s' := by
  cases step with
  | @freeFrame _ v got =>
  have none := keeps v got
  have same : freeFrame s.bits v = (s.bits, v) := by rw [freeFrame, if_pos none]
  rw [same]
  have unchanged : ∀ q, (s.dir.setPage (pagePtr address) v).page q = s.dir.page q := by
    intro q
    rw [VmPageDirectory.page_setPage, got, Option.map_some]
    split
    · rename_i h; rw [h, got]
    · rfl
  refine { distinct := ?_, used := ?_, nframes := ok.nframes, present := ?_ }
  · simpa only [unchanged] using ok.distinct
  · simpa only [unchanged] using ok.used
  · simpa only [unchanged] using ok.present

/-- The entry that `free_frame` takes a frame from stays present, and names the
frame 0 whose bit was just cleared. -/
theorem freeFrame_aliases {s s' : PagingState} {address : Nat} {v : VmPage} (ok : TranslationOk s)
    (got : s.dir.page (pagePtr address) = some v) (held : v.pFrame ≠ 0)
    (step : PagingStep s (.freeFrame address) s') : ¬NoAlias s' := by
  intro after
  obtain ⟨present, small⟩ := ok.present _ v got held
  cases step with
  | @freeFrame _ v' got' =>
  obtain rfl : v = v' := Option.some.inj (got.symm.trans got')
  have free : freeFrame s.bits v = (s.bits.clearFrame v.pFrame, { v with pFrame := 0 }) := by
    rw [freeFrame, if_neg held]
  have entry := VmPageDirectory.page_setPage s.dir (pagePtr address) (pagePtr address)
    (freeFrame s.bits v).2
  rw [if_pos rfl, got, Option.map_some, free] at entry
  have used := after.used (pagePtr address) { v with pFrame := 0 } (by rw [free]; exact entry)
    present
  rw [free] at used
  simp only [Bitset.used_clearFrame] at used
  have : (0 : Nat) = v.pFrame / 0x1000 := by omega
  simp [← this] at used

/-- **No physical aliasing.**  As long as no call releases a frame, present
entries hold distinct used frames; the first release that takes a frame from an
entry breaks this. -/
theorem noAlias_of_run_keeping_frames {s : PagingState}
    (run : Reaches PagingStep KeepsFrames PagingState.boot s) :
    NoAlias s ∧ ∀ address s', PagingStep s (.freeFrame address) s' →
      (NoAlias s' ↔ KeepsFrames s (.freeFrame address)) := by
  have ok : TranslationOk s := by
    refine run.invariant translationOk_boot fun s call s' ok keeps step => ?_
    cases call with
    | getPage address create fresh =>
        cases step with
        | getPage ran => exact getPage_noAlias ok ran
    | allocFrame address k w => exact allocFrame_noAlias ok step
    | freeFrame address => exact freeFrame_noAlias ok keeps step
  refine ⟨ok.toNoAlias, fun address s' step => ⟨fun after v got => ?_, fun keeps => ?_⟩⟩
  · by_contra held
    exact freeFrame_aliases ok got held step after
  · exact (freeFrame_noAlias ok keeps step).toNoAlias

/-- Two pages of one table get frames 0 and 1. -/
theorem noAlias_after_two_pages :
    ∃ s : PagingState, (∃ v, s.dir.page (pagePtr 0x2000) = some v ∧ v.pFrame = 1) ∧ NoAlias s := by
  refine ⟨_, ⟨_, rfl, ?_⟩, (noAlias_of_run_keeping_frames
    (.tail (i := .allocFrame 0x2000 false false) (.tail (i := .allocFrame 0x1000 false false)
      (.tail (i := .getPage 0 true (0x200000, 0x200000)) .refl trivial (.getPage rfl))
      trivial (.allocFrame rfl rfl)) trivial (.allocFrame rfl rfl))).1⟩
  decide

/-- Three pages get frames 0, 1 and 2; after the second and the third are
released, all three entries are present and name frame 0, which is free. -/
theorem released_pages_alias :
    ∃ s : PagingState, Reachable PagingStep PagingState.boot s ∧
      (∃ v w, s.dir.page (pagePtr 0x2000) = some v ∧ s.dir.page (pagePtr 0x3000) = some w ∧
        v.pPresent = true ∧ w.pPresent = true ∧ v.pFrame = w.pFrame ∧
        s.bits.used v.pFrame = false) ∧ ¬NoAlias s := by
  refine ⟨_, .tail (i := .freeFrame 0x3000) (.tail (i := .freeFrame 0x2000)
    (.tail (i := .allocFrame 0x3000 false false) (.tail (i := .allocFrame 0x2000 false false)
      (.tail (i := .allocFrame 0x1000 false false)
        (.tail (i := .getPage 0 true (0x200000, 0x200000)) .refl trivial (.getPage rfl))
        trivial (.allocFrame rfl rfl)) trivial (.allocFrame rfl rfl)) trivial (.allocFrame rfl rfl))
    trivial (.freeFrame rfl)) trivial (.freeFrame rfl), ⟨_, _, rfl, rfl, ?_, ?_, ?_, ?_⟩, ?_⟩
  · decide
  · decide
  · decide
  · decide
  · intro ok
    exact ok.distinct (pagePtr 0x2000) (pagePtr 0x3000) _ _ rfl rfl (by decide) (by decide)
      (by decide) (by decide)

end MiniKernel.Kernel
