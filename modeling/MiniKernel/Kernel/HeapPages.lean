/-
# Kernel.HeapPages -- page tables, frames and pages under a growing heap

`expand` changes the directory in two ways: a page table that was missing is
installed, and a page gets a frame.  Neither touches a page that is in use, so
what the heap holds stays (`HeapInv.remap`).  `tablesSince d d'` are the tables
`d'` has and `d` had not; they are blocks of the heap, and the kernel never
gives them back.
-/
import MiniKernel.Kernel.HeapPlace

namespace MiniKernel.Kernel

open Theory

set_option autoImplicit false

/-! ## Page tables -/

namespace VmPageDirectory

/-- The address of the page table in a slot. -/
def tableAt (d : VmPageDirectory) (t : Nat) : Option Nat := (d.pdTables t).map (·.address)

@[simp] theorem tableAt_setPage (d : VmPageDirectory) (p : PagePtr) (v : VmPage) (t : Nat) :
    (d.setPage p v).tableAt t = d.tableAt t := by
  simp only [tableAt, setPage, Function.update_apply]
  by_cases h : t = p.table
  · subst h
    rw [if_pos rfl, Option.map_map]
    rfl
  · rw [if_neg h]

theorem tableAt_install (d : VmPageDirectory) (t address phys u : Nat) :
    (d.install t address phys).tableAt u = if u = t then some address else d.tableAt u := by
  simp only [tableAt, install, Function.update_apply]
  split <;> rfl

theorem tableAt_eq_none {d : VmPageDirectory} {t : Nat} :
    d.tableAt t = none ↔ d.pdTables t = none := by
  simp [tableAt]

/-- Every table of `d` still is in its slot. -/
def Extends (d d' : VmPageDirectory) : Prop := ∀ t a, d.tableAt t = some a → d'.tableAt t = some a

theorem Extends.refl (d : VmPageDirectory) : Extends d d := fun _ _ h => h

theorem Extends.trans {d d' d'' : VmPageDirectory} (first : Extends d d') (second : Extends d' d'') :
    Extends d d'' := fun t _ h => second t _ (first t _ h)

theorem extends_of_same {d d' : VmPageDirectory} (same : ∀ t, d'.tableAt t = d.tableAt t) :
    Extends d d' := fun t _ h => (same t).trans h

/-- When the tables are the same in the end, they were all the time. -/
theorem same_of_extends {d d' d'' : VmPageDirectory} (first : Extends d d') (second : Extends d' d'')
    (same : ∀ t, d''.tableAt t = d.tableAt t) (t : Nat) : d'.tableAt t = d.tableAt t := by
  cases was : d.tableAt t with
  | some a => exact first t a was
  | none =>
      cases is : d'.tableAt t with
      | some a => exact absurd ((second t a is).symm.trans ((same t).trans was)) (by simp)
      | none => rfl

theorem extends_install {d : VmPageDirectory} {t : Nat} (missing : d.tableAt t = none)
    (address phys : Nat) : Extends d (d.install t address phys) := by
  intro u a h
  rw [tableAt_install]
  by_cases same : u = t
  · rw [same, missing] at h
    cases h
  · rw [if_neg same]
    exact h

/-- The tables `d'` has and `d` had not. -/
def tablesSince (d d' : VmPageDirectory) : List Nat :=
  (List.range 1024).filterMap fun t => if d.tableAt t = none then d'.tableAt t else none

theorem tablesSince_congr {d d' e : VmPageDirectory} (same : ∀ t, d'.tableAt t = e.tableAt t) :
    tablesSince d d' = tablesSince d e := by
  simp only [tablesSince, same]

theorem tablesSince_self (d : VmPageDirectory) : tablesSince d d = [] := by
  rw [tablesSince, List.filterMap_eq_nil_iff]
  intro t _
  split
  · assumption
  · rfl

theorem tablesSince_install {d : VmPageDirectory} {t : Nat} (missing : d.tableAt t = none)
    (slot : t < 1024) (address phys : Nat) :
    tablesSince d (d.install t address phys) = [address] := by
  have cut : List.range 1024 = List.range t ++ t :: (List.range (1023 - t)).map (· + (t + 1)) := by
    have shift : (fun u => u + (t + 1)) = (fun u => t + 1 + u) := by
      funext u
      omega
    rw [← List.singleton_append, ← List.append_assoc, ← List.range_succ, shift, ← List.range_add]
    congr 1
    omega
  have others : ∀ u, u ≠ t →
      (if d.tableAt u = none then (d.install t address phys).tableAt u else none) = none := by
    intro u other
    rw [tableAt_install, if_neg other]
    split
    · assumption
    · rfl
  have before : ∀ u ∈ List.range t, u ≠ t := fun u mem => Nat.ne_of_lt (List.mem_range.mp mem)
  rw [tablesSince, cut, List.filterMap_append,
    List.filterMap_eq_nil_iff.mpr fun u mem => others u (before u mem), List.nil_append,
    List.filterMap_cons, if_pos missing, tableAt_install, if_pos rfl,
    List.filterMap_eq_nil_iff.mpr fun u mem => others u ?_]
  obtain ⟨v, -, rfl⟩ := List.mem_map.mp mem
  omega

theorem tablesSince_trans {d d' d'' : VmPageDirectory} (first : Extends d d')
    (second : Extends d' d'') :
    (tablesSince d d'').Perm (tablesSince d' d'' ++ tablesSince d d') := by
  unfold tablesSince
  induction List.range 1024 with
  | nil => exact List.Perm.refl _
  | cons t l ih =>
      simp only [List.filterMap_cons]
      cases old : d.tableAt t with
      | some a =>
          have mid := first t a old
          simpa [mid] using ih
      | none =>
          cases mid : d'.tableAt t with
          | some a =>
              have last := second t a mid
              simp only [if_pos, last, reduceCtorEq, if_false]
              exact (ih.cons a).trans List.perm_middle.symm
          | none =>
              cases last : d''.tableAt t with
              | some a =>
                  simp only [if_pos, List.cons_append]
                  exact ih.cons a
              | none => simpa using ih

end VmPageDirectory

/-! ## Frames -/

section Frames

variable {K : KState} {hi : Nat} {bs : List Block} {E : Stop → Prop}

/-- An entry with a frame of its own keeps the frames in order. -/
theorem framesOk_setPage (frames : FramesOk K) {p : PagePtr} {v x : VmPage} {b : Bitset}
    (entry : K.dir.page p = some v) (present : x.pPresent = true) (bound : x.pFrame < 0x1000)
    (used : b.used x.pFrame = true) (nframes : b.nframes = 0x1000)
    (more : ∀ g, K.bits.used g = true → b.used g = true)
    (fresh : ∀ q w, q ≠ p → K.dir.page q = some w → w.pFrame ≠ 0 → w.pFrame ≠ x.pFrame) :
    FramesOk { K with bits := b, dir := K.dir.setPage p x } := by
  have pages : ∀ q, (K.dir.setPage p x).page q = if q = p then some x else K.dir.page q := by
    intro q
    rw [VmPageDirectory.page_setPage, entry]
    rfl
  refine ⟨nframes, fun q w at_q held => ?_, fun q r w w' at_q at_r held same => ?_⟩
  · dsimp only at at_q ⊢
    rw [pages] at at_q
    split at at_q
    · obtain rfl := Option.some.inj at_q
      exact ⟨present, bound, used⟩
    · obtain ⟨here, bound, used⟩ := frames.owned q w at_q held
      exact ⟨here, bound, more _ used⟩
  · dsimp only at at_q at_r
    rw [pages] at at_q at_r
    split at at_q <;> split at at_r
    · rename_i h1 h2
      rw [h1, h2]
    · rename_i other
      obtain rfl := Option.some.inj at_q
      exact absurd same.symm (fresh r w' other at_r (same ▸ held))
    · rename_i other _
      obtain rfl := Option.some.inj at_r
      exact absurd same (fresh q w other at_q held)
    · exact frames.unique q r w w' at_q at_r held same

/-- An entry with a frame of its own in the place of the entry of the page at
`hi`. -/
theorem mapped_setPage (frames : FramesOk K) (mapped : Mapped K hi) (aligned : hi % 0x1000 = 0)
    (zero : K.bits.used 0 = true ∨ K.heap.hAddrStart + vmHeapMinSize ≤ hi) {v x : VmPage}
    {b : Bitset} (entry : K.dir.page (pagePtr hi) = some v) (present : x.pPresent = true)
    (bound : x.pFrame < 0x1000) (used : b.used x.pFrame = true) (nframes : b.nframes = 0x1000)
    (more : ∀ g, K.bits.used g = true → b.used g = true)
    (fresh : ∀ q w, q ≠ pagePtr hi → K.dir.page q = some w → w.pFrame ≠ 0 → w.pFrame ≠ x.pFrame)
    (zeroFree : x.pFrame = 0 → K.bits.used 0 = false) :
    FramesOk { K with bits := b, dir := K.dir.setPage (pagePtr hi) x } ∧
      Mapped { K with bits := b, dir := K.dir.setPage (pagePtr hi) x } (hi + 0x1000) := by
  have pages : ∀ q, (K.dir.setPage (pagePtr hi) x).page q =
      if q = pagePtr hi then some x else K.dir.page q := by
    intro q
    rw [VmPageDirectory.page_setPage, entry]
    rfl
  have here : ∀ a, hi ≤ a → a < hi + 0x1000 → pagePtr a = pagePtr hi := by
    intro a h1 h2
    simp only [pagePtr, PagePtr.mk.injEq]
    omega
  have below : ∀ a, a < hi → pagePtr a ≠ pagePtr hi := by
    intro a h1 same
    have := Backed.pagePtr_inj same
    omega
  have old : ∀ a, a < hi → (K.dir.setPage (pagePtr hi) x).page (pagePtr a) =
      K.dir.page (pagePtr a) := fun a h1 => by rw [pages, if_neg (below a h1)]
  have new : ∀ a, hi ≤ a → a < hi + 0x1000 → (K.dir.setPage (pagePtr hi) x).page (pagePtr a) =
      some x := fun a h1 h2 => by rw [pages, if_pos (here a h1 h2)]
  -- a page below cannot have the frame of the new entry
  have apart : ∀ a w, K.heap.hAddrStart - 0x1000 ≤ a → a < hi → K.dir.page (pagePtr a) = some w →
      w.pFrame ≠ x.pFrame := by
    intro a w h1 h2 at_a same
    by_cases null : w.pFrame = 0
    · have := (mapped.zero a w h1 h2 at_a null).2
      rw [zeroFree (same ▸ null)] at this
      cases this
    · exact fresh _ w (below a h2) at_a null same
  refine ⟨framesOk_setPage frames entry present bound used nframes more fresh, ?_⟩
  refine ⟨⟨mapped.backed.on, fun a h1 h2 => ?_, fun a c w w' h1 h2 h3 h4 at_a at_c same => ?_⟩,
    fun a w h1 h2 at_a null => ?_⟩
  · rcases Nat.lt_or_ge a hi with less | more
    · obtain ⟨w, at_a, shown⟩ := mapped.backed.present a h1 less
      exact ⟨w, (old a less).trans at_a, shown⟩
    · exact ⟨x, new a more h2, present⟩
  · dsimp only at at_a at_c h1 h3
    rcases Nat.lt_or_ge a hi with less | more <;> rcases Nat.lt_or_ge c hi with less' | more'
    · rw [old a less] at at_a
      rw [old c less'] at at_c
      exact mapped.backed.distinct a c w w' h1 less h3 less' at_a at_c same
    · rw [old a less] at at_a
      rw [new c more' h4] at at_c
      obtain rfl := Option.some.inj at_c
      exact absurd same (apart a w h1 less at_a)
    · rw [new a more h2] at at_a
      rw [old c less'] at at_c
      obtain rfl := Option.some.inj at_a
      exact absurd same.symm (apart c w' h3 less' at_c)
    · rw [here a more h2, here c more' h4]
  · dsimp only at at_a h1 ⊢
    rcases Nat.lt_or_ge a hi with less | more'
    · rw [old a less] at at_a
      exact ⟨(mapped.zero a w h1 less at_a null).1, more _ (mapped.zero a w h1 less at_a null).2⟩
    · rw [new a more' h2] at at_a
      obtain rfl := Option.some.inj at_a
      rw [null] at used
      refine ⟨?_, used⟩
      rcases zero with taken | far
      · rw [zeroFree null] at taken
        cases taken
      · omega

/-- `alloc_frame` on the page behind the last one: it belongs to the heap then.
It stops when there is no frame, and for no other reason. -/
theorem wp_allocFramePage (frames : FramesOk K) (mapped : Mapped K hi) (aligned : hi % 0x1000 = 0)
    (zero : K.bits.used 0 = true ∨ K.heap.hAddrStart + vmHeapMinSize ≤ hi) {v : VmPage}
    (entry : K.dir.page (pagePtr hi) = some v) {isKernel isWriteable : Bool}
    {Q : Unit → KState → Prop} (none : E (.panic .noFreeFrame))
    (post : ∀ b x, FramesOk { K with bits := b, dir := K.dir.setPage (pagePtr hi) x } →
      Mapped { K with bits := b, dir := K.dir.setPage (pagePtr hi) x } (hi + 0x1000) →
      (K.bits.used 0 = true → b.used 0 = true) →
      Q () { K with bits := b, dir := K.dir.setPage (pagePtr hi) x }) :
    Program.wp (allocFramePage (some (pagePtr hi)) isKernel isWriteable) Q E K := by
  have small : K.bits.nframes ≤ 0x100000 := by rw [frames.nframes]; decide
  rcases allocFrame_cases (p := v) (k := isKernel) (w := isWriteable) small with
    ⟨held, ran⟩ | ⟨null, bound, free, ran⟩ | ⟨-, -, ran⟩
  · refine (Program.wp_of_ok (by rw [allocFramePage]; simp only [entry, ran]; rfl)).mpr ?_
    obtain ⟨present, bound, used⟩ := frames.owned _ v entry held
    obtain ⟨frames', mapped'⟩ := mapped_setPage frames mapped aligned zero entry present bound used
      frames.nframes (fun _ h => h)
      (fun q w other at_q held' same => other (frames.unique q _ w v at_q entry held' same))
      (fun null => absurd null held)
    exact post _ _ frames' mapped' fun h => h
  · refine (Program.wp_of_ok (by rw [allocFramePage]; simp only [entry, ran]; rfl)).mpr ?_
    have more : ∀ g, K.bits.used g = true →
        (K.bits.setFrame (K.bits.firstFrame * 0x1000)).used g = true := by
      intro g h
      rw [used_alloc, h, Bool.or_true]
    obtain ⟨frames', mapped'⟩ := mapped_setPage frames mapped aligned zero entry
      (x := { pPresent := true, pFrame := K.bits.firstFrame, pRw := isWriteable, pUser := !isKernel })
      (b := K.bits.setFrame (K.bits.firstFrame * 0x1000))
      rfl (frames.nframes ▸ bound) (by rw [used_alloc]; simp) frames.nframes more
      (fun q w _ at_q held same => by
        have used := (frames.owned q w at_q held).2.2
        rw [same, free] at used
        cases used)
      (fun null => null ▸ free)
    exact post _ _ frames' mapped' (more 0)
  · refine (Program.wp_of_error ?_).mpr none
    rw [allocFramePage]
    simp only [entry, ran]
    rfl

/-- A new page table has no frames, and no page in use was in its slot. -/
theorem mapped_install (frames : FramesOk K) (mapped : Mapped K hi) {t : Nat}
    (missing : K.dir.tableAt t = none) (address phys : Nat) :
    FramesOk { K with dir := K.dir.install t address phys } ∧
      Mapped { K with dir := K.dir.install t address phys } hi ∧
      ∀ a, K.heap.hAddrStart - 0x1000 ≤ a → a < hi →
        (K.dir.install t address phys).page (pagePtr a) = K.dir.page (pagePtr a) := by
  have old : ∀ q v, (K.dir.install t address phys).page q = some v → v.pFrame ≠ 0 →
      K.dir.page q = some v := by
    intro q v at_q held
    rw [VmPageDirectory.page_install] at at_q
    split at at_q
    · obtain rfl := Option.some.inj at_q
      exact absurd rfl held
    · exact at_q
  have same : ∀ a, K.heap.hAddrStart - 0x1000 ≤ a → a < hi →
      (K.dir.install t address phys).page (pagePtr a) = K.dir.page (pagePtr a) := by
    intro a h1 h2
    obtain ⟨v, entry, -⟩ := mapped.backed.present a h1 h2
    rw [VmPageDirectory.page_install, if_neg]
    rintro rfl
    rw [VmPageDirectory.page, VmPageDirectory.tableAt_eq_none.mp missing] at entry
    cases entry
  refine ⟨⟨frames.nframes, fun q v at_q held => frames.owned q v (old q v at_q held) held,
    fun p q v w at_p at_q held eq => frames.unique p q v w (old p v at_p held)
      (old q w at_q (eq ▸ held)) held eq⟩, ⟨mapped.backed.congr rfl same, ?_⟩, same⟩
  intro a v h1 h2 at_a null
  exact mapped.zero a v h1 h2 ((same a h1 h2).symm.trans at_a) null

/-- A change of the mapping that spares the pages of the heap. -/
theorem HeapInv.remap (h : HeapInv K bs) {b : Bitset} {d : VmPageDirectory}
    (same : ∀ a, K.heap.hAddrStart - 0x1000 ≤ a → a < K.heap.hAddrEnd →
      d.page (pagePtr a) = K.dir.page (pagePtr a))
    (frames : FramesOk { K with bits := b, dir := d })
    (used : K.bits.used 0 = true → b.used 0 = true) :
    HeapInv { K with bits := b, dir := d } bs ∧
      (∀ c ∈ bs, Kept K { K with bits := b, dir := d } bs c) ∧
      SameIndex K { K with bits := b, dir := d } := by
  have sees : Sees { K with bits := b, dir := d } (K.heap.hAddrStart - 0x1000) K.heap.hAddrEnd
      K.view := h.sees.congr rfl rfl same
  refine ⟨{ h with
    blocks := h.blocks.congr fun a h1 h2 => sees.eq a (by omega) h2
    frames := frames
    mapped := ⟨sees.backed, fun a v h1 h2 at_a null => ?_⟩
    zeroUsed := h.zeroUsed.imp_left used }, fun c mem => ⟨mem, fun a h1 h2 => ?_⟩,
    rfl, fun a listed => ?_⟩
  · obtain ⟨far, taken⟩ := h.mapped.zero a v h1 h2 ((same a h1 h2).symm.trans at_a) null
    exact ⟨far, used taken⟩
  · have bounds := h.blocks.bounds mem
    exact sees.eq a (by omega) (by omega)
  · obtain ⟨h1, h2⟩ := h.indexIn a listed
    exact sees.word (by omega) (by omega)

end Frames

end MiniKernel.Kernel
