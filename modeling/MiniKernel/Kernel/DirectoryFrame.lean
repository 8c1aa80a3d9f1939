/-
# Kernel.DirectoryFrame -- what alloc leaves of the kernel directory

A growth of the heap changes the kernel directory: `expand` puts page tables into slots
that were missing and gives frames to pages that had none.  That is all `alloc` does to
it, on any heap: a slot that is filled keeps its table and the entry the MMU reads, and a
page that has a frame keeps its `vm_page` (`FramesKept`).
-/
import MiniKernel.Kernel.HeapFields

namespace MiniKernel.Kernel

open Theory Program

set_option autoImplicit false

namespace VmPageDirectory

/-- Tables and frames may have come. -/
structure FramesKept (d d' : VmPageDirectory) : Prop where
  tables : ∀ i a, d.tableAt i = some a → d'.tableAt i = some a ∧ d'.pdTblphys i = d.pdTblphys i
  pages : ∀ p v, d.page p = some v → v.pFrame ≠ 0 → d'.page p = some v

/-- They came with their physical addresses, and below 4 GiB. -/
structure Enlarged (d d' : VmPageDirectory) : Prop extends FramesKept d d' where
  missing : ∀ i, d'.tableAt i = none → d'.pdTblphys i = d.pdTblphys i
  high : ∀ i, 1024 ≤ i → d'.tableAt i = d.tableAt i

variable {d d' d'' : VmPageDirectory}

theorem FramesKept.refl (d : VmPageDirectory) : FramesKept d d :=
  ⟨fun _ _ table => ⟨table, rfl⟩, fun _ _ entry _ => entry⟩

theorem FramesKept.trans (first : FramesKept d d') (second : FramesKept d' d'') :
    FramesKept d d'' where
  tables i a table := by
    obtain ⟨table', phys⟩ := first.tables i a table
    obtain ⟨table'', phys'⟩ := second.tables i a table'
    exact ⟨table'', phys'.trans phys⟩
  pages p v entry held := second.pages p v (first.pages p v entry held) held

theorem FramesKept.missing_before (h : FramesKept d d') {i : Nat} (missing : d'.tableAt i = none) :
    d.tableAt i = none := by
  cases table : d.tableAt i with
  | none => rfl
  | some a =>
      rw [(h.tables i a table).1] at missing
      cases missing

theorem Enlarged.refl (d : VmPageDirectory) : Enlarged d d :=
  ⟨.refl d, fun _ _ => rfl, fun _ _ => rfl⟩

theorem Enlarged.trans (first : Enlarged d d') (second : Enlarged d' d'') : Enlarged d d'' where
  toFramesKept := first.toFramesKept.trans second.toFramesKept
  missing i absent :=
    (second.missing i absent).trans (first.missing i (second.missing_before absent))
  high i le := (second.high i le).trans (first.high i le)

/-- An entry without a frame may change. -/
theorem enlarged_setPage {p : PagePtr} {v x : VmPage} (entry : d.page p = some v)
    (same : v.pFrame ≠ 0 → x = v) : Enlarged d (d.setPage p x) where
  tables i a table := ⟨(tableAt_setPage d p x i).trans table, rfl⟩
  pages q w at_q held := by
    rw [page_setPage]
    split
    · rename_i here
      rw [here, entry] at at_q
      obtain rfl := Option.some.inj at_q
      rw [entry, same held]
      rfl
    · exact at_q
  missing _ _ := rfl
  high i _ := tableAt_setPage d p x i

/-- A table may go to a slot that was missing at first. -/
theorem framesKept_install {i : Nat} (kept : FramesKept d d') (missing : d.tableAt i = none)
    (address phys : Nat) : FramesKept d (d'.install i address phys) where
  tables j a table := by
    have other : j ≠ i := by
      rintro rfl
      rw [missing] at table
      cases table
    rw [tableAt_install, if_neg other]
    obtain ⟨table', phys'⟩ := kept.tables j a table
    exact ⟨table', (Function.update_of_ne other _ _).trans phys'⟩
  pages p v entry held := by
    rw [page_install, if_neg]
    · exact kept.pages p v entry held
    · intro slot
      rw [page, slot, tableAt_eq_none.mp missing] at entry
      cases entry

theorem enlarged_install {i : Nat} (large : Enlarged d d') (missing : d.tableAt i = none)
    (low : i < 1024) (address phys : Nat) : Enlarged d (d'.install i address phys) where
  toFramesKept := framesKept_install large.toFramesKept missing address phys
  missing j absent := by
    rw [tableAt_install] at absent
    split at absent
    · cases absent
    · rename_i other
      exact (Function.update_of_ne other _ _).trans (large.missing j absent)
  high j le := by
    rw [tableAt_install, if_neg (by omega)]
    exact large.high j le

/-- No table came. -/
theorem Enlarged.same_tables (large : Enlarged d d') (none : tablesSince d d' = []) (i : Nat) :
    d'.tableAt i = d.tableAt i := by
  rcases Nat.lt_or_ge i 1024 with low | high
  · have absent := List.filterMap_eq_nil_iff.mp none i (List.mem_range.mpr low)
    cases table : d.tableAt i with
    | none => rwa [if_pos table] at absent
    | some a => exact (large.tables i a table).1
  · exact large.high i high

theorem Enlarged.same_phys (large : Enlarged d d') (none : tablesSince d d' = []) (i : Nat) :
    d'.pdTblphys i = d.pdTblphys i := by
  cases table : d'.tableAt i with
  | none => exact large.missing i table
  | some a => exact (large.tables i a ((large.same_tables none i).symm.trans table)).2

end VmPageDirectory

open VmPageDirectory

/-- The kernel directory is larger. -/
abbrev DirEnlarged (K K' : KState) : Prop := Enlarged K.dir K'.dir

instance : Std.Refl DirEnlarged := ⟨fun K => .refl K.dir⟩

instance : IsTrans KState DirEnlarged := ⟨fun _ _ _ => Enlarged.trans⟩

theorem dirEnlarged_ofPages : OfPages DirEnlarged := fun K K' same _ => by
  rw [DirEnlarged, same]
  exact .refl K.dir

theorem allocFramePage_enlarges (p : Option PagePtr) (su ro : Bool) :
    Within DirEnlarged (allocFramePage p su ro) := by
  intro K
  unfold wp allocFramePage
  cases p with
  | none => trivial
  | some p =>
      dsimp only
      cases entry : K.dir.page p with
      | none => trivial
      | some v =>
          dsimp only
          cases ran : allocFrame K.bits v su ro with
          | error e => trivial
          | ok r =>
              refine enlarged_setPage entry fun held => ?_
              rw [allocFrame, if_pos held] at ran
              exact congrArg Prod.snd (Except.ok.inj ran).symm

theorem expandPage_enlarges {f : Nat → Bool → KernelM Nat}
    (h : ∀ len aligned, Within DirEnlarged (f len aligned)) (i : Nat) :
    Within DirEnlarged (expandPage f i) := by
  refine .bind .get fun K => .bind (fun K' => ?_) fun page => allocFramePage_enlarges page _ _
  have slot : add32 K.heap.hAddrStart i / 0x1000 / 1024 < 1024 := by
    unfold add32
    omega
  rw [kernelPage, getPage, wp_bind, wp_get]
  dsimp only
  rw [wp_ite, wp_ite]
  refine ⟨fun _ => .refl _, fun missing => ⟨fun _ => ?_, fun _ => .refl _⟩⟩
  refine wp_bind_of (kmallocWith_within dirEnlarged_ofPages h _ _ _ _ K') fun r K₁ large => ?_
  rw [wp_bind, wp_modify]
  exact enlarged_install large (tableAt_eq_none.mpr (by simpa using missing)) slot _ _

/-- `alloc` adds tables and frames to the kernel directory. -/
theorem alloc_enlarges (n size : Nat) (pageAlign : Bool) :
    Within DirEnlarged (alloc n size pageAlign) :=
  alloc_within dirEnlarged_ofPages (fun _ i h => expandPage_enlarges h i) n size pageAlign

end MiniKernel.Kernel
