/-
# Kernel.Paging -- the page directory of paging.c and `get_page`

A directory has one slot for each 4 MiB of address space.  A slot is null or
points to a page table of 1024 entries.  A `struct vm_page *` is the slot and
the index of an entry (`PagePtr`); the slots own their tables, so two pointers
name the same entry exactly when both numbers agree.

`get_page` creates a missing table on request.  Where the table comes from is
`kmalloc0_ap`'s business, and that function may itself end up in `get_page`, so
the allocator is a parameter here and is tied in `Kernel.Heap`.
-/
import MiniKernel.Kernel.Frames
import MiniKernel.Theory.Program

namespace MiniKernel.Kernel

open Theory

set_option autoImplicit false

/-- `struct vm_page_table`, with the address it was allocated at. -/
structure VmPageTable where
  address : Nat
  ptPages : Nat → VmPage

/-- `struct vm_page_directory`. -/
structure VmPageDirectory where
  pdTables : Nat → Option VmPageTable
  pdTblphys : Nat → Nat

/-- A `struct vm_page *`: `&dir->pd_tables[table]->pt_pages[entry]`. -/
structure PagePtr where
  table : Nat
  entry : Nat
  deriving DecidableEq, Repr

/-- The entry `get_page` computes for an address. -/
def pagePtr (address : Nat) : PagePtr :=
  { table := address / 0x1000 / 1024, entry := address / 0x1000 % 1024 }

namespace VmPageDirectory

/-- A zeroed directory. -/
def zero : VmPageDirectory := { pdTables := fun _ => none, pdTblphys := fun _ => 0 }

/-- `*p` -/
def page (d : VmPageDirectory) (p : PagePtr) : Option VmPage :=
  (d.pdTables p.table).map fun t => t.ptPages p.entry

/-- `*p = v` -/
def setPage (d : VmPageDirectory) (p : PagePtr) (v : VmPage) : VmPageDirectory :=
  { d with
    pdTables := Function.update d.pdTables p.table
      ((d.pdTables p.table).map fun t =>
        { t with ptPages := Function.update t.ptPages p.entry v }) }

/-- A zeroed table at `address`, of physical address `phys`, goes into a slot. -/
def install (d : VmPageDirectory) (tableIdx address phys : Nat) : VmPageDirectory :=
  { pdTables := Function.update d.pdTables tableIdx
      (some { address := address, ptPages := fun _ => VmPage.zero })
    pdTblphys := Function.update d.pdTblphys tableIdx (phys ||| 0x7) }

theorem page_setPage (d : VmPageDirectory) (p q : PagePtr) (v : VmPage) :
    (d.setPage p v).page q = if q = p then (d.page p).map fun _ => v else d.page q := by
  obtain ⟨pt, pe⟩ := p
  obtain ⟨qt, qe⟩ := q
  simp only [page, setPage, Function.update_apply, PagePtr.mk.injEq]
  by_cases table : qt = pt
  · subst table
    cases d.pdTables qt with
    | none => simp
    | some t => by_cases entry : qe = pe <;> simp [entry]
  · simp [table]

theorem page_install (d : VmPageDirectory) (t address phys : Nat) (q : PagePtr) :
    (d.install t address phys).page q =
      if q.table = t then some VmPage.zero else d.page q := by
  simp only [page, install, Function.update_apply]
  by_cases h : q.table = t <;> simp [h]

end VmPageDirectory

/-- `get_page`, over a state that holds the directory; `kmalloc0_ap` yields the
address and the physical address of a zeroed block. -/
def getPage {σ : Type} (dir : σ → VmPageDirectory) (setDir : VmPageDirectory → σ → σ)
    (kmalloc0Ap : Nat → Program σ Stop (Nat × Nat)) (address : Nat) (create : Bool) :
    Program σ Stop (Option PagePtr) := do
  let s ← get
  let tableIdx := address / 0x1000 / 1024
  if ((dir s).pdTables tableIdx).isSome then
    pure (some (pagePtr address))
  else if create then do
    let (table, tmp) ← kmalloc0Ap 0x1000
    modify fun s => setDir ((dir s).install tableIdx table tmp) s
    pure (some (pagePtr address))
  else
    pure none

end MiniKernel.Kernel
