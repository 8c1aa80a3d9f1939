/-
# Kernel.PageWalk -- the walk of `get_page` and the walk of the MMU

A directory keeps two arrays: `get_page` follows the pointers of `pd_tables`, the
MMU the physical addresses of `pd_tblphys`.  `WalksAgree` is what ties them: each
table's recorded physical address is where the kernel's mapping puts the table, and
no two slots share one.

A run is any sequence of `get_page` calls on a zeroed directory, the kernel
directory itself or another one, before and after the heap takes over from
placement allocation, with anything between the calls that leaves the tables mapped
where they are.  Of `kmalloc` on the heap the run relies on fresh, page-aligned,
mapped memory (`TableSupplied`).
-/
import MiniKernel.Kernel.HeapFields
import MiniKernel.Kernel.HeapServe
import MiniKernel.Theory.Transition

namespace MiniKernel.Kernel

open Theory Program

set_option autoImplicit false

/-! ## The two walks -/

/-- The physical address of the entry the MMU reads for `a`: the top ten bits select
the directory entry, its frame bits the table, the next ten bits the entry. -/
def mmuEntry (d : VmPageDirectory) (a : Nat) : Option Nat :=
  let entry := d.pdTblphys (a >>> 22)
  if entry &&& 1 = 1 then some ((entry &&& pageMask) + 4 * (a >>> 12 &&& 0x3FF)) else none

/-- The address `&dir->pd_tables[table]->pt_pages[entry]`. -/
def VmPageDirectory.entryAddress (d : VmPageDirectory) (p : PagePtr) : Option Nat :=
  (d.tableAt p.table).map (· + 4 * p.entry)

theorem shiftRight_table (a : Nat) : a >>> 22 = (pagePtr a).table := by
  rw [Nat.shiftRight_eq_div_pow]
  dsimp only [pagePtr]
  omega

theorem shiftRight_entry (a : Nat) : a >>> 12 &&& 0x3FF = (pagePtr a).entry := by
  rw [Nat.shiftRight_eq_div_pow]
  exact Nat.and_two_pow_sub_one_eq_mod _ 10

/-- The entry for a table on the frame `f`: `tmp | 0x7`. -/
theorem tablePhys_eq (f : Nat) : f * 0x1000 ||| 0x7 = f * 0x1000 + 7 := by
  have shifted := Nat.two_pow_add_eq_or_of_lt (i := 12) (b := 7) (by decide) f
  rw [Nat.mul_comm] at shifted
  exact shifted.symm

theorem present_tablePhys (f : Nat) : (f * 0x1000 ||| 0x7) &&& 1 = 1 := by
  rw [tablePhys_eq, Nat.and_one_is_mod]
  omega

theorem land_tablePhys {f : Nat} (fits : f < 0x100000) :
    (f * 0x1000 ||| 0x7) &&& pageMask = f * 0x1000 := by
  rw [tablePhys_eq, land_pageMask (by omega)]
  omega

/-! ## Directories -/

/-- The kernel, and a directory that is not the kernel's. -/
structure Dirs where
  kernel : KState
  user : VmPageDirectory

/-- The directory that `get_page` is called on. -/
inductive Target where
  | kernelDirectory
  | user
  deriving DecidableEq

namespace Target

def dir : Target → Dirs → VmPageDirectory
  | .kernelDirectory, s => s.kernel.dir
  | .user, s => s.user

def setDir : Target → VmPageDirectory → Dirs → Dirs
  | .kernelDirectory, d, s => { s with kernel := { s.kernel with dir := d } }
  | .user, d, s => { s with user := d }

@[simp] theorem dir_setDir (t : Target) (d : VmPageDirectory) (s : Dirs) :
    t.dir (t.setDir d s) = d := by
  cases t <;> rfl

end Target

/-- A part of the kernel that knows no other directory. -/
def onKernel {α : Type} (x : KernelM α) : Program Dirs Stop α := fun s =>
  (x s.kernel).map fun r => (r.1, { s with kernel := r.2 })

/-- `get_page(address, create, dir)`; `alloc` may nest `n` deep. -/
def getPageIn (t : Target) (n address : Nat) (create : Bool) :
    Program Dirs Stop (Option PagePtr) :=
  getPage t.dir t.setDir (fun len => onKernel (kmalloc0ApWith (alloc n) len)) address create

/-- The two walks agree. -/
structure WalksAgree (t : Target) (s : Dirs) : Prop where
  missing : ∀ i, (t.dir s).tableAt i = none → (t.dir s).pdTblphys i = 0
  recorded : ∀ i a, (t.dir s).tableAt i = some a → a % 0x1000 = 0 ∧
    ∃ f, f < 0x100000 ∧ s.kernel.translate a = some (f * 0x1000) ∧
      (t.dir s).pdTblphys i = f * 0x1000 ||| 0x7
  distinct : ∀ i j a, (t.dir s).tableAt i = some a → (t.dir s).tableAt j = some a → i = j
  placed : s.kernel.heapReady = false → s.kernel.paging = false ∧
    0x1000 ≤ s.kernel.placementAddress ∧
    ∀ i a, (t.dir s).tableAt i = some a → a + 0x1000 ≤ s.kernel.placementAddress

/-- The kernel leaves the tables alone, and mapped where they are; the heap may take
over from placement allocation. -/
structure Quiet (t : Target) (s s' : Dirs) : Prop where
  tables : ∀ i, (t.dir s').tableAt i = (t.dir s).tableAt i
  phys : ∀ i, (t.dir s').pdTblphys i = (t.dir s).pdTblphys i
  mapped : ∀ i a, (t.dir s).tableAt i = some a → s'.kernel.translate a = s.kernel.translate a
  placement : s'.kernel.heapReady = false → s.kernel.heapReady = false ∧
    s'.kernel.paging = false ∧ s.kernel.placementAddress ≤ s'.kernel.placementAddress

/-- Memory for a table: fresh, page-aligned and mapped, at `a` on the frame `f`. -/
structure Fresh (t : Target) (s : Dirs) (a f : Nat) : Prop where
  aligned : a % 0x1000 = 0
  unused : ∀ i, (t.dir s).tableAt i ≠ some a
  mapped : s.kernel.paging = true ∧ ∃ v, s.kernel.dir.page (pagePtr a) = some v ∧
    v.pPresent = true ∧ v.pFrame = f
  fits : f < 0x100000

/-- What the walks may see of `kmalloc`: it leaves the tables alone, or a `get_page` of its own
puts one into a missing slot. -/
inductive KernelActivity (t : Target) (s : Dirs) : Option Nat → Dirs → Prop where
  | quiet {s' : Dirs} (quiet : Quiet t s s') : KernelActivity t s none s'
  | table {i a f : Nat} (missing : (t.dir s).tableAt i = none) (fresh : Fresh t s a f) :
      KernelActivity t s (some i) (t.setDir ((t.dir s).install i a (f * 0x1000)) s)

/-! ## The tables stay where they are -/

theorem translate_offset {K : KState} {a p x : Nat} (h : K.translate a = some p)
    (aligned : a % 0x1000 = 0) (inside : x < 0x1000) : K.translate (a + x) = some (p + x) := by
  have same : pagePtr (a + x) = pagePtr a := by
    have page : (a + x) / 0x1000 = a / 0x1000 := by omega
    simp only [pagePtr, page]
  unfold KState.translate at h ⊢
  rw [same]
  split at h
  · rename_i on
    rw [if_pos on]
    cases entry : K.dir.page (pagePtr a) with
    | none =>
        rw [entry] at h
        cases h
    | some v =>
        rw [entry] at h
        dsimp only at h ⊢
        split at h
        · rename_i present
          rw [if_pos present]
          obtain rfl := Option.some.inj h
          rw [aligned, show (a + x) % 0x1000 = x by omega, Nat.add_zero]
        · cases h
  · rename_i off
    rw [if_neg off, Option.some.inj h]

/-- A table in a slot that was missing unmaps nothing. -/
theorem translate_install {K : KState} {i a b p phys : Nat} (missing : K.dir.tableAt i = none)
    (h : K.translate a = some p) :
    { K with dir := K.dir.install i b phys }.translate a = some p := by
  unfold KState.translate at h ⊢
  split at h
  · rename_i on
    rw [if_pos on]
    dsimp only
    rw [VmPageDirectory.page_install, if_neg]
    · exact h
    · intro slot
      have absent : K.dir.page (pagePtr a) = none := by
        rw [VmPageDirectory.page, slot, VmPageDirectory.tableAt_eq_none.mp missing]
        rfl
      rw [absent] at h
      cases h
  · rename_i off
    rw [if_neg off]
    exact h

theorem Fresh.translate {t : Target} {s : Dirs} {a f : Nat} (fresh : Fresh t s a f) :
    s.kernel.translate a = some (f * 0x1000) := by
  obtain ⟨on, v, entry, present, rfl⟩ := fresh.mapped
  simp [KState.translate, on, entry, present, fresh.aligned]

theorem translate_setDir {t : Target} {s : Dirs} {i a b p phys : Nat}
    (missing : (t.dir s).tableAt i = none) (h : s.kernel.translate a = some p) :
    (t.setDir ((t.dir s).install i b phys) s).kernel.translate a = some p := by
  cases t with
  | kernelDirectory => exact translate_install missing h
  | user => exact h

/-- A new table in a missing slot. -/
theorem WalksAgree.install {t : Target} {s : Dirs} {i a f : Nat} (agree : WalksAgree t s)
    (missing : (t.dir s).tableAt i = none) (aligned : a % 0x1000 = 0)
    (unused : ∀ j, (t.dir s).tableAt j ≠ some a) (fits : f < 0x100000)
    (at_f : s.kernel.translate a = some (f * 0x1000))
    (below : s.kernel.heapReady = false → a + 0x1000 ≤ s.kernel.placementAddress) :
    WalksAgree t (t.setDir ((t.dir s).install i a (f * 0x1000)) s) := by
  have phys : ∀ j, ((t.dir s).install i a (f * 0x1000)).pdTblphys j =
      if j = i then f * 0x1000 ||| 0x7 else (t.dir s).pdTblphys j :=
    fun j => Function.update_apply _ _ _ j
  refine ⟨?_, ?_, ?_, ?_⟩
  · intro j none
    rw [Target.dir_setDir] at none ⊢
    rw [VmPageDirectory.tableAt_install] at none
    rw [phys]
    split at none
    · cases none
    · rename_i other
      rw [if_neg other]
      exact agree.missing j none
  · intro j b table
    rw [Target.dir_setDir] at table ⊢
    rw [VmPageDirectory.tableAt_install] at table
    rw [phys]
    split at table
    · rename_i same
      obtain rfl := Option.some.inj table
      rw [if_pos same]
      exact ⟨aligned, f, fits, translate_setDir missing at_f, rfl⟩
    · rename_i other
      rw [if_neg other]
      obtain ⟨aligned, g, fits, at_g, recorded⟩ := agree.recorded j b table
      exact ⟨aligned, g, fits, translate_setDir missing at_g, recorded⟩
  · intro j k b first second
    rw [Target.dir_setDir, VmPageDirectory.tableAt_install] at first second
    split at first <;> split at second
    · simp_all
    · obtain rfl := Option.some.inj first
      exact absurd second (unused k)
    · obtain rfl := Option.some.inj second
      exact absurd first (unused j)
    · exact agree.distinct j k b first second
  · have same : (t.setDir ((t.dir s).install i a (f * 0x1000)) s).kernel.heapReady =
          s.kernel.heapReady ∧
        (t.setDir ((t.dir s).install i a (f * 0x1000)) s).kernel.paging = s.kernel.paging ∧
        (t.setDir ((t.dir s).install i a (f * 0x1000)) s).kernel.placementAddress =
          s.kernel.placementAddress := by
      cases t with
      | kernelDirectory => exact ⟨rfl, rfl, rfl⟩
      | user => exact ⟨rfl, rfl, rfl⟩
    rw [same.1, same.2.1, same.2.2]
    intro ready
    obtain ⟨off, above, old⟩ := agree.placed ready
    refine ⟨off, above, fun j b table => ?_⟩
    rw [Target.dir_setDir, VmPageDirectory.tableAt_install] at table
    split at table
    · obtain rfl := Option.some.inj table
      exact below ready
    · exact old j b table

theorem WalksAgree.quiet {t : Target} {s s' : Dirs} (agree : WalksAgree t s)
    (quiet : Quiet t s s') : WalksAgree t s' where
  missing i none := by
    rw [quiet.phys]
    exact agree.missing i (quiet.tables i ▸ none)
  recorded i a table := by
    rw [quiet.tables] at table
    obtain ⟨aligned, f, fits, at_f, phys⟩ := agree.recorded i a table
    exact ⟨aligned, f, fits, (quiet.mapped i a table).trans at_f, (quiet.phys i).trans phys⟩
  distinct i j a first second :=
    agree.distinct i j a (quiet.tables i ▸ first) (quiet.tables j ▸ second)
  placed ready := by
    obtain ⟨old, off, le⟩ := quiet.placement ready
    obtain ⟨-, above, below⟩ := agree.placed old
    refine ⟨off, Nat.le_trans above le, fun i a table => ?_⟩
    exact Nat.le_trans (below i a (quiet.tables i ▸ table)) le

theorem WalksAgree.activity {t : Target} {s s' : Dirs} {i : Option Nat} (agree : WalksAgree t s)
    (activity : KernelActivity t s i s') : WalksAgree t s' := by
  cases activity with
  | quiet quiet => exact agree.quiet quiet
  | table missing fresh =>
      refine agree.install missing fresh.aligned fresh.unused fresh.fits fresh.translate
        fun ready => ?_
      have off := (agree.placed ready).1
      rw [fresh.mapped.1] at off
      cases off

/-! ## One call of get_page -/

/-- Where placement allocation puts the next page table. -/
def KState.placed (K : KState) : Nat :=
  if K.placementAddress &&& pageMask ≠ 0 then add32 (K.placementAddress &&& pageMask) 0x1000
  else K.placementAddress

theorem lookupPage_result (a : Nat) (K : KState) :
    wp (lookupPage a) (fun r K' => K' = K ∧ ∀ p, r = some p → p = pagePtr a) (fun _ => True) K := by
  have run : lookupPage a K = (if (K.dir.pdTables (a / 0x1000 / 1024)).isSome then
      (pure (some (pagePtr a)) : KernelM (Option PagePtr)) else pure none) K := rfl
  unfold wp
  rw [run]
  split_ifs
  · exact ⟨rfl, fun p found => (Option.some.inj found).symm⟩
  · exact ⟨rfl, fun p found => by cases found⟩

theorem wp_kmalloc0Ap_modes (alloc : Nat → Bool → KernelM Nat) (K : KState) :
    wp (kmalloc0ApWith alloc 0x1000) (fun r K' =>
      (K.heapReady = false ∧ r = (sub32 (add32 K.placed 0x1000) 0x1000, K.placed) ∧
        K' = { K with placementAddress := add32 K.placed 0x1000, mem := K'.mem }) ∨
      (K.heapReady = true ∧ ∃ p K₁ v, alloc 0x1000 true K = .ok (p, K₁) ∧
        K₁.dir.page (pagePtr p) = some v ∧ r = (p, add32 (v.pFrame * 0x1000) (p &&& 0xFFF)) ∧
        K' = { K₁ with mem := K'.mem })) (fun _ => True) K := by
  rw [kmalloc0ApWith, kmallocWith, wp_bind, wp_get]
  dsimp only
  have clears : ∀ (r : Nat × Nat) K₁ {Q : Nat × Nat → KState → Prop},
      (∀ K', K' = { K₁ with mem := K'.mem } → Q r K') →
      wp (do bzero r.1 0x1000; pure r : KernelM (Nat × Nat)) Q (fun _ => True) K₁ := by
    intro r K₁ Q post
    refine wp_bind_of (bzero_besidesMem r.1 0x1000 K₁) fun _ K₂ same => ?_
    exact post K₂ (KState.eq_of_besidesMem same)
  by_cases ready : K.heapReady = false
  · rw [if_pos ready, wp_bind, wp_modify, wp_bind, wp_pure]
    refine clears _ _ fun K' same => .inl ⟨ready, ?_, ?_⟩
    · simp [KState.placed]
    · simpa [KState.placed] using same
  · rw [if_neg ready]
    refine wp_bind_of (wp_ran (wp_true _ _)) ?_
    rintro p K₁ ⟨ran, -⟩
    rw [if_pos rfl]
    refine wp_bind_of (lookupPage_result p K₁) ?_
    rintro page K₂ ⟨unchanged, found⟩
    rw [unchanged, wp_bind, wp_get]
    cases entry : page.bind K₁.dir.page with
    | none => exact trivial
    | some v =>
        dsimp only
        rw [wp_bind, wp_pure]
        obtain ⟨q, rfl, at_q⟩ := Option.bind_eq_some_iff.mp entry
        refine clears _ _ fun K' same => .inr ⟨by simpa using ready, p, K₁, v, ran, ?_, rfl, same⟩
        rw [← found q rfl]
        exact at_q

@[simp] theorem wp_onKernel {α : Type} (x : KernelM α) (Q : α → Dirs → Prop) (E : Stop → Prop)
    (s : Dirs) :
    wp (onKernel x) Q E s ↔ wp x (fun a K => Q a { s with kernel := K }) E s.kernel := by
  unfold wp onKernel
  cases x s.kernel with
  | error e => rfl
  | ok r => rfl

theorem placed_eq {K : KState} (low : 0x1000 ≤ K.placementAddress)
    (high : K.placementAddress + 0x2000 < 4294967296) :
    K.placed = K.placementAddress / 0x1000 * 0x1000 + 0x1000 := by
  have masked := land_pageMask (a := K.placementAddress) (by omega)
  rw [KState.placed, masked, if_pos (by omega), add32_eq (by omega)]

theorem placed_frame {K : KState} (low : 0x1000 ≤ K.placementAddress)
    (high : K.placementAddress + 0x2000 < 4294967296) :
    K.placed = K.placed / 0x1000 * 0x1000 := by
  rw [placed_eq low high]
  omega

/-- A write to memory, and a move of the placement address, are quiet. -/
theorem quiet_of_placement {t : Target} {s : Dirs} {K' : KState} {p : Nat} (agree : WalksAgree t s)
    (after : K' = { s.kernel with placementAddress := p, mem := K'.mem })
    (up : s.kernel.heapReady = false → s.kernel.placementAddress ≤ p) :
    Quiet t s { s with kernel := K' } := by
  have dir : t.dir { s with kernel := K' } = t.dir s := by
    rw [after]
    cases t <;> rfl
  refine ⟨fun i => by rw [dir], fun i => by rw [dir], fun i a _ => ?_, fun ready => ?_⟩
  · rw [after]
    rfl
  · rw [after] at ready ⊢
    exact ⟨ready, (agree.placed ready).1, up ready⟩

/-- What a call that needs a table relies on: room below 4 GiB for placement, and from the
heap fresh, page-aligned, mapped memory.  What `kmalloc` does before it returns is kernel
activity, and does not fill the slot in question. -/
structure TableSupplied (t : Target) (n : Nat) (s : Dirs) (a : Nat) : Prop where
  placement : s.kernel.heapReady = false → s.kernel.placementAddress + 0x2000 < 4294967296
  heap : ∀ p K₁, s.kernel.heapReady = true → alloc n 0x1000 true s.kernel = .ok (p, K₁) →
    Reachable (KernelActivity t) s { s with kernel := K₁ } ∧
    (∃ f, Fresh t { s with kernel := K₁ } p f) ∧
    (t.dir { s with kernel := K₁ }).tableAt (pagePtr a).table = none

/-- What a call of `get_page` does: it finds the table, finds none, or creates it in the
state in which `kmalloc0_ap` left the kernel. -/
inductive CallEffect (t : Target) (n a : Nat) (s : Dirs) : Bool → Option PagePtr → Dirs → Prop where
  | found {create : Bool} (there : (t.dir s).tableAt (pagePtr a).table ≠ none) :
      CallEffect t n a s create (some (pagePtr a)) s
  | absent (missing : (t.dir s).tableAt (pagePtr a).table = none) : CallEffect t n a s false none s
  | created {x : Nat × Nat} {K₁ : KState} {b f : Nat}
      (missing : (t.dir s).tableAt (pagePtr a).table = none)
      (ran : kmalloc0ApWith (alloc n) 0x1000 s.kernel = .ok (x, K₁))
      (empty : (t.dir { s with kernel := K₁ }).tableAt (pagePtr a).table = none)
      (placement : s.kernel.heapReady = false → K₁.dir = s.kernel.dir)
      (agree : WalksAgree t (t.setDir ((t.dir { s with kernel := K₁ }).install (pagePtr a).table b
        (f * 0x1000)) { s with kernel := K₁ })) :
      CallEffect t n a s true (some (pagePtr a))
        (t.setDir ((t.dir { s with kernel := K₁ }).install (pagePtr a).table b (f * 0x1000))
          { s with kernel := K₁ })

section Created

variable {t : Target} {n a : Nat} {s : Dirs} {x : Nat × Nat} {K' : KState}

/-- A call whose table placement allocation provides. -/
theorem created_of_placed (agree : WalksAgree t s)
    (missing : (t.dir s).tableAt (pagePtr a).table = none) (ready : s.kernel.heapReady = false)
    (room : s.kernel.placementAddress + 0x2000 < 4294967296)
    (call : kmalloc0ApWith (alloc n) 0x1000 s.kernel = .ok (x, K'))
    (placed : x = (sub32 (add32 s.kernel.placed 0x1000) 0x1000, s.kernel.placed))
    (after : K' = { s.kernel with
      placementAddress := add32 s.kernel.placed 0x1000, mem := K'.mem }) :
    CallEffect t n a s true (some (pagePtr a))
      (t.setDir ((t.dir { s with kernel := K' }).install (pagePtr a).table x.1 x.2)
        { s with kernel := K' }) := by
  obtain ⟨off, low, below⟩ := agree.placed ready
  have at_ := placed_eq low room
  have frame := placed_frame low room
  generalize s.kernel.placed = b at at_ frame placed after
  have returned : sub32 (add32 b 0x1000) 0x1000 = b := by
    unfold sub32 add32
    omega
  rw [returned] at placed
  rw [add32_eq (by omega)] at after
  clear returned
  subst placed
  have quiet := quiet_of_placement agree after fun _ => by omega
  have dir : t.dir { s with kernel := K' } = t.dir s := by
    rw [after]
    cases t <;> rfl
  have now : (t.dir { s with kernel := K' }).tableAt (pagePtr a).table = none := by
    rw [dir]
    exact missing
  have agree' := (agree.quiet quiet).install (i := (pagePtr a).table) (a := b)
    (f := b / 0x1000) now (by omega) (fun j table => ?_) (by omega) ?_ fun _ => ?_
  · rw [← frame] at agree'
    have effect := CallEffect.created (a := a) (b := b) (f := b / 0x1000) missing call now
      (fun _ => by rw [after]) (by rw [← frame]; exact agree')
    rw [← frame] at effect
    exact effect
  · rw [dir] at table
    have := below j _ table
    omega
  · rw [← frame, after]
    simp [KState.translate, off]
  · rw [after]

/-- A call whose table the heap provides. -/
theorem created_of_heap {p : Nat} {K₁ : KState} {v : VmPage} (agree : WalksAgree t s)
    (missing : (t.dir s).tableAt (pagePtr a).table = none) (ready : s.kernel.heapReady = true)
    (supplied : TableSupplied t n s a) (ran : alloc n 0x1000 true s.kernel = .ok (p, K₁))
    (call : kmalloc0ApWith (alloc n) 0x1000 s.kernel = .ok (x, K'))
    (entry : K₁.dir.page (pagePtr p) = some v)
    (result : x = (p, add32 (v.pFrame * 0x1000) (p &&& 0xFFF)))
    (after : K' = { K₁ with mem := K'.mem }) :
    CallEffect t n a s true (some (pagePtr a))
      (t.setDir ((t.dir { s with kernel := K' }).install (pagePtr a).table x.1 x.2)
        { s with kernel := K' }) := by
  obtain ⟨activity, ⟨f, fresh⟩, empty⟩ := supplied.heap p K₁ ready ran
  obtain ⟨on, w, entry', present, rfl⟩ := fresh.mapped
  obtain rfl : v = w := Option.some.inj (entry.symm.trans entry')
  have phys : add32 (v.pFrame * 0x1000) (p &&& 0xFFF) = v.pFrame * 0x1000 := by
    have fits := fresh.fits
    rw [land_pageOffset, fresh.aligned, add32_eq (by omega), Nat.add_zero]
  rw [phys] at result
  subst result
  have agree₁ : WalksAgree t { s with kernel := K₁ } :=
    activity.invariant agree fun _ _ _ agree _ step => agree.activity step
  have dir : t.dir { s with kernel := K' } = t.dir { s with kernel := K₁ } := by
    rw [after]
    cases t <;> rfl
  have quiet : Quiet t { s with kernel := K₁ } { s with kernel := K' } := by
    refine ⟨fun i => by rw [dir], fun i => by rw [dir], fun i a _ => ?_, fun ready => ?_⟩
    · rw [after]
      rfl
    · rw [after] at ready ⊢
      exact ⟨ready, (agree₁.placed ready).1, Nat.le_refl _⟩
  have now : (t.dir { s with kernel := K' }).tableAt (pagePtr a).table = none := by
    rw [dir]
    exact empty
  have at_p : ({ s with kernel := K' } : Dirs).kernel.translate p = some (v.pFrame * 0x1000) := by
    rw [after]
    exact fresh.translate
  have agree₂ := (agree₁.quiet quiet).install (i := (pagePtr a).table) (a := p) now fresh.aligned
    (fun j => by rw [dir]; exact fresh.unused j) fresh.fits at_p fun ready => by
      rw [after] at ready
      have off := (agree₁.placed ready).1
      rw [on] at off
      cases off
  exact .created missing call now (fun unready => by rw [ready] at unready; cases unready) agree₂

end Created

theorem wp_getPageIn {t : Target} {n : Nat} {s : Dirs} {a : Nat} (create : Bool)
    (agree : WalksAgree t s)
    (supplied : create = true → (t.dir s).tableAt (pagePtr a).table = none →
      TableSupplied t n s a) :
    wp (getPageIn t n a create) (CallEffect t n a s create) (fun _ => True) s := by
  have slot : a / 0x1000 / 1024 = (pagePtr a).table := rfl
  rw [getPageIn, getPage, wp_bind, wp_get]
  dsimp only
  rw [slot, wp_ite]
  refine ⟨fun there => ?_, fun missing => ?_⟩
  · refine .found fun absent => ?_
    rw [VmPageDirectory.tableAt_eq_none.mp absent] at there
    cases there
  have missing : (t.dir s).tableAt (pagePtr a).table = none :=
    VmPageDirectory.tableAt_eq_none.mpr (by simpa using missing)
  cases create with
  | false => exact .absent missing
  | true =>
      have supplied := supplied rfl missing
      rw [if_pos rfl, wp_bind, wp_onKernel]
      refine wp_mono (wp_ran (wp_kmalloc0Ap_modes (alloc n) s.kernel)) ?_ fun _ h => h
      rintro x K' ⟨call, modes⟩
      rw [wp_bind, wp_modify, wp_pure]
      obtain ⟨ready, placed, after⟩ | ⟨ready, p, K₁, v, ran, entry, result, after⟩ := modes
      · exact created_of_placed agree missing ready (supplied.placement ready) call placed after
      · exact created_of_heap agree missing ready supplied ran call entry result after

theorem CallEffect.agree {t : Target} {n a : Nat} {s s' : Dirs} {create : Bool} {r : Option PagePtr}
    (effect : CallEffect t n a s create r s') (agree : WalksAgree t s) : WalksAgree t s' := by
  cases effect with
  | found _ => exact agree
  | absent _ => exact agree
  | created _ _ _ _ agree' => exact agree'

/-! ## Runs -/

/-- A call of `get_page`, in which `alloc` may nest `n` deep, or something else. -/
inductive WalkCall where
  | quiet
  | getPage (n address : Nat) (create : Bool)

/-- A call of `get_page` that returns, or something else the kernel does. -/
inductive WalkStep (t : Target) : Dirs → WalkCall → Dirs → Prop where
  | quiet {s s' : Dirs} (quiet : Quiet t s s') : WalkStep t s .quiet s'
  | getPage {s s' : Dirs} {n address : Nat} {create : Bool} {r : Option PagePtr}
      (ran : getPageIn t n address create s = .ok (r, s')) :
      WalkStep t s (.getPage n address create) s'

/-- `kmalloc` serves the calls that create a table. -/
def Supplied (t : Target) (s : Dirs) : WalkCall → Prop
  | .quiet => True
  | .getPage n address create => create = true →
      (t.dir s).tableAt (pagePtr address).table = none → TableSupplied t n s address

/-- A zeroed directory, in a kernel that has its heap or allocates above the first page. -/
structure Zeroed (t : Target) (s : Dirs) : Prop where
  dir : t.dir s = VmPageDirectory.zero
  placement : s.kernel.heapReady = false →
    s.kernel.paging = false ∧ 0x1000 ≤ s.kernel.placementAddress

theorem Zeroed.agree {t : Target} {s : Dirs} (zeroed : Zeroed t s) : WalksAgree t s := by
  have none : ∀ i, (t.dir s).tableAt i = none := fun i => by rw [zeroed.dir]; rfl
  refine ⟨fun i _ => by rw [zeroed.dir]; rfl, fun i a table => ?_, fun i j a table => ?_,
    fun ready => ?_⟩
  · rw [none] at table
    cases table
  · rw [none] at table
    cases table
  · obtain ⟨off, low⟩ := zeroed.placement ready
    refine ⟨off, low, fun i a table => ?_⟩
    rw [none] at table
    cases table

theorem WalksAgree.step {t : Target} {s s' : Dirs} {c : WalkCall} (agree : WalksAgree t s)
    (supplied : Supplied t s c) (step : WalkStep t s c s') : WalksAgree t s' := by
  cases step with
  | quiet quiet => exact agree.quiet quiet
  | getPage ran =>
      have effect := wp_ok (wp_getPageIn _ agree supplied) ran
      exact effect.agree agree

theorem walksAgree_of_run {t : Target} {s₀ s : Dirs} (zeroed : Zeroed t s₀)
    (run : Reaches (WalkStep t) (Supplied t) s₀ s) : WalksAgree t s :=
  run.invariant zeroed.agree fun _ _ _ agree supplied step => agree.step supplied step

/-! ## Where the walks end -/

section Agreement

variable {t : Target} {n : Nat} {s : Dirs}

/-- `get_page(address, 0, dir)` -/
theorem getPageIn_lookup (a : Nat) : getPageIn t n a false s =
    .ok (((t.dir s).tableAt (pagePtr a).table).map fun _ => pagePtr a, s) := by
  have run : getPageIn t n a false s =
      (if ((t.dir s).pdTables (pagePtr a).table).isSome then
        (pure (some (pagePtr a)) : Program Dirs Stop (Option PagePtr)) else pure none) s := rfl
  rw [run, VmPageDirectory.tableAt]
  cases (t.dir s).pdTables (pagePtr a).table with
  | none => rfl
  | some table => rfl

/-- The entry for `a` that each walk ends at. -/
theorem WalksAgree.entry (agree : WalksAgree t s) {a b : Nat}
    (table : (t.dir s).tableAt (pagePtr a).table = some b) :
    ∃ e, mmuEntry (t.dir s) a = some e ∧
      s.kernel.translate (b + 4 * (pagePtr a).entry) = some e := by
  obtain ⟨aligned, f, fits, at_f, recorded⟩ := agree.recorded _ b table
  have inside : 4 * (pagePtr a).entry < 0x1000 := by
    have : (pagePtr a).entry < 1024 := Nat.mod_lt _ (by decide)
    omega
  refine ⟨f * 0x1000 + 4 * (pagePtr a).entry, ?_, translate_offset at_f aligned inside⟩
  dsimp only [mmuEntry]
  rw [shiftRight_table, shiftRight_entry, recorded, if_pos (present_tablePhys f),
    land_tablePhys fits]

theorem WalksAgree.absent (agree : WalksAgree t s) {a : Nat}
    (missing : (t.dir s).tableAt (pagePtr a).table = none) : mmuEntry (t.dir s) a = none := by
  dsimp only [mmuEntry]
  rw [shiftRight_table, agree.missing _ missing]
  rfl

theorem WalksAgree.entries (agree : WalksAgree t s) (n a : Nat) :
    ∃ r, getPageIn t n a false s = .ok (r, s) ∧
      (r = none ↔ mmuEntry (t.dir s) a = none) ∧
      ∀ p, r = some p → ∃ v, (t.dir s).entryAddress p = some v ∧
        s.kernel.translate v = mmuEntry (t.dir s) a := by
  refine ⟨_, getPageIn_lookup a, ?_⟩
  cases table : (t.dir s).tableAt (pagePtr a).table with
  | none => simp [agree.absent table]
  | some b =>
      obtain ⟨e, walk, translated⟩ := agree.entry table
      refine ⟨by simp [walk], ?_⟩
      rintro p ⟨⟩
      exact ⟨b + 4 * (pagePtr a).entry, by simp [VmPageDirectory.entryAddress, table],
        translated.trans walk.symm⟩

/-- One entry for each page. -/
theorem WalksAgree.entryAddress_inj (agree : WalksAgree t s) {a b c d : Nat}
    (first : (t.dir s).tableAt (pagePtr a).table = some c)
    (second : (t.dir s).tableAt (pagePtr b).table = some d)
    (same : c + 4 * (pagePtr a).entry = d + 4 * (pagePtr b).entry) : a / 0x1000 = b / 0x1000 := by
  have aligned := (agree.recorded _ c first).1
  have aligned' := (agree.recorded _ d second).1
  have less : (pagePtr a).entry < 1024 := Nat.mod_lt _ (by decide)
  have less' : (pagePtr b).entry < 1024 := Nat.mod_lt _ (by decide)
  obtain rfl : c = d := by omega
  have slot := agree.distinct _ _ c first second
  have entry : (pagePtr a).entry = (pagePtr b).entry := by omega
  dsimp only [pagePtr] at slot entry
  omega

theorem WalksAgree.pages (agree : WalksAgree t s) {a b : Nat} {p q : PagePtr}
    (first : getPageIn t n a false s = .ok (some p, s))
    (second : getPageIn t n b false s = .ok (some q, s)) :
    (t.dir s).entryAddress p = (t.dir s).entryAddress q ↔ a / 0x1000 = b / 0x1000 := by
  rw [getPageIn_lookup, Except.ok.injEq, Prod.mk.injEq, Option.map_eq_some_iff] at first second
  obtain ⟨⟨c, at_c, rfl⟩, -⟩ := first
  obtain ⟨⟨d, at_d, rfl⟩, -⟩ := second
  constructor
  · intro same
    simp only [VmPageDirectory.entryAddress, at_c, at_d, Option.map_some, Option.some.injEq] at same
    exact agree.entryAddress_inj at_c at_d same
  · intro same
    simp only [pagePtr, same]

end Agreement

end MiniKernel.Kernel
