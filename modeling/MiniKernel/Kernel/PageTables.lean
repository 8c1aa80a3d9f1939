/-
# Kernel.PageTables -- what get_page changes when it creates a table

The call itself fills one slot.  Before that `kmalloc0_ap` finds memory for the table:
placement allocation and a hole of the heap change no directory; a growth of the heap adds
tables and frames to the kernel directory, and changes nothing that is there.

`walks_agree` puts this beside the two walks of `Kernel.PageWalk`.  The memory that its
runs rely on comes from any heap in order (`supplied_of_sound`, `supplied_of_served`).
-/
import MiniKernel.Kernel.DirectoryFrame
import MiniKernel.Kernel.HeapBestFit
import MiniKernel.Kernel.PageWalk

namespace MiniKernel.Kernel

open Theory Program

set_option autoImplicit false

/-! ## What a call leaves alone -/

/-- Every entry of the directory but that of `a`, and every `vm_page` of its tables, is what
it was. -/
structure OthersKept (t : Target) (a : Nat) (s s' : Dirs) : Prop where
  slots : ∀ i, i ≠ (pagePtr a).table →
    (t.dir s').tableAt i = (t.dir s).tableAt i ∧ (t.dir s').pdTblphys i = (t.dir s).pdTblphys i
  pages : ∀ p v, (t.dir s).page p = some v → (t.dir s').page p = some v

/-- A table comes without a change to the directory it is for: that is not the kernel's,
placement allocation provides it, or a hole of the heap serves it. -/
inductive Spared (t : Target) (s : Dirs) : Prop where
  | user (other : t = .user)
  | placement (early : s.kernel.heapReady = false)
  | hole {bs : List Block} (inv : HeapInv s.kernel bs)
      (served : Served Resize.any s.kernel 0x1000 true)

/-- `get_page(a, 1, dir)` returned `r`. -/
structure TableCreated (t : Target) (n a : Nat) (s : Dirs) (r : Option PagePtr) (s' : Dirs) :
    Prop where
  result : r = some (pagePtr a)
  /-- Nothing else changes when the table is there, or comes without a change. -/
  kept : (t.dir s).tableAt (pagePtr a).table ≠ none ∨ Spared t s → OthersKept t a s s'
  /-- What else changes `kmalloc0_ap` has changed when it returns. -/
  own : (t.dir s).tableAt (pagePtr a).table = none → ∃ x K₁,
    kmalloc0ApWith (alloc n) 0x1000 s.kernel = .ok (x, K₁) ∧
      OthersKept t a { s with kernel := K₁ } s'
  /-- It has added tables and frames, and changed none. -/
  framed : ∀ u : Target, (u.dir s).FramesKept (u.dir s')

/-- The walk of `get_page` and the walk of the MMU in a state. -/
structure SameWalks (t : Target) (s : Dirs) : Prop where
  entries : ∀ n a, ∃ r, getPageIn t n a false s = .ok (r, s) ∧
    (r = none ↔ mmuEntry (t.dir s) a = none) ∧
    ∀ p, r = some p → ∃ v, (t.dir s).entryAddress p = some v ∧
      s.kernel.translate v = mmuEntry (t.dir s) a
  pages : ∀ n a b p q, getPageIn t n a false s = .ok (some p, s) →
    getPageIn t n b false s = .ok (some q, s) →
    ((t.dir s).entryAddress p = (t.dir s).entryAddress q ↔ a / 0x1000 = b / 0x1000)
  created : ∀ n a r s', Supplied t s (.getPage n a true) →
    getPageIn t n a true s = .ok (r, s') → TableCreated t n a s r s'

section Creation

variable {t : Target} {n : Nat} {s : Dirs}

theorem othersKept_install {s₁ : Dirs} {a : Nat} (b phys : Nat)
    (empty : (t.dir s₁).tableAt (pagePtr a).table = none) :
    OthersKept t a s₁ (t.setDir ((t.dir s₁).install (pagePtr a).table b phys) s₁) := by
  constructor
  · intro i other
    rw [Target.dir_setDir, VmPageDirectory.tableAt_install, if_neg other]
    exact ⟨rfl, Function.update_of_ne other _ _⟩
  · intro p v entry
    rw [Target.dir_setDir, VmPageDirectory.page_install, if_neg]
    · exact entry
    · intro slot
      rw [VmPageDirectory.page, slot, VmPageDirectory.tableAt_eq_none.mp empty] at entry
      cases entry

/-- `kmalloc0_ap` changes no directory but the kernel's. -/
theorem OthersKept.of_kernel {a : Nat} {K₁ : KState} {s' : Dirs}
    (kept : OthersKept t a { s with kernel := K₁ } s')
    (same : t.dir { s with kernel := K₁ } = t.dir s) : OthersKept t a s s' := by
  obtain ⟨slots, pages⟩ := kept
  rw [same] at slots pages
  exact ⟨slots, pages⟩

theorem Spared.dir {x : Nat × Nat} {K₁ : KState} (spared : Spared t s)
    (ran : kmalloc0ApWith (alloc n) 0x1000 s.kernel = .ok (x, K₁))
    (placement : s.kernel.heapReady = false → K₁.dir = s.kernel.dir) :
    t.dir { s with kernel := K₁ } = t.dir s := by
  cases t with
  | user => rfl
  | kernelDirectory =>
      cases spared with
      | user other => cases other
      | placement early => exact placement early
      | hole inv served =>
          obtain ⟨-, -, same, -⟩ := wp_ok (wp_kmalloc0Ap inv n served) ran
          exact same.dir

theorem CallEffect.tableCreated {a : Nat} {r : Option PagePtr} {s' : Dirs}
    (effect : CallEffect t n a s true r s') : TableCreated t n a s r s' := by
  cases effect with
  | found there =>
      exact ⟨rfl, fun _ => ⟨fun _ _ => ⟨rfl, rfl⟩, fun _ _ entry => entry⟩,
        fun missing => absurd missing there, fun u => .refl _⟩
  | @created x K₁ b f missing ran empty placement _ =>
      have own := othersKept_install b (f * 0x1000) empty
      have kernel : s.kernel.dir.FramesKept K₁.dir :=
        ((kmallocWith_within dirEnlarged_ofPages (alloc_enlarges n) 0x1000 true true true).of_ok
          ran).toFramesKept
      refine ⟨rfl, fun spared => ?_, fun _ => ⟨x, K₁, ran, own⟩, fun u => ?_⟩
      · obtain there | spared := spared
        · exact absurd missing there
        · exact own.of_kernel (spared.dir ran placement)
      · cases t <;> cases u
        · exact VmPageDirectory.framesKept_install kernel missing _ _
        · exact .refl _
        · exact kernel
        · exact VmPageDirectory.framesKept_install (.refl _) missing _ _

end Creation

/-! ## Tables from the heap -/

/-- The page tables of the directory are live blocks of the heap or lie below it, on pages that
have frames. -/
structure TablesApart (t : Target) (s : Dirs) (bs : List Block) : Prop where
  apart : ∀ i a, (t.dir s).tableAt i = some a →
    (a, 0x1000) ∈ liveRanges bs ∨ a < s.kernel.heap.hAddrStart
  framed : ∀ i a, (t.dir s).tableAt i = some a →
    ∃ v, s.kernel.dir.page (pagePtr a) = some v ∧ v.pFrame ≠ 0

section Heap

variable {t : Target} {s : Dirs} {n a p : Nat} {K₁ : KState} {bs bs' : List Block} {R : Resize}

/-- A page that has a frame stays mapped where it is. -/
theorem translate_framesKept {K : KState} {v : VmPage} (paging : K₁.paging = K.paging)
    (kept : K.dir.FramesKept K₁.dir) (entry : K.dir.page (pagePtr a) = some v)
    (held : v.pFrame ≠ 0) : K₁.translate a = K.translate a := by
  unfold KState.translate
  rw [paging, entry, kept.pages _ v entry held]

/-- `alloc` that takes no page table leaves the tables where they are. -/
theorem quiet_of_alloc (apart : TablesApart t s bs) (large : s.kernel.dir.Enlarged K₁.dir)
    (alone : t = .kernelDirectory → VmPageDirectory.tablesSince s.kernel.dir K₁.dir = [])
    (paging : K₁.paging = s.kernel.paging) (ready : K₁.heapReady = true) :
    Quiet t s { s with kernel := K₁ } where
  tables i := by
    cases t with
    | kernelDirectory => exact large.same_tables (alone rfl) i
    | user => rfl
  phys i := by
    cases t with
    | kernelDirectory => exact large.same_phys (alone rfl) i
    | user => rfl
  mapped i b table := by
    obtain ⟨v, entry, held⟩ := apart.framed i b table
    exact translate_framesKept paging large.toFramesKept entry held
  placement unready := by
    rw [ready] at unready
    cases unready

/-- A block that `alloc` hands out is fresh, page-aligned, mapped memory. -/
theorem fresh_of_allocated (apart : TablesApart t s bs)
    (tables : ∀ i, (t.dir { s with kernel := K₁ }).tableAt i = (t.dir s).tableAt i)
    (allocated : Allocated R s.kernel K₁ bs bs' p 0x1000 true) :
    ∃ f, Fresh t { s with kernel := K₁ } p f := by
  have inv := allocated.inv
  obtain ⟨x, z, rfl, member⟩ :=
    mem_liveRanges.mp (allocated.live.mem_iff.mpr List.mem_cons_self)
  have fits := (inv.blocks.tagged _ member).fits _ rfl
  have bounds := inv.blocks.bounds member
  dsimp only at bounds fits
  obtain ⟨v, entry, present⟩ := inv.mapped.backed.present (x + 12) (by omega) (by omega)
  refine ⟨v.pFrame, allocated.aligned rfl, fun i table => ?_,
    ⟨inv.mapped.backed.on, v, entry, present, rfl⟩, ?_⟩
  · rw [tables] at table
    rcases apart.apart i _ table with live | below
    · have nodup : (liveRanges bs').Nodup :=
        inv.blocks.liveRanges_pairwise.imp fun less same => by
          rw [same] at less
          exact Nat.lt_irrefl _ less.2
      have once := List.nodup_cons.mp (allocated.live.nodup_iff.mp nodup)
      exact once.1 (List.mem_append_right _ live)
    · have start := allocated.start
      omega
  · by_cases null : v.pFrame = 0
    · omega
    · have bound := (inv.frames.owned _ v entry null).2.1
      omega

/-- The heap supplies a table as it should when it is in order and the call is sound, and, for
the kernel directory, when the growth takes no page table for itself. -/
theorem supplied_of_sound (h : HeapInv s.kernel bs) (sound : AllocSound R 0x1000 true s.kernel)
    (apart : TablesApart t s bs)
    (alone : t = .kernelDirectory → ∀ p K₁, alloc n 0x1000 true s.kernel = .ok (p, K₁) →
      VmPageDirectory.tablesSince s.kernel.dir K₁.dir = [])
    (missing : (t.dir s).tableAt (pagePtr a).table = none) : TableSupplied t n s a := by
  refine ⟨fun early => ?_, fun p K₁ _ ran => ?_⟩
  · rw [h.ready] at early
    cases early
  · obtain ⟨bs', allocated⟩ := wp_ok (wp_alloc sound n h) ran
    have inv := allocated.inv
    have quiet := quiet_of_alloc (t := t) apart ((alloc_enlarges n 0x1000 true).of_ok ran)
      (fun kernel => alone kernel p K₁ ran)
      (inv.mapped.backed.on.trans h.mapped.backed.on.symm) inv.ready
    exact ⟨.single trivial (.quiet quiet), fresh_of_allocated apart quiet.tables allocated,
      (quiet.tables _).trans missing⟩

/-- A call of `alloc` that a hole serves leaves the tables where they are. -/
theorem quiet_of_served {size : Nat} {pageAlign : Bool} (h : HeapInv s.kernel bs)
    (served : Served R s.kernel size pageAlign) (apart : TablesApart t s bs)
    (ran : alloc n size pageAlign s.kernel = .ok (p, K₁)) :
    Quiet t s { s with kernel := K₁ } ∧ SamePages s.kernel K₁ ∧ ∃ bs', HeapInv K₁ bs' := by
  cases n with
  | zero => cases ran
  | succ n =>
      obtain ⟨bs', placed, same, -⟩ := wp_ok (wp_alloc_served h n served) ran
      refine ⟨quiet_of_alloc apart ((alloc_enlarges (n + 1) size pageAlign).of_ok ran) (fun _ => ?_)
        same.paging placed.inv.ready, same, bs', placed.inv⟩
      rw [same.dir]
      exact VmPageDirectory.tablesSince_self _

/-- The heap supplies a table as it should when a hole serves the call. -/
theorem supplied_of_served (h : HeapInv s.kernel bs)
    (served : Served Resize.any s.kernel 0x1000 true) (apart : TablesApart t s bs)
    (missing : (t.dir s).tableAt (pagePtr a).table = none) : TableSupplied t n s a := by
  refine supplied_of_sound h (.served served) apart (fun _ p K₁ ran => ?_) missing
  obtain ⟨-, same, -⟩ := quiet_of_served h served apart ran
  rw [same.dir]
  exact VmPageDirectory.tablesSince_self _

end Heap

/-! ## Calls that return -/

theorem wp_bzero_mapped {K : KState} {a : Nat} (n : Nat)
    (mapped : ∀ x, x < n → K.translate (a + x) ≠ none) :
    wp (bzero a n) (fun _ K' => K' = { K with mem := K'.mem }) (fun _ => False) K := by
  induction n generalizing K a with
  | zero => exact rfl
  | succ n ih =>
      have first : write8 a 0 K = .ok ((), K.put8 a 0) := by
        unfold write8
        cases at_a : K.translate a with
        | none => exact absurd at_a (mapped 0 (Nat.succ_pos n))
        | some p => rfl
      rw [bzero, wp_bind, wp_of_ok first]
      refine wp_mono (ih fun x less => ?_) (fun _ K' after => ?_) fun _ h => h
      · rw [KState.put8_translate, Nat.add_assoc, Nat.add_comm 1 x]
        exact mapped (x + 1) (Nat.succ_lt_succ less)
      · rw [after, K.put8_eq a 0]

/-- A table from placement allocation: the next page boundary, or a whole page further. -/
theorem getPageIn_places {t : Target} {s : Dirs} (n a : Nat)
    (missing : (t.dir s).tableAt (pagePtr a).table = none) (ready : s.kernel.heapReady = false)
    (off : s.kernel.paging = false) (low : 0x1000 ≤ s.kernel.placementAddress)
    (room : s.kernel.placementAddress + 0x2000 < 4294967296) :
    ∃ mem, getPageIn t n a true s = .ok (some (pagePtr a),
      t.setDir ((t.dir s).install (pagePtr a).table s.kernel.placed s.kernel.placed)
        { s with kernel := { s.kernel with
          placementAddress := s.kernel.placed + 0x1000, mem := mem } }) := by
  have at_ := placed_eq low room
  have slot : a / 0x1000 / 1024 = (pagePtr a).table := rfl
  have returns : wp (getPageIn t n a true) (fun r s' => ∃ mem, r = some (pagePtr a) ∧
      s' = t.setDir ((t.dir s).install (pagePtr a).table s.kernel.placed s.kernel.placed)
        { s with kernel := { s.kernel with
          placementAddress := s.kernel.placed + 0x1000, mem := mem } }) (fun _ => False) s := by
    have placed : (if true = true ∧ s.kernel.placementAddress &&& pageMask ≠ 0 then
        add32 (s.kernel.placementAddress &&& pageMask) 0x1000 else s.kernel.placementAddress) =
        s.kernel.placed := by simp [KState.placed]
    rw [getPageIn, getPage, wp_bind, wp_get]
    dsimp only
    rw [slot, VmPageDirectory.tableAt_eq_none.mp missing, if_neg (by simp), if_pos rfl, wp_bind,
      wp_onKernel, kmalloc0ApWith, kmallocWith, wp_bind, wp_get]
    dsimp only
    rw [if_pos ready, wp_bind, wp_modify, wp_bind, wp_pure]
    dsimp only
    rw [placed, if_pos rfl, if_pos rfl, wp_bind, add32_eq (by omega), sub32_eq (by omega) (by omega),
      Nat.add_sub_cancel]
    refine wp_mono (wp_bzero_mapped _ fun x _ => ?_) (fun _ K' after => ?_) fun _ h => h
    · simp [KState.translate, off]
    · rw [wp_pure, wp_bind, wp_modify, wp_pure, after]
      refine ⟨K'.mem, rfl, ?_⟩
      cases t <;> rfl
  obtain ⟨r, s', ran, mem, rfl, rfl⟩ := wp_some returns
  exact ⟨mem, ran⟩

/-- A table from the heap, when `alloc` returns. -/
theorem getPageIn_heap {t : Target} {s : Dirs} {n a p : Nat} {K₁ : KState}
    (missing : (t.dir s).tableAt (pagePtr a).table = none) (ready : s.kernel.heapReady = true)
    (supplied : TableSupplied t n s a) (ran : alloc n 0x1000 true s.kernel = .ok (p, K₁)) :
    ∃ r s' phys, getPageIn t n a true s = .ok (r, s') ∧
      t.dir s' = (t.dir { s with kernel := K₁ }).install (pagePtr a).table p phys := by
  obtain ⟨-, ⟨f, fresh⟩, -⟩ := supplied.heap p K₁ ready ran
  obtain ⟨on, v, entry, present, -⟩ := fresh.mapped
  have translated := fresh.translate
  have slot : a / 0x1000 / 1024 = (pagePtr a).table := rfl
  have returns : wp (getPageIn t n a true) (fun _ s' =>
      ∃ phys, t.dir s' = (t.dir { s with kernel := K₁ }).install (pagePtr a).table p phys)
      (fun _ => False) s := by
    rw [getPageIn, getPage, wp_bind, wp_get]
    dsimp only
    rw [slot, VmPageDirectory.tableAt_eq_none.mp missing, if_neg (by simp), if_pos rfl, wp_bind,
      wp_onKernel, kmalloc0ApWith, kmallocWith, wp_bind, wp_get]
    dsimp only
    rw [if_neg (by rw [ready]; decide), wp_bind, wp_of_ok ran, if_pos rfl]
    rw [wp_bind, wp_of_ok (lookupPage_eq entry), wp_bind, wp_get]
    simp only [Option.bind_some, entry, if_true]
    rw [wp_bind, wp_pure, wp_bind]
    refine wp_mono (wp_bzero_mapped _ fun x less => ?_) (fun _ K₂ after => ?_) fun _ h => h
    · rw [translate_offset translated fresh.aligned less]
      simp
    · rw [wp_pure, wp_bind, wp_modify, wp_pure, after]
      refine ⟨add32 (v.pFrame * 0x1000) (p &&& 0xFFF), (Target.dir_setDir _ _ _).trans ?_⟩
      cases t <;> rfl
  obtain ⟨r, s', ran, phys, dir⟩ := wp_some returns
  exact ⟨r, s', phys, ran, dir⟩

/-- Such a call, as a step of a run. -/
theorem reaches_placed {t : Target} {s : Dirs} {p : Nat} (a : Nat)
    (missing : (t.dir s).tableAt (pagePtr a).table = none) (ready : s.kernel.heapReady = false)
    (off : s.kernel.paging = false) (low : 0x1000 ≤ s.kernel.placementAddress)
    (room : s.kernel.placementAddress + 0x2000 < 4294967296)
    (at_p : s.kernel.placementAddress / 0x1000 * 0x1000 + 0x1000 = p) :
    ∃ s', Reaches (WalkStep t) (Supplied t) s s' ∧
      t.dir s' = (t.dir s).install (pagePtr a).table p p ∧ s'.kernel.heapReady = false ∧
      s'.kernel.paging = false ∧ s'.kernel.placementAddress = p + 0x1000 := by
  obtain ⟨mem, ran⟩ := getPageIn_places 0 a missing ready off low room
  have supplied : Supplied t s (.getPage 0 a true) := fun _ _ =>
    ⟨fun _ => room, fun _ _ late => by rw [ready] at late; cases late⟩
  rw [placed_eq low room, at_p] at ran
  refine ⟨_, .single supplied (.getPage ran), Target.dir_setDir _ _ _, ?_⟩
  cases t
  · exact ⟨ready, off, rfl⟩
  · exact ⟨ready, off, rfl⟩

/-! ## The directory of the started kernel -/

/-- The kernel before paging, which ends at 0x2FB000. -/
def earlyKernel : Dirs where
  kernel := { bootKState with
    paging := false, dir := VmPageDirectory.zero, heapReady := false, placementAddress := 0x2FB000 }
  user := VmPageDirectory.zero

/-- The kernel with its heap. -/
def heapKernel : Dirs where
  kernel := bootHeap.kernel
  user := VmPageDirectory.zero

theorem earlyKernel_zeroed : Zeroed .kernelDirectory earlyKernel :=
  ⟨rfl, fun _ => ⟨rfl, by decide⟩⟩

theorem heapKernel_inv : ∃ bs, HeapInv heapKernel.kernel bs :=
  ⟨_, (started_runInv bootKState_regionMapped bootHeap_started).inv⟩

theorem bootKState_tableAt (i : Nat) : bootKState.dir.tableAt i =
    if i = 0 then some 0x2FE000 else if i = 0x300 then some 0x2FC000 else none := by
  dsimp only [VmPageDirectory.tableAt, bootKState]
  split_ifs <;> rfl

theorem bootKState_tables {i a : Nat} (table : bootKState.dir.tableAt i = some a) :
    a = 0x2FE000 ∨ a = 0x2FC000 := by
  rw [bootKState_tableAt] at table
  split_ifs at table
  · exact .inl (Option.some.inj table).symm
  · exact .inr (Option.some.inj table).symm

/-- The two tables lie below the heap. -/
theorem bootKState_apart {s : Dirs} (dir : s.kernel.dir = bootKState.dir)
    (start : s.kernel.heap.hAddrStart = 0xC0081000) (bs : List Block) :
    TablesApart .kernelDirectory s bs := by
  have dir : Target.kernelDirectory.dir s = bootKState.dir := dir
  refine ⟨fun i a table => .inr ?_, fun i a table => ?_⟩
  · rw [dir] at table
    obtain rfl | rfl := bootKState_tables table <;> omega
  · rw [dir] at table
    have entries : s.kernel.dir.page = bootKState.dir.page := congrArg _ dir
    rw [entries]
    obtain rfl | rfl := bootKState_tables table
    · exact ⟨bootPage 0x2FE, rfl, by decide⟩
    · exact ⟨bootPage 0x2FC, rfl, by decide⟩

theorem heapKernel_apart (t : Target) (bs : List Block) : TablesApart t heapKernel bs := by
  cases t with
  | user => exact ⟨nofun, nofun⟩
  | kernelDirectory =>
      obtain ⟨start, -, -, dir⟩ := started_bounds bootKState_regionMapped bootHeap_started
      exact bootKState_apart dir start bs

/-- `get_page` builds its directory, of two tables from placement allocation. -/
theorem heapKernel_built :
    Reaches (WalkStep .kernelDirectory) (Supplied .kernelDirectory) earlyKernel heapKernel := by
  obtain ⟨bs, inv⟩ := heapKernel_inv
  obtain ⟨-, -, -, dir⟩ := started_bounds bootKState_regionMapped bootHeap_started
  have dir : heapKernel.kernel.dir = bootKState.dir := dir
  obtain ⟨s₁, first, dir₁, ready₁, off₁, at₁⟩ := reaches_placed (t := .kernelDirectory)
    (s := earlyKernel) (p := 0x2FC000) 0xC0000000 rfl rfl rfl (by decide) (by decide) rfl
  obtain ⟨s₂, second, dir₂, -, off₂, -⟩ := reaches_placed (t := .kernelDirectory) (s := s₁)
    (p := 0x2FE000) 0 (by rw [dir₁]; rfl) ready₁ off₁ (by rw [at₁]; decide) (by rw [at₁]; decide)
    (by rw [at₁])
  have tables : ∀ i, (Target.kernelDirectory.dir s₂).tableAt i = bootKState.dir.tableAt i := by
    intro i
    rw [dir₂, dir₁, VmPageDirectory.tableAt_install, VmPageDirectory.tableAt_install,
      bootKState_tableAt]
    rfl
  have quiet : Quiet .kernelDirectory s₂ heapKernel := by
    refine ⟨fun i => ?_, fun i => ?_, fun i b table => ?_, fun unready => ?_⟩
    · rw [tables, ← dir]
      rfl
    · rw [dir₂, dir₁]
      have phys : heapKernel.kernel.dir.pdTblphys i = bootKState.dir.pdTblphys i := by rw [dir]
      refine phys.trans ?_
      dsimp only [bootKState, VmPageDirectory.install]
      rw [Function.update_apply, Function.update_apply]
      rfl
    · rw [tables] at table
      have before : s₂.kernel.translate b = some b := by simp [KState.translate, off₂]
      have on : heapKernel.kernel.paging = true := inv.mapped.backed.on
      rw [before, KState.translate, if_pos on, dir]
      obtain rfl | rfl := bootKState_tables table <;> rfl
    · have ready : heapKernel.kernel.heapReady = true := inv.ready
      rw [ready] at unready
      cases unready
  exact (first.trans second).trans (.single (i := .quiet) trivial (.quiet quiet))

theorem heapKernel_served : Served Resize.any heapKernel.kernel 0x1000 true := by
  decide +kernel

/-- A directory with the heap's tables, one for `a`. -/
theorem reaches_heap_table {t : Target} {s₀ : Dirs} (a : Nat)
    (run : Reaches (WalkStep t) (Supplied t) s₀ heapKernel)
    (missing : (t.dir heapKernel).tableAt (pagePtr a).table = none) :
    ∃ s b, Reaches (WalkStep t) (Supplied t) s₀ s ∧ (t.dir s).tableAt (pagePtr a).table = some b := by
  obtain ⟨bs, inv⟩ := heapKernel_inv
  have returns : (alloc 1 0x1000 true heapKernel.kernel).toOption.isSome = true := by decide +kernel
  obtain ⟨⟨b, K₁⟩, returned⟩ := Option.isSome_iff_exists.mp returns
  have supplied : TableSupplied t 1 heapKernel a :=
    supplied_of_served inv heapKernel_served (heapKernel_apart t bs) missing
  obtain ⟨r, s, phys, ran, dir⟩ :=
    getPageIn_heap missing inv.ready supplied (Program.ok_of_toOption returned)
  have call : Supplied t heapKernel (.getPage 1 a true) := fun _ _ => supplied
  refine ⟨s, b, .tail run call (.getPage ran), ?_⟩
  rw [dir, VmPageDirectory.tableAt_install, if_pos rfl]

/-- A block that leaves a hole of 0x800 bytes at the end of the heap. -/
theorem heap_with_small_hole : ∃ s bs q K₁,
    Reaches (WalkStep .kernelDirectory) (Supplied .kernelDirectory) earlyKernel s ∧
      HeapInv s.kernel bs ∧ Ordered s.kernel ∧ s.kernel.dir = bootKState.dir ∧
      s.kernel.heap.hAddrStart = 0xC0081000 ∧ GrowsInSlot 0x1000 true s.kernel ∧
      alloc 2 0x1000 true s.kernel = .ok (q, K₁) ∧
      VmPageDirectory.tablesSince s.kernel.dir K₁.dir = [] ∧
      (K₁.dir.page (pagePtr 0xC0100000)).map (·.pPresent) = some true := by
  obtain ⟨bs, inv⟩ := heapKernel_inv
  obtain ⟨start, -, -, dir⟩ := started_bounds bootKState_regionMapped bootHeap_started
  have apart := heapKernel_apart .kernelDirectory bs
  have served : Served Resize.any heapKernel.kernel (0x7E800 - 20) false := by decide +kernel
  have ran : ((alloc 1 (0x7E800 - 20) false heapKernel.kernel).toOption.map fun r => decide (
      r.2.indexed.length = 1 ∧ GrowsInSlot 0x1000 true r.2 ∧
        (alloc 2 0x1000 true r.2).toOption.map (fun r' =>
          (VmPageDirectory.tablesSince r.2.dir r'.2.dir,
            (r'.2.dir.page (pagePtr 0xC0100000)).map (·.pPresent))) = some ([], some true))) =
      some true := by
    decide +kernel
  obtain ⟨⟨p, K⟩, first, shape⟩ := Option.map_eq_some_iff.mp ran
  obtain ⟨one, grows, called⟩ := of_decide_eq_true shape
  obtain ⟨⟨q, K₁⟩, second, result⟩ := Option.map_eq_some_iff.mp called
  obtain ⟨alone, present⟩ := Prod.mk.inj result
  obtain ⟨quiet, same, bs', inv'⟩ :=
    quiet_of_served inv served apart (Program.ok_of_toOption first)
  have ordered : Ordered K := by
    obtain ⟨h, only⟩ := List.length_eq_one_iff.mp one
    rw [Ordered, only]
    exact List.pairwise_singleton _ _
  exact ⟨_, bs', q, K₁, .tail heapKernel_built (i := .quiet) trivial (.quiet quiet), inv', ordered,
    same.dir.trans dir, same.start.trans start, grows, Program.ok_of_toOption second, alone, present⟩

end MiniKernel.Kernel
