/-
# Kernel.HeapRuns -- runs of the kernel heap and its clients

A run starts with `init_heap` on a region whose pages are mapped.  Then the
clients allocate, free the blocks they hold, and write into them, in any order.
The kernel itself holds blocks too: the page tables that `alloc` takes while it
grows the heap, which are never freed (`HeapState.live`).

`RunInv` ties the blocks of `HeapInv` to these two kinds of owners.  One step
that is `Sound` keeps it (`step_runInv`), so every state of a run of such steps
has it (`run_runInv`).
-/
import MiniKernel.Kernel.HeapFree
import MiniKernel.Theory.Transition

namespace MiniKernel.Kernel

open Theory VmPageDirectory

set_option autoImplicit false

/-! ## init_heap -/

/-- A region as `init_paging` prepares it: every page has a frame of its own, and
frame 0, that of the first page of memory, is in use. -/
structure RegionMapped (K : KState) (start end_ : Nat) : Prop where
  paging : K.paging = true
  frames : FramesOk K
  pages : ∀ a, start ≤ a → a < end_ → ∃ v, K.dir.page (pagePtr a) = some v ∧ v.pFrame ≠ 0
  zeroUsed : K.bits.used 0 = true
  startAligned : start % 0x1000 = 0
  endAligned : end_ % 0x1000 = 0
  /-- The index and at least one page of heap fit. -/
  room : start + 0x81000 < end_
  top : end_ < 4294967296

/-- The state `init_heap` leaves before it writes the first header. -/
def KState.withHeap (K : KState) (start end_ max : Nat) (su ro : Bool) : KState :=
  { K with
    heap := { hIndex := SortedArray.place (fun _ => 0) vmHeapIndexSize (some CmpFunc.vmHeapHeader)
              hAddrStart := start, hAddrEnd := end_, hAddrMax := max, hSu := su, hRo := ro }
    heapReady := true }

/-- `init_heap` makes one hole of the region behind the index. -/
theorem wp_initHeap {K : KState} {start end_ : Nat} (region : RegionMapped K start end_) (max : Nat)
    (su ro : Bool) :
    Program.wp (initHeap start end_ max su ro)
      (fun _ K' => HeapInv K' [⟨start + 0x81000, end_ - (start + 0x81000), none⟩] ∧
        K'.dir = K.dir ∧ K'.indexed = [start + 0x81000] ∧ K'.heap.hAddrStart = start + 0x81000 ∧
        K'.heap.hAddrEnd = end_ ∧ K'.heap.hAddrMax = max) Exhausted K := by
  have room := region.room
  have top := region.top
  have aligned := region.startAligned
  have ends := region.endAligned
  have behind : pageAlign (add32 start (4 * vmHeapIndexSize)) = start + 0x81000 := by
    have size : 4 * vmHeapIndexSize = 0x80000 := rfl
    rw [size, add32_eq (by omega), pageAlign_eq (by omega) (by omega)]
    omega
  have backed : Backed K start end_ := by
    refine ⟨region.paging, fun a h1 h2 => ?_, fun a b v w h1 h2 h3 h4 at_a at_b same => ?_⟩
    · obtain ⟨v, entry, held⟩ := region.pages a h1 h2
      exact ⟨v, entry, (region.frames.owned _ v entry held).1⟩
    · obtain ⟨v', entry, held⟩ := region.pages a h1 h2
      obtain rfl := Option.some.inj (at_a.symm.trans entry)
      exact region.frames.unique _ _ _ _ at_a at_b held same
  rw [initHeap, Program.wp_bind, wp_kassert]
  refine ⟨fun _ => ?_, fun fails => (fails aligned).elim⟩
  rw [Program.wp_bind, wp_kassert]
  refine ⟨fun _ => ?_, fun fails => (fails ends).elim⟩
  dsimp only
  rw [behind, Program.wp_bind, Program.wp_modify]
  have sees : Sees (K.withHeap (start + 0x81000) end_ max su ro) start end_ K.view :=
    ⟨backed.congr rfl fun _ _ _ => rfl, fun _ _ _ => rfl⟩
  have size : sub32 end_ (start + 0x81000) = end_ - (start + 0x81000) := sub32_eq (by omega) top
  rw [size]
  refine (Program.wp_bind _ _ _ _ _).mpr (wp_setHeader sees (by omega) (by omega) (by omega)
    fun mem sees => ?_)
  refine wp_insertIndex sees (by omega) (fun a listed => by cases listed) rfl (by omega) (by omega)
    (fun _ => .inr (.inl rfl)) fun _ index k le list _ _ same _ => ?_
  obtain rfl : k = 0 := Nat.le_zero.mp le
  have block : Block.Tagged _ ⟨start + 0x81000, end_ - (start + 0x81000), none⟩ :=
    Block.tagged_hole (isHeader_headerAt (m := K.view) (by decide) (by omega)) (by omega)
  have tiled := Blocks.cons block (.nil _ _)
  dsimp only at tiled
  rw [show start + 0x81000 + (end_ - (start + 0x81000)) = end_ by omega] at tiled
  refine ⟨?_, rfl, list, rfl, rfl, rfl⟩
  exact {
    ready := rfl
    low := Nat.le_trans (by decide) (Nat.le_add_left 0x81000 start)
    startAligned := by
      dsimp only [KState.setIndex, KState.withHeap]
      omega
    endAligned := ends
    nonempty := room
    top := top
    blocks := tiled.congr fun a h1 h2 => sees.eq a (by omega) h2
    index := by
      have entry : KState.indexed (KState.setIndex
        { K.withHeap (start + 0x81000) end_ max su ro with mem := mem } index) =
          [start + 0x81000] := list
      rw [entry]
      exact List.Perm.refl _
    cmp := same
    frames := ⟨region.frames.nframes, region.frames.owned, region.frames.unique⟩
    mapped := ⟨(backed.mono (by
        dsimp only [KState.setIndex, KState.withHeap]
        omega) (Nat.le_refl _)).congr rfl fun _ _ _ => rfl, fun a v h1 h2 at_a null => by
      obtain ⟨v', entry, held⟩ := region.pages a (by
        dsimp only [KState.setIndex, KState.withHeap] at h1
        omega) h2
      obtain rfl := Option.some.inj (at_a.symm.trans entry)
      exact absurd null held⟩
    zeroUsed := .inl region.zeroUsed }

/-! ## Runs -/

/-- The kernel and the blocks its clients hold: pointers, with the sizes they asked
for. -/
structure HeapState where
  kernel : KState
  clients : List (Nat × Nat)

/-- What a client does. -/
inductive HeapOp where
  | alloc (size : Nat) (pageAlign : Bool)
  | free (p : Nat)
  /-- A store of a byte. -/
  | write (a : Nat) (v : UInt8)

/-- A call that returns, on a pointer the client holds; a store inside a block of
the client. -/
inductive HeapStep : HeapState → HeapOp → HeapState → Prop where
  | alloc {s : HeapState} {size : Nat} {pageAlign : Bool} {fuel p : Nat} {K' : KState}
      (ran : alloc fuel size pageAlign s.kernel = .ok (p, K')) :
      HeapStep s (.alloc size pageAlign) ⟨K', (p, size) :: s.clients⟩
  | free {s : HeapState} {p r : Nat} {K' : KState} (held : (p, r) ∈ s.clients)
      (ran : free p s.kernel = .ok ((), K')) :
      HeapStep s (.free p) ⟨K', s.clients.erase (p, r)⟩
  | write {s : HeapState} {p r a : Nat} {v : UInt8} {K' : KState} (held : (p, r) ∈ s.clients)
      (inside : p ≤ a ∧ a < p + r) (ran : write8 a v s.kernel = .ok ((), K')) :
      HeapStep s (.write a v) ⟨K', s.clients⟩

/-- All live allocations: those of the clients, and the page tables that came out of
the heap since the directory was `d`. -/
def HeapState.live (d : VmPageDirectory) (s : HeapState) : List (Nat × Nat) :=
  s.clients ++ (tablesSince d s.kernel.dir).map fun a => (a, 0x1000)

/-- The steps a run may take. -/
def Sound (R : Resize) (s : HeapState) : HeapOp → Prop
  | .alloc size pageAlign => AllocSound R size pageAlign s.kernel
  | .free p => FreeSound R (s.kernel.marked (p - 12)) (p - 12)
  | .write _ _ => True

/-- Nothing is asked of a hole that is resized in place. -/
def Resize.any : Resize := fun _ _ _ _ => True

/-- The state after `init_heap`. -/
def Started (K : KState) (start end_ max : Nat) (su ro : Bool) (s : HeapState) : Prop :=
  initHeap start end_ max su ro K = .ok ((), s.kernel) ∧ s.clients = []

/-- The blocks of the heap are those of the clients and the page tables. -/
structure RunInv (d : VmPageDirectory) (s : HeapState) (bs : List Block) : Prop where
  inv : HeapInv s.kernel bs
  live : (liveRanges bs).Perm (s.live d)
  extends_ : Extends d s.kernel.dir

theorem started_runInv {K : KState} {start end_ max : Nat} {su ro : Bool} {s : HeapState}
    (region : RegionMapped K start end_) (started : Started K start end_ max su ro s) :
    RunInv s.kernel.dir s [⟨start + 0x81000, end_ - (start + 0x81000), none⟩] := by
  obtain ⟨inv, -⟩ := Program.wp_ok (wp_initHeap region max su ro) started.1
  refine ⟨inv, ?_, .refl _⟩
  rw [HeapState.live, started.2, tablesSince_self]
  exact List.Perm.refl _

/-- A live allocation of a state in order, as a block. -/
theorem RunInv.block {d : VmPageDirectory} {s : HeapState} {bs : List Block} (h : RunInv d s bs)
    {p r : Nat} (held : (p, r) ∈ s.live d) :
    ∃ a z, p = a + 12 ∧ (⟨a, z, some r⟩ : Block) ∈ bs ∧ r + 20 ≤ z := by
  obtain ⟨a, z, rfl, member⟩ := mem_liveRanges.mp (h.live.mem_iff.mpr held)
  exact ⟨a, z, rfl, member, (h.inv.blocks.tagged _ member).fits r rfl⟩

/-- What one step does to a state in order. -/
structure Stepped (R : Resize) (d : VmPageDirectory) (s s' : HeapState) (bs' : List Block) : Prop where
  inv : RunInv d s' bs'
  /-- No byte changes in an allocation that stays, unless a client wrote it. -/
  bytes : ∀ p r, (p, r) ∈ s.live d → (p, r) ∈ s'.live d → ∀ a, p ≤ a → a < p + r →
    s'.kernel.view a = s.kernel.view a
  start : s'.kernel.heap.hAddrStart = s.kernel.heap.hAddrStart
  ordered : R.Orders → Ordered s.kernel → Ordered s'.kernel

section Steps

variable {R : Resize} {d : VmPageDirectory} {s : HeapState} {bs : List Block} {K' : KState}

/-- A block more, for a client. -/
theorem Allocated.stepped (h : RunInv d s bs) {bs' : List Block} {size p : Nat} {pageAlign : Bool}
    (allocated : Allocated R s.kernel K' bs bs' p size pageAlign) :
    Stepped R d s ⟨K', (p, size) :: s.clients⟩ bs' := by
  refine ⟨⟨allocated.inv, ?_, h.extends_.trans allocated.extends_⟩, ?_, allocated.start,
    allocated.ordered⟩
  · refine allocated.live.trans (List.Perm.cons _ ((h.live.append_left _).trans ?_))
    have tables := (tablesSince_trans h.extends_ allocated.extends_).map fun a => (a, 0x1000)
    rw [List.map_append] at tables
    exact (List.perm_append_comm_assoc _ _ _).trans (tables.symm.append_left _)
  · intro p r held _ a h1 h2
    obtain ⟨x, z, rfl, member, fits⟩ := h.block held
    have kept := allocated.kept _ member (by simp)
    exact kept.bytes a h1 (by dsimp only; omega)

theorem alloc_stepped (h : RunInv d s bs) {size fuel p : Nat} {pageAlign : Bool}
    (sound : AllocSound R size pageAlign s.kernel)
    (ran : alloc fuel size pageAlign s.kernel = .ok (p, K')) :
    ∃ bs', Stepped R d s ⟨K', (p, size) :: s.clients⟩ bs' := by
  obtain ⟨bs', allocated⟩ := Program.wp_ok (wp_alloc sound fuel h.inv) ran
  exact ⟨bs', allocated.stepped h⟩

theorem free_stepped (h : RunInv d s bs) {p r : Nat} (held : (p, r) ∈ s.clients)
    (sound : FreeSound R (s.kernel.marked (p - 12)) (p - 12))
    (ran : free p s.kernel = .ok ((), K')) :
    ∃ bs', Stepped R d s ⟨K', s.clients.erase (p, r)⟩ bs' := by
  obtain ⟨header, z, rfl, member, -⟩ := h.block (List.mem_append_left _ held)
  rw [Nat.add_sub_cancel] at sound
  obtain ⟨bs', freed⟩ := Program.wp_ok (wp_free h.inv member sound) ran
  have tables := tablesSince_congr (d := d) (fun t => freed.tables t)
  have live : (liveRanges bs').Perm
      (HeapState.live d ⟨K', s.clients.erase (header + 12, r)⟩) := by
    have all := freed.live.symm.trans h.live
    rw [HeapState.live] at all ⊢
    dsimp only
    rw [tables]
    exact List.Perm.cons_inv (all.trans ((List.perm_cons_erase held).append_right _))
  refine ⟨bs', ⟨freed.inv, live, h.extends_.trans (extends_of_same freed.tables)⟩, ?_, freed.start,
    freed.ordered⟩
  intro q r' before after a h1 h2
  obtain ⟨x, z', rfl, member', fits⟩ := h.block before
  have kept := freed.kept _ member' (by simp) ?_
  · exact kept.bytes a h1 (by dsimp only; omega)
  · -- the freed pointer is not among the live ones any more
    intro same
    have pointers : ((liveRanges bs).map Prod.fst).Nodup :=
      List.pairwise_map.mpr (h.inv.blocks.liveRanges_pairwise.imp fun less => Nat.ne_of_lt less.2)
    have split := (freed.live.map Prod.fst).nodup_iff.mp pointers
    rw [List.map_cons, List.nodup_cons] at split
    exact split.1 (List.mem_map.mpr ⟨_, live.mem_iff.mpr after, same⟩)

theorem write_stepped (h : RunInv d s bs) {p r a : Nat} {v : UInt8} (held : (p, r) ∈ s.clients)
    (inside : p ≤ a ∧ a < p + r) (ran : write8 a v s.kernel = .ok ((), K')) :
    RunInv d ⟨K', s.clients⟩ bs ∧ K'.heap.hAddrStart = s.kernel.heap.hAddrStart ∧
      (Ordered s.kernel → Ordered K') := by
  obtain ⟨x, z, rfl, member, fits⟩ := h.block (List.mem_append_left _ held)
  have bounds := h.inv.blocks.bounds member
  dsimp only at bounds
  have stored := write8_eq h.inv.mapped.backed (by omega : _ ≤ a) (by omega) v
  have same : K' = s.kernel.put8 a v := congrArg Prod.snd (Except.ok.inj (ran.symm.trans stored))
  have sees := h.inv.sees.put8 (by omega : _ ≤ a) (by omega) v
  rw [KState.put8_eq] at sees same
  have agree : Mem.AgreeOff a (a + 1) s.kernel.view (s.kernel.view.setByte a v) :=
    fun b off => if_neg (by omega)
  obtain ⟨inv, -, index⟩ := h.inv.write member sees agree inside.1 (by dsimp only; omega)
  rw [same]
  exact ⟨⟨inv, h.live, h.extends_⟩, rfl, fun ordered => ordered.congr index⟩

/-- One sound step keeps the heap in order. -/
theorem step_runInv (h : RunInv d s bs) {op : HeapOp} {s' : HeapState} (sound : Sound R s op)
    (step : HeapStep s op s') :
    ∃ bs', RunInv d s' bs' ∧ s'.kernel.heap.hAddrStart = s.kernel.heap.hAddrStart ∧
      (R.Orders → Ordered s.kernel → Ordered s'.kernel) := by
  cases step with
  | alloc ran =>
      obtain ⟨bs', stepped⟩ := alloc_stepped h sound ran
      exact ⟨bs', stepped.inv, stepped.start, stepped.ordered⟩
  | free held ran =>
      obtain ⟨bs', stepped⟩ := free_stepped h held sound ran
      exact ⟨bs', stepped.inv, stepped.start, stepped.ordered⟩
  | write held inside ran =>
      obtain ⟨inv, start, ordered⟩ := write_stepped h held inside ran
      exact ⟨bs, inv, start, fun _ => ordered⟩

/-- Every state of a run of sound steps is in order. -/
theorem run_runInv {s₀ s : HeapState} {bs₀ : List Block} (h : RunInv d s₀ bs₀)
    (reached : Reaches HeapStep (Sound R) s₀ s) :
    ∃ bs, RunInv d s bs ∧ (R.Orders → Ordered s₀.kernel → Ordered s.kernel) := by
  refine reached.invariant (I := fun s => ∃ bs, RunInv d s bs ∧
    (R.Orders → Ordered s₀.kernel → Ordered s.kernel)) ⟨bs₀, h, fun _ o => o⟩ ?_
  rintro s op s' ⟨bs, inv, ordered⟩ sound step
  obtain ⟨bs', inv', -, keeps⟩ := step_runInv inv sound step
  exact ⟨bs', inv', fun orders start => keeps orders (ordered orders start)⟩

end Steps

/-! ## Runs that are computed -/

/-- One step, computed; `alloc` may nest `fuel` deep. -/
def HeapState.next (fuel : Nat) (s : HeapState) : HeapOp → Option HeapState
  | .alloc size pageAlign =>
      match alloc fuel size pageAlign s.kernel with
      | .ok (p, K') => some ⟨K', (p, size) :: s.clients⟩
      | .error _ => none
  | .free p =>
      match s.clients.find? fun c => c.1 = p, free p s.kernel with
      | some c, .ok (_, K') => some ⟨K', s.clients.erase c⟩
      | _, _ => none
  | .write a v =>
      match s.clients.find? fun c => c.1 ≤ a ∧ a < c.1 + c.2, write8 a v s.kernel with
      | some _, .ok (_, K') => some ⟨K', s.clients⟩
      | _, _ => none

theorem HeapState.next_step {fuel : Nat} {s s' : HeapState} {op : HeapOp}
    (taken : s.next fuel op = some s') : HeapStep s op s' := by
  cases op with
  | alloc size pageAlign =>
      simp only [next] at taken
      split at taken
      · rename_i p K' ran
        obtain rfl := Option.some.inj taken
        exact .alloc ran
      · cases taken
  | free p =>
      simp only [next] at taken
      split at taken
      · rename_i c u K' found ran
        obtain ⟨q, r⟩ := c
        obtain rfl : q = p := by simpa using List.find?_some found
        obtain rfl := Option.some.inj taken
        exact .free (List.mem_of_find?_eq_some found) ran
      · cases taken
  | write a v =>
      simp only [next] at taken
      split at taken
      · rename_i c u K' found ran
        obtain ⟨q, r⟩ := c
        have inside : q ≤ a ∧ a < q + r := by simpa using List.find?_some found
        obtain rfl := Option.some.inj taken
        exact .write (List.mem_of_find?_eq_some found) inside ran
      · cases taken

/-- A run, computed. -/
theorem HeapState.reachable_of_run {fuel : Nat} {ops : List HeapOp} {s s' : HeapState}
    (ran : ops.foldlM (HeapState.next fuel) s = some s') : Reachable HeapStep s s' := by
  have steps : ∀ t op t', HeapState.next fuel t op = some t' → True ∧ HeapStep t op t' :=
    fun _ _ _ taken => ⟨trivial, next_step taken⟩
  exact Reaches.of_foldlM steps ops ran

section Checked

variable (R : Resize) [∀ m l h size, Decidable (R m l h size)]

instance (size : Nat) (pageAlign : Bool) (hole hhSize : Nat) :
    Decidable (PlaceSound size pageAlign hole hhSize) :=
  decidable_of_iff (size + 20 ≤ hhSize ∧ (pageAlign = true → hole % 0x1000 + 32 ≤ 0x1000) ∧
      (pageAlign = true → hhSize = paddingSize hole + size + 20 ∨
        paddingSize hole + size + 40 ≤ hhSize))
    ⟨fun h => ⟨h.1, h.2.1, h.2.2⟩, fun h => ⟨h.fits, h.padding, h.rest⟩⟩

instance (K : KState) (size : Nat) (pageAlign : Bool) : Decidable (Served R K size pageAlign) :=
  inferInstanceAs (Decidable (∃ hole ∈ K.fit size pageAlign,
    PlaceSound size pageAlign hole (K.view.word (hole + 8)) ∧
      (pageAlign = true → R K.view K.indexed hole (paddingSize hole))))

instance (K : KState) (header : Nat) : Decidable (FreeSound R K header) :=
  decidable_of_iff ((∀ l ∈ K.leftHole header, l ∈ K.indexed ∧ l + K.view.word (l + 8) = header) ∧
      (K.rightEnd (K.blockEnd header) = K.heap.hAddrEnd →
        (K.leftHole header).getD header - K.heap.hAddrStart + 20 ≤ vmHeapMinSize ∧
          vmHeapMinSize ≤ K.heap.hAddrEnd - K.heap.hAddrStart) ∧
      ∀ l ∈ K.leftHole header,
        R K.view (K.indexed.erase (K.blockEnd header)) l (K.finalEnd header - l))
    ⟨fun h => ⟨h.1, h.2.1, h.2.2⟩, fun h => ⟨h.left, h.contracts, h.resize⟩⟩

/-- A sound step, computed; an allocation has to be served by a hole. -/
def HeapState.nextSound (fuel : Nat) (s : HeapState) (op : HeapOp) : Option HeapState :=
  match op with
  | .alloc size pageAlign => if Served R s.kernel size pageAlign then s.next fuel op else none
  | .free p => if FreeSound R (s.kernel.marked (p - 12)) (p - 12) then s.next fuel op else none
  | .write _ _ => s.next fuel op

theorem HeapState.nextSound_step {fuel : Nat} (s : HeapState) (op : HeapOp) (s' : HeapState)
    (taken : s.nextSound R fuel op = some s') : Sound R s op ∧ HeapStep s op s' := by
  cases op with
  | alloc size pageAlign =>
      simp only [nextSound] at taken
      split at taken
      · rename_i served
        exact ⟨.served served, next_step taken⟩
      · cases taken
  | free p =>
      simp only [nextSound] at taken
      split at taken
      · rename_i sound
        exact ⟨sound, next_step taken⟩
      · cases taken
  | write a v =>
      have taken : s.next fuel (.write a v) = some s' := taken
      exact ⟨trivial, next_step taken⟩

/-- A sound run, computed. -/
theorem HeapState.reaches_of_run {fuel : Nat} {ops : List HeapOp} {s s' : HeapState}
    (ran : ops.foldlM (HeapState.nextSound R fuel) s = some s') :
    Reaches HeapStep (Sound R) s s' :=
  Reaches.of_foldlM (nextSound_step R) ops ran

end Checked

instance (m : Mem) (l : List Nat) (h size : Nat) : Decidable (Resize.any m l h size) :=
  inferInstanceAs (Decidable True)

/-! ## A heap that has been started -/

/-- An entry of `alloc_frame(p, 0, 0)`. -/
def bootPage (frame : Nat) : VmPage :=
  { pPresent := true, pRw := false, pUser := true, pFrame := frame }

/-- A kernel of 3 MiB behind `init_paging`: pages below 0x300000 are mapped to
themselves, the 256 pages of the heap to the frames that follow. -/
def bootKState : KState where
  mem := fun _ => 0
  paging := true
  dir := {
    pdTables := fun t =>
      if t = 0 then
        some { address := 0x2FE000
               ptPages := fun e => if e < 0x300 then bootPage e else VmPage.zero }
      else if t = 0x300 then
        some { address := 0x2FC000
               ptPages := fun e => if e < 0x100 then bootPage (0x300 + e) else VmPage.zero }
      else none
    pdTblphys := fun t => if t = 0 then 0x2FE007 else if t = 0x300 then 0x2FC007 else 0 }
  bits := { frames := fun i => if i < 32 then 0xFFFFFFFF#32 else 0, nframes := 0x1000 }
  heapReady := false
  heap := {
    hIndex := SortedArray.place (fun _ => 0) 0 none
    hAddrStart := 0, hAddrEnd := 0, hAddrMax := 0, hSu := false, hRo := false }
  placementAddress := 0x300000

/-- The entries of `bootKState` that hold a frame. -/
theorem bootKState_page {p : PagePtr} {v : VmPage} (entry : bootKState.dir.page p = some v)
    (held : v.pFrame ≠ 0) :
    v.pPresent = true ∧ (p.table = 0 ∧ p.entry < 0x300 ∧ v.pFrame = p.entry ∨
      p.table = 0x300 ∧ p.entry < 0x100 ∧ v.pFrame = 0x300 + p.entry) := by
  obtain ⟨t, e⟩ := p
  simp only [VmPageDirectory.page, bootKState] at entry
  split at entry
  · rename_i first
    obtain rfl := Option.some.inj entry
    dsimp only at held ⊢
    split at held
    · rename_i below
      rw [if_pos below]
      exact ⟨rfl, .inl ⟨first, below, rfl⟩⟩
    · exact absurd rfl held
  · split at entry
    · rename_i heap
      obtain rfl := Option.some.inj entry
      dsimp only at held ⊢
      split at held
      · rename_i below
        rw [if_pos below]
        exact ⟨rfl, .inr ⟨heap, below, rfl⟩⟩
      · exact absurd rfl held
    · cases entry

theorem bootKState_used {f : Nat} (below : f < 0x400) : bootKState.bits.used f = true := by
  have word : f / 32 < 32 := by omega
  have bit : f % 32 < 32 := Nat.mod_lt _ (by decide)
  simp only [Bitset.used, WordSet.mem, bootKState, if_pos word]
  interval_cases f % 32 <;> rfl

/-- The region of the kernel heap is mapped. -/
theorem bootKState_regionMapped : RegionMapped bootKState 0xC0000000 0xC0100000 where
  paging := rfl
  frames := {
    nframes := rfl
    owned := by
      intro p v entry held
      obtain ⟨present, low | heap⟩ := bootKState_page entry held
      · exact ⟨present, by omega, bootKState_used (by omega)⟩
      · exact ⟨present, by omega, bootKState_used (by omega)⟩
    unique := by
      rintro ⟨t, e⟩ ⟨t', e'⟩ v w at_p at_q held same
      have first := (bootKState_page at_p held).2
      have second := (bootKState_page at_q (same ▸ held)).2
      dsimp only at first second
      rw [PagePtr.mk.injEq]
      omega }
  pages := by
    intro a h1 h2
    have table : (pagePtr a).table = 0x300 := by
      dsimp only [pagePtr]
      omega
    have entry : (pagePtr a).entry < 0x100 := by
      dsimp only [pagePtr]
      omega
    refine ⟨bootPage (0x300 + (pagePtr a).entry), ?_, by simp [bootPage]⟩
    simp [VmPageDirectory.page, bootKState, table, entry]
  zeroUsed := bootKState_used (by decide)
  startAligned := rfl
  endAligned := rfl
  room := by decide
  top := by decide

/-- The state after `init_heap`, with the arguments of `init_paging`. -/
def bootHeap : HeapState where
  kernel := ((initHeap 0xC0000000 0xC0100000 0xCFFFF000 false false bootKState).toOption.map
    Prod.snd).getD bootKState
  clients := []

set_option maxRecDepth 100000 in
theorem bootHeap_started : Started bootKState 0xC0000000 0xC0100000 0xCFFFF000 false false bootHeap := by
  have returns : (initHeap 0xC0000000 0xC0100000 0xCFFFF000 false false bootKState).toOption.isSome =
      true := by decide +kernel
  obtain ⟨r, ran⟩ := Option.isSome_iff_exists.mp returns
  refine ⟨?_, rfl⟩
  rw [bootHeap, ran]
  exact Program.ok_of_toOption ran

/-- A sound run of the started heap is in order, and with its footers when they are
checked. -/
theorem inv_of_run {fuel n : Nat} {ops : List HeapOp} {s : HeapState} {l : List (Nat × Nat × Nat)}
    (ran : ops.foldlM (HeapState.nextSound Resize.any fuel) bootHeap = some s)
    (read : tags s.kernel.view s.kernel.heap.hAddrEnd n s.kernel.heap.hAddrStart = some l)
    (checked : TagsFooted s.kernel.view l) :
    ∃ bs, HeapInv s.kernel bs ∧ Footed s.kernel.view bs ∧
      bs.map (fun b => (b.addr, b.flag, b.size)) = l := by
  obtain ⟨bs, inv, -⟩ := run_runInv (started_runInv bootKState_regionMapped bootHeap_started)
    (HeapState.reaches_of_run Resize.any ran)
  exact ⟨bs, inv.inv, inv.inv.blocks.footed_of_tags read checked, inv.inv.blocks.tags_eq read⟩

end MiniKernel.Kernel
