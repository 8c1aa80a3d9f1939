/-
# Kernel.Kmalloc -- the memory that clients of kmalloc.c see

Once there is a heap, the eight functions of kmalloc.c are `alloc`, with the physical address of
the block for those with a `p` in their name and with a `bzero` for those with a `0`.

`Known` is what the clients of these functions can tell of their memory: a byte that one of them
stored and nobody was given since, and the zeros of a block from a zeroing function.  In every run
of sound calls the memory holds what is known (`kmalloc_store`), and a block that comes with a
physical address is where the MMU finds it (`kmalloc_physical`).
-/
import MiniKernel.Kernel.HeapIsolation
import MiniKernel.Theory.MemoryBits

namespace MiniKernel.Kernel

open Theory VmPageDirectory

set_option autoImplicit false

/-! ## The functions -/

/-- The functions that allocate. -/
inductive Allocator where
  | kmalloc | kmalloc0 | kmallocA | kmalloc0A | kmallocP | kmalloc0P | kmallocAp | kmalloc0Ap
  deriving DecidableEq

namespace Allocator

/-- The body of a function, as a call of `_kmalloc(len, phys, flags)`. -/
def run (fuel len : Nat) : Allocator → KernelM (Nat × Nat)
  | kmalloc => kmallocWith (alloc fuel) len false false false
  | kmalloc0 => kmallocWith (alloc fuel) len false false true
  | kmallocA => kmallocWith (alloc fuel) len false true false
  | kmalloc0A => kmallocWith (alloc fuel) len false true true
  | kmallocP => kmallocWith (alloc fuel) len true false false
  | kmalloc0P => kmallocWith (alloc fuel) len true false true
  | kmallocAp => kmallocWith (alloc fuel) len true true false
  | kmalloc0Ap => kmalloc0ApWith (alloc fuel) len

/-- `phys` is not null. -/
def phys : Allocator → Bool
  | kmalloc | kmalloc0 | kmallocA | kmalloc0A => false
  | kmallocP | kmalloc0P | kmallocAp | kmalloc0Ap => true

/-- `flags & M_ALIGNED` -/
def aligned : Allocator → Bool
  | kmalloc | kmalloc0 | kmallocP | kmalloc0P => false
  | kmallocA | kmalloc0A | kmallocAp | kmalloc0Ap => true

/-- `flags & M_ZERO` -/
def zero : Allocator → Bool
  | kmalloc | kmallocA | kmallocP | kmallocAp => false
  | kmalloc0 | kmalloc0A | kmalloc0P | kmalloc0Ap => true

theorem run_eq (f : Allocator) (fuel len : Nat) :
    f.run fuel len = kmallocWith (alloc fuel) len f.phys f.aligned f.zero := by
  cases f <;> rfl

end Allocator

/-- `kfree` -/
def kfree (ptr : Nat) : KernelM Unit := free ptr

/-! ## What clients know -/

/-- The bytes that clients know. -/
abbrev Known := Nat → Option UInt8

namespace Known

/-- A block is handed out. -/
def grant (k : Known) (p n : Nat) (zero : Bool) : Known := fun a =>
  if p ≤ a ∧ a < p + n then (if zero then some 0 else none) else k a

/-- A block is given back. -/
def revoke (k : Known) (p n : Nat) : Known := fun a => if p ≤ a ∧ a < p + n then none else k a

/-- A byte is stored. -/
def store (k : Known) (a : Nat) (v : UInt8) : Known := Function.update k a (some v)

end Known

/-- The heap, its clients, and what they know. -/
structure ClientState where
  heap : HeapState
  known : Known

/-- What a client does. -/
inductive ClientOp where
  | kmalloc (f : Allocator) (len : Nat)
  | kfree (p : Nat)
  /-- A store of a byte. -/
  | write (a : Nat) (v : UInt8)

/-- A call that returns; a store inside a block of the client. -/
inductive ClientStep : ClientState → ClientOp → ClientState → Prop where
  | kmalloc {s : ClientState} {f : Allocator} {len fuel p phys : Nat} {K' : KState}
      (ran : f.run fuel len s.heap.kernel = .ok ((p, phys), K')) :
      ClientStep s (.kmalloc f len)
        ⟨⟨K', (p, len) :: s.heap.clients⟩, s.known.grant p len f.zero⟩
  | kfree {s : ClientState} {p r : Nat} {K' : KState} (held : (p, r) ∈ s.heap.clients)
      (ran : kfree p s.heap.kernel = .ok ((), K')) :
      ClientStep s (.kfree p) ⟨⟨K', s.heap.clients.erase (p, r)⟩, s.known.revoke p r⟩
  | write {s : ClientState} {p r a : Nat} {v : UInt8} {K' : KState}
      (held : (p, r) ∈ s.heap.clients) (inside : p ≤ a ∧ a < p + r)
      (ran : write8 a v s.heap.kernel = .ok ((), K')) :
      ClientStep s (.write a v) ⟨⟨K', s.heap.clients⟩, s.known.store a v⟩

/-- The steps a run may take. -/
def ClientSound (R : Resize) (s : ClientState) : ClientOp → Prop
  | .kmalloc f len => AllocSound R len f.aligned s.heap.kernel
  | .kfree p => FreeSound R (s.heap.kernel.marked (p - 12)) (p - 12)
  | .write _ _ => True

/-! ## One call -/

section Call

variable {R : Resize} {d : VmPageDirectory} {s : HeapState} {bs : List Block} {K' : KState}

/-- The clearing of a block that was just handed out. -/
theorem wp_bzero_allocated {K K₁ : KState} {bs' : List Block} {p len : Nat} {pageAlign : Bool}
    (allocated : Allocated R K K₁ bs bs' p len pageAlign) :
    Program.wp (bzero p len) (fun _ K' => (∃ mem, K' = { K₁ with mem := mem }) ∧
      Allocated R K K' bs bs' p len pageAlign ∧ ∀ a, p ≤ a → a < p + len → K'.view a = 0)
      (fun _ => False) K₁ := by
  have inv := allocated.inv
  obtain ⟨x, z, rfl, member⟩ :=
    mem_liveRanges.mp (allocated.live.mem_iff.mpr List.mem_cons_self)
  have fits := (inv.blocks.tagged _ member).fits _ rfl
  have bounds := inv.blocks.bounds member
  dsimp only at bounds fits
  refine wp_bzero inv.sees (by omega) (by omega) fun mem sees => ?_
  have agree : Mem.AgreeOff (x + 12) (x + 12 + len) K₁.view (K₁.view.zeroBytes (x + 12) len) :=
    Mem.AgreeOff.zeroBytes (.refl _ _ _) (Nat.le_refl _) (Nat.le_refl _)
  obtain ⟨inv', kept, index⟩ :=
    inv.write member sees agree (Nat.le_refl _) (by dsimp only; omega)
  refine ⟨⟨mem, rfl⟩, ⟨inv', fun b mem live => ?_, allocated.live, allocated.extends_,
    allocated.start, allocated.max, allocated.aligned,
    fun orders old => (allocated.ordered orders old).congr index⟩, fun a h1 h2 => ?_⟩
  · refine (allocated.kept b mem live).trans (kept b (allocated.kept b mem live).mem ?_)
    rintro rfl
    have twice : (x + 12, len) ∈ liveRanges bs := mem_liveRanges.mpr ⟨x, z, rfl, mem⟩
    have nodup : (liveRanges bs').Nodup :=
      inv.blocks.liveRanges_pairwise.imp fun less same => by
        rw [same] at less
        exact Nat.lt_irrefl _ less.2
    have once := List.nodup_cons.mp (allocated.live.nodup_iff.mp nodup)
    exact once.1 (List.mem_append_right _ twice)
  · rw [sees.eq a (by omega) (by omega)]
    exact Mem.zeroBytes_inside h1 h2

/-- What a call that returns `p` does to a heap in order. -/
structure HandedOut (R : Resize) (d : VmPageDirectory) (s : HeapState) (f : Allocator) (len p phys : Nat)
    (K' : KState) : Prop where
  stepped : ∃ bs', Stepped R d s ⟨K', (p, len) :: s.clients⟩ bs'
  aligned : f.aligned = true → p % 0x1000 = 0
  zeroed : f.zero = true → ∀ a, p ≤ a → a < p + len → K'.view a = 0
  physical : f.phys = true → K'.translate p = some phys

/-- The physical address that the MMU finds for a block. -/
theorem physical_of_allocated {K K₁ : KState} {bs' : List Block} {p len : Nat} {pageAlign : Bool}
    (allocated : Allocated R K K₁ bs bs' p len pageAlign) :
    ∃ v, K₁.dir.page (pagePtr p) = some v ∧
      K₁.translate p = some (add32 (v.pFrame * 0x1000) (p &&& 0xFFF)) := by
  have inv := allocated.inv
  obtain ⟨x, z, rfl, member⟩ :=
    mem_liveRanges.mp (allocated.live.mem_iff.mpr List.mem_cons_self)
  have fits := (inv.blocks.tagged _ member).fits _ rfl
  have bounds := inv.blocks.bounds member
  dsimp only at bounds fits
  obtain ⟨v, entry, present⟩ := inv.mapped.backed.present (x + 12) (by omega) (by omega)
  refine ⟨v, entry, ?_⟩
  have small : v.pFrame < 0x1000 := by
    by_cases null : v.pFrame = 0
    · omega
    · exact (inv.frames.owned _ v entry null).2.1
  rw [KState.translate, if_pos inv.mapped.backed.on, entry, land_pageOffset, add32_eq (by omega)]
  dsimp only
  rw [if_pos present]

/-- A call of a function on a heap in order. -/
theorem wp_run (h : RunInv d s bs) {f : Allocator} {len fuel : Nat}
    (sound : AllocSound R len f.aligned s.kernel) :
    Program.wp (f.run fuel len) (fun r K' => HandedOut R d s f len r.1 r.2 K') (fun _ => True)
      s.kernel := by
  rw [f.run_eq, kmallocWith, Program.wp_bind, Program.wp_get]
  dsimp only
  rw [if_neg (by rw [h.inv.ready]; decide)]
  refine Program.wp_bind_of (Program.wp_mono (wp_alloc sound fuel h.inv) (fun _ _ h => h)
    fun _ _ => trivial) ?_
  rintro p K₁ ⟨bs', allocated⟩
  obtain ⟨v, entry, physical⟩ := physical_of_allocated allocated
  have finish : ∀ phys, (f.phys = true → K₁.translate p = some phys) →
      Program.wp (do
          if f.zero then bzero p len
          pure (p, phys) : KernelM (Nat × Nat))
        (fun r K' => HandedOut R d s f len r.1 r.2 K') (fun _ => True) K₁ := by
    intro phys found
    cases zero : f.zero with
    | false =>
        refine ⟨⟨bs', allocated.stepped h⟩, allocated.aligned, fun none => ?_, found⟩
        rw [zero] at none
        cases none
    | true =>
        refine Program.wp_bind_of (Program.wp_mono (wp_bzero_allocated allocated)
          (fun _ _ h => h) fun _ _ => trivial) ?_
        rintro ⟨⟩ K₂ ⟨⟨mem, rfl⟩, cleared, zeros⟩
        exact ⟨⟨bs', cleared.stepped h⟩, allocated.aligned, fun _ => zeros, found⟩
  cases phys : f.phys with
  | false =>
      refine finish 0 fun some => ?_
      rw [phys] at some
      cases some
  | true =>
      rw [if_pos rfl, Program.wp_bind, Program.wp_of_ok (lookupPage_eq entry),
        Program.wp_bind, Program.wp_get]
      simp only [Option.bind_some, entry]
      exact finish _ fun _ => physical

end Call

/-! ## Runs -/

/-- What holds in every state of a run: the heap is in order, and what is known lies in a block of
a client and is in memory. -/
structure ClientState.Inv (d : VmPageDirectory) (s : ClientState) : Prop where
  run : ∃ bs, RunInv d s.heap bs
  inside : ∀ a v, s.known a = some v → ∃ p r, (p, r) ∈ s.heap.clients ∧ p ≤ a ∧ a < p + r
  holds : ∀ a v, s.known a = some v → s.heap.kernel.view a = v

section Runs

variable {R : Resize} {d : VmPageDirectory} {s : ClientState} {K' : KState}

theorem ClientState.Inv.kmalloc (inv : s.Inv d) {f : Allocator} {len fuel p phys : Nat}
    (sound : AllocSound R len f.aligned s.heap.kernel)
    (ran : f.run fuel len s.heap.kernel = .ok ((p, phys), K')) :
    ClientState.Inv d ⟨⟨K', (p, len) :: s.heap.clients⟩, s.known.grant p len f.zero⟩ := by
  obtain ⟨bs, run⟩ := inv.run
  obtain ⟨⟨bs', stepped⟩, -, zeroed, -⟩ := Program.wp_ok (wp_run run sound) ran
  refine ⟨⟨bs', stepped.inv⟩, fun a v known => ?_, fun a v known => ?_⟩
  · by_cases own : p ≤ a ∧ a < p + len
    · exact ⟨p, len, List.mem_cons_self, own⟩
    · obtain ⟨q, r, held, bounds⟩ := inv.inside a v ((if_neg own).symm.trans known)
      exact ⟨q, r, List.mem_cons_of_mem _ held, bounds⟩
  · by_cases own : p ≤ a ∧ a < p + len
    · have fresh := (if_pos own).symm.trans known
      split_ifs at fresh with zero
      rw [← Option.some.inj fresh]
      exact zeroed zero a own.1 own.2
    · have before := (if_neg own).symm.trans known
      obtain ⟨q, r, held, h1, h2⟩ := inv.inside a v before
      have kept := stepped.bytes q r (List.mem_append_left _ held)
        (List.mem_append_left _ (List.mem_cons_of_mem _ held)) a h1 h2
      exact kept.trans (inv.holds a v before)

theorem ClientState.Inv.kfree (inv : s.Inv d) {p r : Nat} (held : (p, r) ∈ s.heap.clients)
    (sound : FreeSound R (s.heap.kernel.marked (p - 12)) (p - 12))
    (ran : free p s.heap.kernel = .ok ((), K')) :
    ClientState.Inv d ⟨⟨K', s.heap.clients.erase (p, r)⟩, s.known.revoke p r⟩ := by
  obtain ⟨bs, run⟩ := inv.run
  obtain ⟨bs', stepped⟩ := free_stepped run held sound ran
  have other : ∀ a v, s.known.revoke p r a = some v → s.known a = some v ∧ ∃ q w,
      (q, w) ∈ s.heap.clients ∧ (q, w) ∈ s.heap.clients.erase (p, r) ∧ q ≤ a ∧ a < q + w := by
    intro a v known
    unfold Known.revoke at known
    split_ifs at known with own
    obtain ⟨q, w, mem, bounds⟩ := inv.inside a v known
    refine ⟨known, q, w, mem, (List.mem_erase_of_ne ?_).mpr mem, bounds⟩
    intro same
    obtain ⟨rfl, rfl⟩ := Prod.mk.inj same
    exact own bounds
  refine ⟨⟨bs', stepped.inv⟩, fun a v known => ?_, fun a v known => ?_⟩
  · obtain ⟨-, q, w, -, still, bounds⟩ := other a v known
    exact ⟨q, w, still, bounds⟩
  · obtain ⟨before, q, w, mem, still, h1, h2⟩ := other a v known
    have kept := stepped.bytes q w (List.mem_append_left _ mem) (List.mem_append_left _ still) a h1 h2
    exact kept.trans (inv.holds a v before)

theorem ClientState.Inv.write (inv : s.Inv d) {p r a : Nat} {v : UInt8}
    (held : (p, r) ∈ s.heap.clients) (inside : p ≤ a ∧ a < p + r)
    (ran : write8 a v s.heap.kernel = .ok ((), K')) :
    ClientState.Inv d ⟨⟨K', s.heap.clients⟩, s.known.store a v⟩ := by
  obtain ⟨bs, run⟩ := inv.run
  obtain ⟨run', -, -⟩ := write_stepped run held inside ran
  have within : ∀ q w, (q, w) ∈ s.heap.clients → ∀ b, q ≤ b → b < q + w →
      s.heap.kernel.heap.hAddrStart ≤ b ∧ b < s.heap.kernel.heap.hAddrEnd := by
    intro q w mem b h1 h2
    have bounds := run.isolated.inside q w (List.mem_append_left _ mem)
    omega
  have here := within p r held a inside.1 inside.2
  have sees := run.inv.sees.put8 (by omega : _ ≤ a) here.2 v
  have stored := write8_eq run.inv.mapped.backed (by omega : _ ≤ a) here.2 v
  obtain rfl : K' = s.heap.kernel.put8 a v :=
    congrArg Prod.snd (Except.ok.inj (ran.symm.trans stored))
  refine ⟨⟨bs, run'⟩, fun b w known => ?_, fun b w known => ?_⟩
  · by_cases same : b = a
    · rw [same]
      exact ⟨p, r, held, inside⟩
    · exact inv.inside b w ((Function.update_of_ne same _ _).symm.trans known)
  · by_cases same : b = a
    · subst same
      have known : Function.update s.known b (some v) b = some w := known
      rw [Function.update_self] at known
      rw [sees.eq b (by omega) here.2, ← Option.some.inj known]
      exact if_pos rfl
    · have before := (Function.update_of_ne same _ _).symm.trans known
      obtain ⟨q, z, mem, h1, h2⟩ := inv.inside b w before
      have there := within q z mem b h1 h2
      rw [sees.eq b (by omega) there.2, ← inv.holds b w before]
      exact if_neg same

/-- One sound step keeps what is known. -/
theorem ClientState.Inv.step (inv : s.Inv d) {op : ClientOp} {s' : ClientState}
    (sound : ClientSound R s op) (step : ClientStep s op s') : s'.Inv d := by
  cases step with
  | kmalloc ran => exact inv.kmalloc sound ran
  | kfree held ran => exact inv.kfree held sound ran
  | write held inside ran => exact inv.write held inside ran

/-- The clients when the heap is new. -/
def ClientState.start (s : HeapState) : ClientState := ⟨s, fun _ => none⟩

theorem ClientState.Inv.of_run {K : KState} {start end_ max : Nat} {su ro : Bool} {s₀ : HeapState}
    (region : RegionMapped K start end_) (started : Started K start end_ max su ro s₀)
    (reached : Reaches ClientStep (ClientSound R) (.start s₀) s) : s.Inv s₀.kernel.dir := by
  refine reached.invariant ⟨⟨_, started_runInv region started⟩, ?_, ?_⟩
    fun _ _ _ inv sound step => inv.step sound step
  · intro a v known
    cases known
  · intro a v known
    cases known

/-- **Memory is a store.**  In every run of sound calls of the functions of kmalloc.c, every byte
that a client wrote into a block it still has, and every byte of a zeroed block that was not
written since, reads as it should. -/
theorem kmalloc_store {K : KState} {start end_ max : Nat} {su ro : Bool} {s₀ : HeapState}
    (region : RegionMapped K start end_) (started : Started K start end_ max su ro s₀)
    (reached : Reaches ClientStep (ClientSound Resize.any) (.start s₀) s) :
    ∀ a v, s.known a = some v → s.heap.kernel.peek8 a = .ok v := by
  intro a v known
  have inv := ClientState.Inv.of_run region started reached
  obtain ⟨bs, run⟩ := inv.run
  obtain ⟨p, r, held, h1, h2⟩ := inv.inside a v known
  have bounds := run.isolated.inside p r (List.mem_append_left _ held)
  rw [run.inv.sees.peek8 (by omega : _ ≤ a) (by omega), inv.holds a v known]

/-- **Addresses.**  In every state of such a run, a block of a page-aligning function starts a page,
and the physical address that comes with a block is the one the MMU translates its first byte to. -/
theorem kmalloc_physical {K : KState} {start end_ max : Nat} {su ro : Bool} {s₀ : HeapState}
    (region : RegionMapped K start end_) (started : Started K start end_ max su ro s₀)
    (reached : Reaches ClientStep (ClientSound Resize.any) (.start s₀) s) {f : Allocator}
    {fuel len p phys : Nat} (sound : ClientSound Resize.any s (.kmalloc f len))
    (ran : f.run fuel len s.heap.kernel = .ok ((p, phys), K')) :
    (f.aligned = true → p % 0x1000 = 0) ∧ (f.phys = true → K'.translate p = some phys) := by
  obtain ⟨bs, run⟩ := (ClientState.Inv.of_run region started reached).run
  obtain ⟨-, aligned, -, physical⟩ := Program.wp_ok (wp_run run sound) ran
  exact ⟨aligned, physical⟩

end Runs

/-! ## Runs that are computed -/

/-- One sound step, computed; an allocation has to be served by a hole. -/
def ClientState.next (fuel : Nat) (s : ClientState) : ClientOp → Option ClientState
  | .kmalloc f len =>
      if Served Resize.any s.heap.kernel len f.aligned then
        match f.run fuel len s.heap.kernel with
        | .ok ((p, _), K') => some ⟨⟨K', (p, len) :: s.heap.clients⟩, s.known.grant p len f.zero⟩
        | .error _ => none
      else none
  | .kfree p =>
      if FreeSound Resize.any (s.heap.kernel.marked (p - 12)) (p - 12) then
        match s.heap.clients.find? fun c => c.1 = p, kfree p s.heap.kernel with
        | some c, .ok (_, K') => some ⟨⟨K', s.heap.clients.erase c⟩, s.known.revoke c.1 c.2⟩
        | _, _ => none
      else none
  | .write a v =>
      match s.heap.clients.find? fun c => c.1 ≤ a ∧ a < c.1 + c.2, write8 a v s.heap.kernel with
      | some _, .ok (_, K') => some ⟨⟨K', s.heap.clients⟩, s.known.store a v⟩
      | _, _ => none

theorem ClientState.next_step {fuel : Nat} (s : ClientState) (op : ClientOp) (s' : ClientState)
    (taken : s.next fuel op = some s') : ClientSound Resize.any s op ∧ ClientStep s op s' := by
  cases op with
  | kmalloc f len =>
      simp only [next] at taken
      split_ifs at taken with served
      split at taken
      · rename_i p phys K' ran
        obtain rfl := Option.some.inj taken
        exact ⟨.served served, .kmalloc ran⟩
      · cases taken
  | kfree p =>
      simp only [next] at taken
      split_ifs at taken with sound
      split at taken
      · rename_i c u K' found ran
        obtain ⟨q, r⟩ := c
        obtain rfl : q = p := by simpa using List.find?_some found
        obtain rfl := Option.some.inj taken
        exact ⟨sound, .kfree (List.mem_of_find?_eq_some found) ran⟩
      · cases taken
  | write a v =>
      simp only [next] at taken
      split at taken
      · rename_i c u K' found ran
        obtain ⟨q, r⟩ := c
        have inside : q ≤ a ∧ a < q + r := by simpa using List.find?_some found
        obtain rfl := Option.some.inj taken
        exact ⟨trivial, .write (List.mem_of_find?_eq_some found) inside ran⟩
      · cases taken

/-- A byte of a cleared block is written, and another block comes and goes. -/
theorem cleared_block_read :
    ∃ s, Reaches ClientStep (ClientSound Resize.any) (.start bootHeap) s ∧
      s.heap.kernel.peek8 0xC008100C = .ok 0 ∧ s.heap.kernel.peek8 0xC008100D = .ok 7 := by
  have ran : ((([.kmalloc .kmalloc0 100, .kmalloc .kmalloc 50, .write 0xC008100D 7,
      .kmalloc .kmalloc0P 20, .kfree 0xC0081084] : List ClientOp).foldlM (ClientState.next 1)
      (.start bootHeap)).map fun s => (s.known 0xC008100C, s.known 0xC008100D)) =
      some (some 0, some 7) := by
    decide +kernel
  obtain ⟨s, taken, known⟩ := Option.map_eq_some_iff.mp ran
  obtain ⟨zero, seven⟩ := Prod.mk.inj known
  have reached : Reaches ClientStep (ClientSound Resize.any) (.start bootHeap) s :=
    Reaches.of_foldlM ClientState.next_step _ taken
  have store := kmalloc_store bootKState_regionMapped bootHeap_started reached
  exact ⟨s, reached, store _ _ zero, store _ _ seven⟩

/-- The first page table out of the heap. -/
theorem first_page_physical :
    ∃ p phys K', Allocator.kmalloc0Ap.run 1 0x1000 bootHeap.kernel = .ok ((p, phys), K') ∧
      p % 0x1000 = 0 ∧ K'.translate p = some phys := by
  have served : Served Resize.any bootHeap.kernel 0x1000 true := by decide +kernel
  have ran : (match Allocator.kmalloc0Ap.run 1 0x1000 bootHeap.kernel with
      | .ok _ => true
      | .error _ => false) = true := by
    decide +kernel
  split at ran
  · rename_i r ran'
    obtain ⟨⟨p, phys⟩, K'⟩ := r
    have sound : ClientSound Resize.any (.start bootHeap) (.kmalloc .kmalloc0Ap 0x1000) :=
      .served served
    obtain ⟨aligned, physical⟩ := kmalloc_physical bootKState_regionMapped bootHeap_started .refl
      sound ran'
    exact ⟨p, phys, K', ran', aligned rfl, physical rfl⟩
  · cases ran

end MiniKernel.Kernel
