/-
# Kernel.HeapEndless -- a call of alloc that does not come to an end

Where the heap ends at the last page of a page table, the next growth asks `kmalloc0_ap` for a
table.  When no hole fits this request either, it grows the heap from the same end, comes to the
same page and asks again (`alloc_endless`): the calls nest until the stack is full.

The heap of `init_heap` gets there with two requests, one for all of it and one for the pages
that are left of its page table (`request_without_end`).  The second maps 768 pages;
`expandLoop_fresh` says what this makes of the state.  With a hole left that can hold the page
table, the same growth ends (`request_over_hosted_table_ends`).
-/
import MiniKernel.Kernel.HeapEnds

namespace MiniKernel.Kernel

open Theory Program

set_option autoImplicit false

/-! ## Requests for a page table that need one -/

section Endless

variable {K : KState} {n size newSize : Nat} {align : Bool}

/-- A page without a table, whose request for one does not end. -/
theorem expandPage_endless {i : Nat} (ready : K.heapReady = true) (missing : ¬HasTable K i)
    (request : alloc n 0x1000 true K = .error .fuel) :
    expandPage (alloc n) i K = .error .fuel := by
  have allocated : kmalloc0ApWith (alloc n) 0x1000 K = .error .fuel := by
    have notBoot : ¬K.heapReady = false := by simp [ready]
    refine (get_bind_run _ K).trans ?_
    simp only [if_neg notBoot]
    exact bind_run_error request
  unfold HasTable at missing
  refine (get_bind_run _ K).trans (bind_run_error ?_)
  refine (get_bind_run _ K).trans ?_
  simp only [if_neg missing, if_true]
  exact bind_run_error allocated

/-- An `expand` that comes to such a page first. -/
theorem expand_endless (ready : K.heapReady = true) (missing : ¬HasTable K K.oldLength)
    (passes : K.ExpandPasses newSize) (longer : K.oldLength < pageAlign newSize)
    (request : alloc n 0x1000 true K = .error .fuel) :
    expand (alloc n) newSize K = .error .fuel := by
  refine (get_bind_run _ K).trans ?_
  refine (bind_run_ok (kassert_passes passes.1)).trans ?_
  refine (bind_run_ok (kassert_passes passes.2)).trans (bind_run_error ?_)
  show expandLoop (alloc n) (pageAlign newSize) (_ + 1) K.oldLength K = _
  rw [expandLoop, if_pos longer]
  exact bind_run_error (expandPage_endless ready missing request)

/-- No hole fits, and the heap ends where a page table is missing: the call does not end when its
request for the page table does not. -/
theorem alloc_of_request (ready : K.heapReady = true) (missing : ¬HasTable K K.oldLength)
    (searched : findSmallestHole (allocNewSize size) align K = .ok (none, K))
    (passes : K.ExpandPasses (add32 K.oldLength (allocNewSize size)))
    (rounds : add32 K.oldLength (allocNewSize size) < 0xFFFFF000)
    (request : alloc n 0x1000 true K = .error .fuel) :
    alloc (n + 1) size align K = .error .fuel := by
  have longer := longer_of_passes passes rounds
  have grown : grow (alloc n) (allocNewSize size) K = .error .fuel :=
    (get_bind_run _ K).trans
      (bind_run_error (expand_endless ready missing passes longer request))
  exact (bind_run_ok searched).trans (bind_run_error grown)

/-- The request for the page table is such a call itself when no hole fits it: then no room is
enough. -/
theorem alloc_endless (ready : K.heapReady = true) (missing : ¬HasTable K K.oldLength)
    (searched : findSmallestHole (allocNewSize 0x1000) true K = .ok (none, K))
    (passes : K.ExpandPasses (add32 K.oldLength (allocNewSize 0x1000)))
    (rounds : add32 K.oldLength (allocNewSize 0x1000) < 0xFFFFF000) (n : Nat) :
    alloc n 0x1000 true K = .error .fuel := by
  induction n with
  | zero => rfl
  | succ n ih => exact alloc_of_request ready missing searched passes rounds ih

end Endless

/-! ## A growth over fresh pages -/

/-- The frames below `next` are used, and no others. -/
structure UsedBelow (b : Bitset) (next : Nat) : Prop where
  nframes : b.nframes = 0x1000
  used : ∀ f, f < 0x1000 → b.used f = decide (f < next)

namespace UsedBelow

variable {b : Bitset} {next : Nat}

theorem firstFrame (h : UsedBelow b next) (room : next < 0x1000) : b.firstFrame = next := by
  have all : b.scanned = 0x1000 := by
    rw [Bitset.scanned, h.nframes]
    rfl
  rcases b.firstFrame_spec with ⟨less, free, below⟩ | ⟨-, full⟩
  · rw [all] at less
    rcases Nat.lt_trichotomy b.firstFrame next with small | same | large
    · rw [h.used _ less, decide_eq_true small] at free
      cases free
    · exact same
    · have used := below next large
      rw [h.used _ room] at used
      exact absurd (of_decide_eq_true used) (Nat.lt_irrefl _)
  · have used := full next (by rw [all]; exact room)
    rw [h.used _ room] at used
    exact absurd (of_decide_eq_true used) (Nat.lt_irrefl _)

theorem setFrame (h : UsedBelow b next) : UsedBelow (b.setFrame (next * 0x1000)) (next + 1) where
  nframes := h.nframes
  used f small := by
    rw [used_alloc, h.used f small, ← Bool.decide_or]
    exact decide_eq_decide.mpr (by omega)

end UsedBelow

namespace KState

/-- The page at offset `i` of the heap gets frame `frame`. -/
def withPage (K : KState) (i frame : Nat) : KState :=
  { K with
    bits := K.bits.setFrame (frame * 0x1000)
    dir := K.dir.setPage (pagePtr (K.heap.hAddrStart + i))
      { pPresent := true, pFrame := frame, pRw := K.heap.hRo, pUser := !K.heap.hSu } }

/-- `n` pages from offset `i` on get the frames from `frame` on. -/
def withPages : Nat → Nat → Nat → KState → KState
  | 0, _, _, K => K
  | n + 1, i, frame, K => withPages n (i + 0x1000) (frame + 1) (K.withPage i frame)

/-- The `n` pages from offset `i` on have a page table, and no frame. -/
def Fresh (K : KState) (i n : Nat) : Prop :=
  ∀ j, j < n → ∃ v, K.dir.page (pagePtr (K.heap.hAddrStart + (i + j * 0x1000))) = some v ∧
    v.pFrame = 0

end KState

section Fresh

variable {K : KState} {f : Nat → Bool → KernelM Nat} {i n frame : Nat}

theorem expandPage_fresh (fresh : K.Fresh i 1) (frames : UsedBelow K.bits frame)
    (room : frame < 0x1000) (top : K.heap.hAddrStart + i < 4294967296) :
    expandPage f i K = .ok ((), K.withPage i frame) := by
  obtain ⟨v, entry, none⟩ := fresh 0 Nat.one_pos
  rw [Nat.zero_mul, Nat.add_zero] at entry
  have table : (K.dir.pdTables ((K.heap.hAddrStart + i) / 0x1000 / 1024)).isSome = true := by
    obtain ⟨t, at_t, -⟩ := Option.map_eq_some_iff.mp entry
    exact Option.isSome_iff_exists.mpr ⟨t, at_t⟩
  have first := frames.firstFrame room
  have taken : allocFrame K.bits v K.heap.hSu K.heap.hRo = .ok (K.bits.setFrame (frame * 0x1000),
      { pPresent := true, pFrame := frame, pRw := K.heap.hRo, pUser := !K.heap.hSu }) := by
    rcases allocFrame_cases (b := K.bits) (p := v) (k := K.heap.hSu) (w := K.heap.hRo)
      (by rw [frames.nframes]; decide) with ⟨held, -⟩ | ⟨-, -, -, ran⟩ | ⟨-, full, -⟩
    · exact absurd none held
    · rw [ran, first]
    · rw [first] at full
      omega
  have mapped : allocFramePage (some (pagePtr (K.heap.hAddrStart + i))) K.heap.hSu K.heap.hRo K =
      .ok ((), K.withPage i frame) := by
    simp only [allocFramePage, entry, taken]
    rfl
  have got : kernelPage (kmalloc0ApWith f) (add32 K.heap.hAddrStart i) true K =
      .ok (some (pagePtr (K.heap.hAddrStart + i)), K) := by
    rw [add32_eq top]
    refine (get_bind_run _ K).trans ?_
    rw [if_pos table]
    rfl
  exact (get_bind_run _ K).trans ((bind_run_ok got).trans mapped)

/-- A page with its frame leaves the later ones as they are. -/
theorem KState.Fresh.withPage (fresh : K.Fresh i (n + 1)) :
    (K.withPage i frame).Fresh (i + 0x1000) n := by
  intro j less
  obtain ⟨v, entry, none⟩ := fresh (j + 1) (by omega)
  have later : i + 0x1000 + j * 0x1000 = i + (j + 1) * 0x1000 := by omega
  refine ⟨v, ?_, none⟩
  show (K.dir.setPage _ _).page (pagePtr (K.heap.hAddrStart + (i + 0x1000 + j * 0x1000))) = some v
  rw [later, VmPageDirectory.page_setPage, if_neg, entry]
  intro same
  have page := Backed.pagePtr_inj same
  omega

/-- The loop of `expand` gives each page the next frame. -/
theorem expandLoop_fresh (fresh : K.Fresh i n) (frames : UsedBelow K.bits frame)
    (room : frame + n ≤ 0x1000) (top : K.heap.hAddrStart + (i + n * 0x1000) ≤ 4294967296)
    (m : Nat) : expandLoop f (i + n * 0x1000) (n + m) i K = .ok ((), K.withPages n i frame) := by
  induction n generalizing K i frame with
  | zero =>
      cases m with
      | zero => rfl
      | succ m =>
          rw [Nat.zero_mul, Nat.add_zero, Nat.zero_add, expandLoop, if_neg (by omega)]
          rfl
  | succ n ih =>
      have first : K.Fresh i 1 := fun j less => fresh j (by omega)
      have rest := ih fresh.withPage frames.setFrame (by omega)
        (by show K.heap.hAddrStart + _ ≤ _; omega)
      have later : i + 0x1000 + n * 0x1000 = i + (n + 1) * 0x1000 := by omega
      rw [later] at rest
      rw [show n + 1 + m = n + m + 1 by omega, expandLoop, if_pos (by omega),
        bind_run_ok (expandPage_fresh first frames (by omega) (by omega)), rest]
      rfl

/-- The heap with `n` fresh pages. -/
def KState.grownBy (K : KState) (n frame : Nat) : KState :=
  let K₁ := K.withPages n K.oldLength frame
  { K₁ with heap := { K₁.heap with
      hAddrEnd := add32 K₁.heap.hAddrStart (K.oldLength + n * 0x1000) } }

theorem grow_fresh {newSize : Nat}
    (rounded : pageAlign (add32 K.oldLength newSize) = K.oldLength + n * 0x1000)
    (passes : K.ExpandPasses (add32 K.oldLength newSize)) (fresh : K.Fresh K.oldLength n)
    (frames : UsedBelow K.bits frame) (room : frame + n ≤ 0x1000)
    (top : K.heap.hAddrStart + (K.oldLength + n * 0x1000) ≤ 4294967296) :
    grow f newSize K = giveGrowth K.heap.hAddrEnd
      (sub32 (K.grownBy n frame).oldLength K.oldLength) (K.grownBy n frame) := by
  have pages : n + (K.oldLength / 0x1000 + 1) = (K.oldLength + n * 0x1000) / 0x1000 + 1 := by omega
  have looped := expandLoop_fresh (f := f) fresh frames room top (K.oldLength / 0x1000 + 1)
  have expanded : expand f (add32 K.oldLength newSize) K = .ok ((), K.grownBy n frame) := by
    refine (get_bind_run _ K).trans ?_
    refine (bind_run_ok (kassert_passes passes.1)).trans ?_
    refine (bind_run_ok (kassert_passes passes.2)).trans ?_
    rw [rounded]
    rw [pages] at looped
    refine (bind_run_ok looped).trans ?_
    rfl
  refine (get_bind_run _ K).trans ?_
  refine (bind_run_ok expanded).trans ?_
  rfl

/-- A request that no hole fits, over fresh pages. -/
theorem alloc_fresh {fuel size : Nat} {align : Bool}
    (searched : findSmallestHole (allocNewSize size) align K = .ok (none, K))
    (rounded : pageAlign (add32 K.oldLength (allocNewSize size)) = K.oldLength + n * 0x1000)
    (passes : K.ExpandPasses (add32 K.oldLength (allocNewSize size)))
    (fresh : K.Fresh K.oldLength n) (frames : UsedBelow K.bits frame) (room : frame + n ≤ 0x1000)
    (top : K.heap.hAddrStart + (K.oldLength + n * 0x1000) ≤ 4294967296) :
    alloc (fuel + 1) size align K =
      (giveGrowth K.heap.hAddrEnd (sub32 (K.grownBy n frame).oldLength K.oldLength) >>= fun _ =>
        alloc fuel size align) (K.grownBy n frame) := by
  refine (bind_run_ok searched).trans ?_
  show Except.bind (grow (alloc fuel) (allocNewSize size) K) _ = _
  rw [grow_fresh rounded passes fresh frames room top]
  rfl

end Fresh

theorem search_empty {K : KState} (empty : K.heap.hIndex.saSize = 0) (size : Nat) (align : Bool) :
    findSmallestHole size align K = .ok (none, K) := by
  refine (get_bind_run _ K).trans ?_
  rw [empty]
  rfl

/-! ## The heap at the end of its page table -/

/-- The state a call leaves, or the old one when it stops. -/
def leaves (x : KernelM Nat) (K : KState) : KState := ((x K).toOption.map Prod.snd).getD K

theorem ran_of_returns {x : KernelM Nat} {K : KState} (returns : (x K).toOption.isSome = true) :
    ∃ p, x K = .ok (p, leaves x K) := by
  obtain ⟨r, ran⟩ := Option.isSome_iff_exists.mp returns
  refine ⟨r.1, ?_⟩
  rw [leaves, ran]
  exact ok_of_toOption ran

/-- A call with no room for another one changes the memory and the index only. -/
theorem alloc_one_keeps (size : Nat) (align : Bool) :
    Keeps KState.besidesBlocks (alloc 1 size align) := by
  intro K
  rw [alloc]
  refine wp_bind_of (wp_ran (findSmallestHole_keeps _ _ K)) ?_
  rintro found K₁ ⟨-, rfl⟩
  cases found with
  | some i => exact place_keeps i _ _ _ K₁
  | none => exact wp_bind_of (wp_true _ _) fun _ _ _ => trivial

section Lengthened

variable (first second : Nat)

/-- The heap of `init_heap`, after a request that its hole serves. -/
def firstTaken : KState := leaves (alloc 1 first false) bootHeap.kernel

/-- It has got the 768 pages up to the end of the page table. -/
def lengthened : KState := (firstTaken first).grownBy 0x300 0x400

/-- What a request that needs these pages does then. -/
def takeLengthened : KernelM Nat :=
  giveGrowth (firstTaken first).heap.hAddrEnd
    (sub32 (lengthened first).oldLength (firstTaken first).oldLength) >>= fun _ =>
      alloc 1 second false

/-- The state it leaves. -/
def atTableEnd : KState := leaves (takeLengthened first second) (lengthened first)

theorem firstTaken_same :
    (firstTaken first).besidesBlocks = bootHeap.kernel.besidesBlocks := by
  unfold firstTaken leaves
  cases ran : alloc 1 first false bootHeap.kernel with
  | error e => rfl
  | ok r => exact (alloc_one_keeps first false).of_ok ran

theorem firstTaken_bounds :
    (firstTaken first).bounds = (0xC0081000, 0xC0100000, 0xCFFFF000) :=
  (congrArg KState.bounds (firstTaken_same first)).trans bootHeap_bounds

theorem firstTaken_usedBelow : UsedBelow (firstTaken first).bits 0x400 := by
  have same : (firstTaken first).bits = bootHeap.kernel.bits :=
    (congrArg KState.bits (firstTaken_same first) :)
  rw [same]
  refine ⟨by decide +kernel, fun f small => ?_⟩
  have words : ∀ w, w < 0x80 →
      bootHeap.kernel.bits.frames w = if w < 0x20 then 0xFFFFFFFF#32 else 0#32 := by decide +kernel
  rw [Bitset.used, WordSet.mem, words _ (by omega)]
  split
  · rw [(by decide : ∀ j < 32, (0xFFFFFFFF#32).getLsbD j = true) _ (Nat.mod_lt _ (by decide)),
      decide_eq_true (by omega)]
  · rw [BitVec.getLsbD_zero, decide_eq_false (by omega)]

theorem firstTaken_length : (firstTaken first).oldLength = 0x7F000 := by
  obtain ⟨start, stop⟩ := Prod.mk.inj (firstTaken_bounds first)
  rw [KState.oldLength, start, (Prod.mk.inj stop).1]
  decide

theorem firstTaken_fresh : (firstTaken first).Fresh (firstTaken first).oldLength 0x300 := by
  have same : (firstTaken first).dir = bootHeap.kernel.dir :=
    (congrArg KState.dir (firstTaken_same first) :)
  have entries : ∀ j, j < 0x300 → (bootHeap.kernel.dir.page (pagePtr (0xC0081000 +
      (0x7F000 + j * 0x1000)))).map (fun v => v.pFrame) = some 0 := by decide +kernel
  intro j less
  rw [firstTaken_length, (Prod.mk.inj (firstTaken_bounds first)).1, same]
  exact Option.map_eq_some_iff.mp (entries j less)

variable {first second}

/-- The second request, when no hole serves it and it needs all of these pages. -/
theorem atTableEnd_ran
    (searched : findSmallestHole (allocNewSize second) false (firstTaken first) =
      .ok (none, firstTaken first))
    (asked : 0x37E000 ≤ 0x7F000 + allocNewSize second ∧ 0x7F000 + allocNewSize second < 0x37F000)
    (returns : (takeLengthened first second (lengthened first)).toOption.isSome = true) :
    ∃ p, alloc 2 second false (firstTaken first) = .ok (p, atTableEnd first second) := by
  obtain ⟨start, stop⟩ := Prod.mk.inj (firstTaken_bounds first)
  obtain ⟨stop, max⟩ := Prod.mk.inj stop
  have length := firstTaken_length first
  have sum : add32 (firstTaken first).oldLength (allocNewSize second) =
      0x7F000 + allocNewSize second := by
    rw [length]
    exact add32_eq (by omega)
  have rounded : pageAlign (0x7F000 + allocNewSize second) = 0x37F000 := by
    have exact_ : roundedSize (0x7F000 + allocNewSize second) = 0x37F000 := by
      unfold roundedSize
      split <;> omega
    rw [pageAlign_roundedSize (by rw [exact_]; decide), exact_]
  have passes : (firstTaken first).ExpandPasses
      (add32 (firstTaken first).oldLength (allocNewSize second)) := by
    rw [sum]
    refine ⟨?_, ?_⟩
    · show (firstTaken first).oldLength < _
      rw [length]
      omega
    · rw [rounded, start, max]
      decide
  obtain ⟨p, ran⟩ := ran_of_returns returns
  refine ⟨p, ?_⟩
  rw [alloc_fresh searched (by rw [sum, rounded, length]) passes (firstTaken_fresh first)
    (firstTaken_usedBelow first) (by decide) (by rw [length, start]; decide)]
  exact ran

/-- The two requests, as a run. -/
theorem atTableEnd_reached
    (returned : (alloc 1 first false bootHeap.kernel).toOption.isSome = true)
    (ran : ∃ p, alloc 2 second false (firstTaken first) = .ok (p, atTableEnd first second)) :
    ∃ s, Reachable HeapStep bootHeap s ∧ s.kernel = atTableEnd first second := by
  obtain ⟨p, one⟩ := ran_of_returns returned
  have one : alloc 1 first false bootHeap.kernel = .ok (p, firstTaken first) := one
  obtain ⟨q, two⟩ := ran
  generalize atTableEnd first second = K at *
  generalize firstTaken first = L at one two
  refine ⟨⟨K, (q, second) :: (p, first) :: bootHeap.clients⟩, ?_, rfl⟩
  exact .trans (.single (i := .alloc first false) trivial (.alloc one))
    (.single (i := .alloc second false) trivial (.alloc two))

/-- A heap that ends at 0xC0400000, where page table 0x301 is missing. -/
theorem table_missing {K : KState} (bounds : K.bounds = (0xC0081000, 0xC0400000, 0xCFFFF000))
    (none : (K.dir.pdTables 0x301).isSome = false) :
    K.oldLength = 0x37F000 ∧ ¬HasTable K K.oldLength := by
  obtain ⟨start, stop⟩ := Prod.mk.inj bounds
  have length : K.oldLength = 0x37F000 := by
    rw [KState.oldLength, start, (Prod.mk.inj stop).1]
    decide
  refine ⟨length, ?_⟩
  have slot : add32 K.heap.hAddrStart K.oldLength / 0x1000 / 1024 = 0x301 := by
    rw [start, length]
    decide
  rw [HasTable, slot, none]
  decide

end Lengthened

section Computed

set_option maxRecDepth 100000

theorem hosted_facts :
    (alloc 1 0x7BFEC false bootHeap.kernel).toOption.isSome = true ∧
    ((findSmallestHole (allocNewSize 0x2FEFEC) false (firstTaken 0x7BFEC)).toOption.map
      fun r => r.1) = some none ∧
    (takeLengthened 0x7BFEC 0x2FEFEC (lengthened 0x7BFEC)).toOption.isSome = true := by
  decide +kernel

theorem hosted_heap : (atTableEnd 0x7BFEC 0x2FEFEC).bounds = (0xC0081000, 0xC0400000, 0xCFFFF000) ∧
    ((atTableEnd 0x7BFEC 0x2FEFEC).dir.pdTables 0x301).isSome = false ∧
    ((findSmallestHole (allocNewSize 0x4000) false (atTableEnd 0x7BFEC 0x2FEFEC)).toOption.map
      fun r => r.1) = some none ∧
    ((findSmallestHole (allocNewSize 0x1000) true (atTableEnd 0x7BFEC 0x2FEFEC)).toOption.map
      fun r => r.1) = some (some 0) ∧
    ((grow (alloc 1) (allocNewSize 0x4000) (atTableEnd 0x7BFEC 0x2FEFEC)).toOption.map fun r =>
      (findSmallestHole (allocNewSize 0x4000) false r.2).toOption.map fun r => r.1) =
      some (some (some 1)) := by
  decide +kernel

theorem full_facts :
    (alloc 1 0x7EFEC false bootHeap.kernel).toOption.isSome = true ∧
    (firstTaken 0x7EFEC).heap.hIndex.saSize = 0 ∧
    (takeLengthened 0x7EFEC 0x2FFFEB (lengthened 0x7EFEC)).toOption.isSome = true := by
  decide +kernel

theorem full_heap : (atTableEnd 0x7EFEC 0x2FFFEB).bounds = (0xC0081000, 0xC0400000, 0xCFFFF000) ∧
    (atTableEnd 0x7EFEC 0x2FFFEB).heapReady = true ∧
    (atTableEnd 0x7EFEC 0x2FFFEB).heap.hIndex.saSize = 0 ∧
    ((atTableEnd 0x7EFEC 0x2FFFEB).dir.pdTables 0x301).isSome = false := by
  decide +kernel

end Computed

/-- A search that was computed. -/
theorem search_of_toOption {K : KState} {size : Nat} {align : Bool} {found : Option Nat}
    (ran : ((findSmallestHole size align K).toOption.map fun r => r.1) = some found) :
    findSmallestHole size align K = .ok (found, K) := by
  obtain ⟨⟨_, K'⟩, returned, rfl⟩ := Option.map_eq_some_iff.mp ran
  have searched := ok_of_toOption returned
  obtain rfl := (findSmallestHole_keeps _ _).of_ok searched
  exact searched

/-- With a hole of four pages left at the end of the page table: a request for more grows the heap,
the page table it needs comes out of the hole, and the call ends. -/
theorem request_over_hosted_table_ends :
    ∃ s, Reachable HeapStep bootHeap s ∧
      findSmallestHole (allocNewSize 0x4000) false s.kernel = .ok (none, s.kernel) ∧
      ¬HasTable s.kernel s.kernel.oldLength ∧
      ∃ fuel, alloc fuel 0x4000 false s.kernel ≠ .error .fuel := by
  obtain ⟨first, missing, returns⟩ := hosted_facts
  obtain ⟨bounds, none, searched, hole, grown⟩ := hosted_heap
  have ran := atTableEnd_ran (search_of_toOption missing) (by decide) returns
  obtain ⟨s, reached, kernel⟩ := atTableEnd_reached first ran
  rw [← kernel] at bounds none searched hole grown
  obtain ⟨length, noTable⟩ := table_missing bounds none
  obtain ⟨start, -⟩ := Prod.mk.inj bounds
  obtain ⟨⟨_, K₁⟩, grown, found⟩ := Option.map_eq_some_iff.mp grown
  have hosted : TableHosted s.kernel := growsAll_of_hole (search_of_toOption hole)
  have hosts : Hosts 0x4000 false s.kernel := by
    refine growsAll_of_growth (fun n K' step => ⟨1, ?_⟩) ?_
    · obtain ⟨-, ran⟩ := step
      have unrolls : Unrolls Stop.fuel fun m => grow (alloc m) (allocNewSize 0x4000) :=
        fun m => grow_below (fun _ _ => alloc_unrolls _ _ m) _
      obtain ⟨-, rfl⟩ := Prod.mk.inj (unrolls.unique ran (ok_of_toOption grown))
      exact search_of_toOption found
    · refine grows_of_slot (t := 0x301) (.inr hosted) fun i le less => ?_
      rw [length] at le less
      have rounded : pageAlign (add32 0x37F000 (allocNewSize 0x4000)) = 0x384000 := by decide
      rw [rounded] at less
      rw [start, add32_eq (by omega)]
      omega
  exact ⟨s, reached, search_of_toOption searched, noTable,
    alloc_ends_in_runs bootKState_regionMapped bootHeap_started reached hosts⟩

/-- Two requests lead to a heap in which a third, for one byte, does not end. -/
theorem request_without_end :
    ∃ s, Reachable HeapStep bootHeap s ∧ ∀ fuel, alloc fuel 1 false s.kernel = .error .fuel := by
  obtain ⟨first, empty, returns⟩ := full_facts
  have ran := atTableEnd_ran (search_empty empty _ _) (by decide) returns
  obtain ⟨s, reached, kernel⟩ := atTableEnd_reached first ran
  obtain ⟨bounds, ready, empty, none⟩ := full_heap
  rw [← kernel] at bounds ready empty none
  obtain ⟨length, missing⟩ := table_missing bounds none
  obtain ⟨start, stop⟩ := Prod.mk.inj bounds
  obtain ⟨stop, max⟩ := Prod.mk.inj stop
  have endless := alloc_endless ready missing (search_empty empty _ _)
    (by rw [KState.ExpandPasses, length, start, stop, max]; decide) (by rw [length]; decide)
  refine ⟨s, reached, fun fuel => ?_⟩
  cases fuel with
  | zero => rfl
  | succ n =>
      exact alloc_of_request ready missing (search_empty empty _ _)
        (by rw [KState.ExpandPasses, length, start, stop, max]; decide) (by rw [length]; decide)
        (endless n)

end MiniKernel.Kernel
