/-
# Kernel.HeapEnds -- calls of alloc that come to an end

`alloc` calls itself in two places.  It retries after `expand` has made the heap longer, which
goes on until a hole fits or an assertion of `expand` fails.  And `expand` asks for a page table
with `kmalloc0_ap`, which is a call of `alloc` on the same heap: when that call has to grow the
heap too, it comes to the same page, which still has no table.

`Hosts` says of a call that each page table it asks for is found without another page table, and
that no growth but one is rounded up past 2^32, which takes the length of the heap back to 0.  Such
a call ends (`alloc_ends`), in any state of the heap that a run can reach.  Kernel.HeapEndless has
the other case.
-/
import MiniKernel.Theory.Unrolling
import MiniKernel.Kernel.HeapLimits
import MiniKernel.Kernel.HeapRelease

namespace MiniKernel.Kernel

open Theory Program

set_option autoImplicit false

/-! ## Statements that nest no call -/

section Leaves

variable {K : KState}

theorem peek32_ne_fuel (K : KState) (a : Nat) : K.peek32 a ≠ .error .fuel := by
  have byte : ∀ b, K.peek8 b ≠ .error .fuel := by
    intro b
    unfold KState.peek8
    split <;> rintro ⟨⟩
  exact bind_ne_error (byte _) fun _ => bind_ne_error (byte _) fun _ =>
    bind_ne_error (byte _) fun _ => bind_ne_error (byte _) fun _ => by rintro ⟨⟩

theorem read32_avoids (a : Nat) : Avoids Stop.fuel (read32 a) := by
  intro K
  unfold read32
  cases read : K.peek32 a with
  | ok v => rintro ⟨⟩
  | error e =>
      rintro ⟨⟩
      exact peek32_ne_fuel K a read

theorem write8_avoids (a : Nat) (v : UInt8) : Avoids Stop.fuel (write8 a v) := by
  intro K
  unfold write8
  split <;> rintro ⟨⟩

theorem write32_avoids (a v : Nat) : Avoids Stop.fuel (write32 a v) :=
  (write8_avoids _ _).bind fun _ => (write8_avoids _ _).bind fun _ =>
    (write8_avoids _ _).bind fun _ => write8_avoids _ _

theorem setHeader_avoids (header isHole size : Nat) :
    Avoids Stop.fuel (setHeader header isHole size) :=
  (write32_avoids _ _).bind fun _ => (write32_avoids _ _).bind fun _ => write32_avoids _ _

theorem setFooter_avoids (footer header : Nat) : Avoids Stop.fuel (setFooter footer header) :=
  (write32_avoids _ _).bind fun _ => write32_avoids _ _

theorem bzero_avoids (a n : Nat) : Avoids Stop.fuel (bzero a n) := by
  induction n generalizing a with
  | zero => exact .pure _
  | succ n ih => exact (write8_avoids _ _).bind fun _ => ih _

theorem kassert_avoids (a : KAssert) (c : Prop) [Decidable c] : Avoids Stop.fuel (kassert a c) :=
  .ite (.pure _) (.stop (by rintro ⟨⟩))

theorem allocFramePage_avoids (p : Option PagePtr) (su ro : Bool) :
    Avoids Stop.fuel (allocFramePage p su ro) := by
  intro K
  unfold allocFramePage
  cases p with
  | none => rintro ⟨⟩
  | some p =>
      dsimp only
      cases K.dir.page p with
      | none => rintro ⟨⟩
      | some v =>
          dsimp only
          unfold allocFrame
          split
          · rintro ⟨⟩
          · dsimp only
            split <;> rintro ⟨⟩

theorem lookupPage_avoids (a : Nat) : Avoids Stop.fuel (lookupPage a) := by
  refine .bind .get fun K => .ite (.pure _) ?_
  exact .pure _

theorem lookupIndex_avoids (i : Nat) : Avoids Stop.fuel (lookupIndex i) := by
  intro K
  unfold lookupIndex SortedArray.lookupSortedArray kassertE
  split <;> rintro ⟨⟩

theorem removeIndex_avoids (i : Nat) : Avoids Stop.fuel (removeIndex i) := by
  intro K
  unfold removeIndex SortedArray.removeSortedArray kassertE
  split <;> rintro ⟨⟩

theorem callCmp_ne_fuel (f : CmpFunc) (a b : Nat) : callCmp K f a b ≠ .error .fuel := by
  cases f with
  | default => rintro ⟨⟩
  | vmHeapHeader =>
      exact bind_ne_error (peek32_ne_fuel K _) fun _ =>
        bind_ne_error (peek32_ne_fuel K _) fun _ => by rintro ⟨⟩

theorem insertPosition_ne_fuel (f : CmpFunc) (cells : Nat → Nat) (el n i : Nat) :
    SortedArray.insertPosition (callCmp K f) cells el n i ≠ .error .fuel := by
  induction n generalizing i with
  | zero => rintro ⟨⟩
  | succ n ih =>
      refine bind_ne_error (callCmp_ne_fuel f _ _) fun c => ?_
      split
      · exact ih _
      · rintro ⟨⟩

theorem insertIndex_avoids (x : Nat) : Avoids Stop.fuel (insertIndex x) := by
  have inserted : ∀ K : KState, K.heap.hIndex.insertSortedArray (callCmp K) x ≠ .error .fuel := by
    intro K
    unfold SortedArray.insertSortedArray
    split
    · rintro ⟨⟩
    · refine bind_ne_error (by unfold kassertE; split <;> rintro ⟨⟩) fun _ =>
        bind_ne_error (insertPosition_ne_fuel _ _ _ _ _) fun i => ?_
      split <;> rintro ⟨⟩
  intro K
  unfold insertIndex
  cases placed : K.heap.hIndex.insertSortedArray (callCmp K) x with
  | ok index => rintro ⟨⟩
  | error e =>
      rintro ⟨⟩
      exact inserted K placed

theorem findSmallestHole_avoids (size : Nat) (pageAlign : Bool) :
    Avoids Stop.fuel (findSmallestHole size pageAlign) := by
  have loop : ∀ n i, Avoids Stop.fuel (findFrom size pageAlign n i) := by
    intro n
    induction n with
    | zero => exact fun _ => .pure _
    | succ n ih =>
        exact fun i => (lookupIndex_avoids i).bind fun _ => (read32_avoids _).bind fun _ =>
          .ite (.pure _) (ih _)
  exact .bind .get fun K => loop _ _

theorem endmostHeader_avoids : Avoids Stop.fuel endmostHeader := by
  have loop : ∀ n i idx value, Avoids Stop.fuel (endmostFrom n i idx value) := by
    intro n
    induction n with
    | zero => exact fun _ _ _ => .pure _
    | succ n ih =>
        exact fun i _ _ => (lookupIndex_avoids i).bind fun _ => .ite (ih _ _ _) (ih _ _ _)
  exact .bind .get fun K => loop _ _ _ _

theorem giveGrowth_avoids (oldEnd growth : Nat) : Avoids Stop.fuel (giveGrowth oldEnd growth) := by
  refine endmostHeader_avoids.bind fun idx => ?_
  cases idx with
  | none =>
      exact (setHeader_avoids _ _ _).bind fun _ => (read32_avoids _).bind fun _ =>
        (setFooter_avoids _ _).bind fun _ => insertIndex_avoids _
  | some idx =>
      exact (lookupIndex_avoids idx).bind fun _ => (read32_avoids _).bind fun _ =>
        (write32_avoids _ _).bind fun _ => (read32_avoids _).bind fun _ => setFooter_avoids _ _

theorem carve_avoids (pos size newSize holeSize : Nat) :
    Avoids Stop.fuel (carve pos size newSize holeSize) := by
  refine (setHeader_avoids _ _ _).bind fun _ => (setFooter_avoids _ _).bind fun _ =>
    .ite ?_ (.pure _)
  refine (setHeader_avoids _ _ _).bind fun _ => .bind .get fun K => .ite ?_ ?_
  · exact (setFooter_avoids _ _).bind fun _ => (insertIndex_avoids _).bind fun _ => .pure _
  · exact (insertIndex_avoids _).bind fun _ => .pure _

theorem place_avoids (i size newSize : Nat) (pageAlign : Bool) :
    Avoids Stop.fuel (place i size newSize pageAlign) := by
  refine (lookupIndex_avoids i).bind fun _ => (read32_avoids _).bind fun _ => ?_
  refine .ite ?_ ((removeIndex_avoids i).bind fun _ => carve_avoids _ _ _ _)
  exact (setHeader_avoids _ _ _).bind fun _ => (setFooter_avoids _ _).bind fun _ =>
    (read32_avoids _).bind fun _ => carve_avoids _ _ _ _

end Leaves

/-! ## More room for nested calls -/

section Room

variable {f g : Nat → Bool → KernelM Nat}

theorem kmalloc0ApWith_below (h : ∀ len aligned, Below Stop.fuel (f len aligned) (g len aligned))
    (len : Nat) : Below Stop.fuel (kmalloc0ApWith f len) (kmalloc0ApWith g len) :=
  .bind (.refl _) fun _ => .ite (.refl _) ((h _ _).bind fun _ => .refl _)

theorem expandPage_below (h : ∀ len aligned, Below Stop.fuel (f len aligned) (g len aligned))
    (i : Nat) : Below Stop.fuel (expandPage f i) (expandPage g i) := by
  refine .bind (.refl _) fun K => .bind ?_ fun page => .refl _
  refine .bind (.refl _) fun K => .ite (.refl _) (.ite ?_ (.refl _))
  exact (kmalloc0ApWith_below h _).bind fun _ => .refl _

theorem expandLoop_below (h : ∀ len aligned, Below Stop.fuel (f len aligned) (g len aligned))
    (newSize n i : Nat) :
    Below Stop.fuel (expandLoop f newSize n i) (expandLoop g newSize n i) := by
  induction n generalizing i with
  | zero => exact .refl _
  | succ n ih => exact .ite ((expandPage_below h i).bind fun _ => ih _) (.refl _)

theorem grow_below (h : ∀ len aligned, Below Stop.fuel (f len aligned) (g len aligned))
    (newSize : Nat) : Below Stop.fuel (grow f newSize) (grow g newSize) := by
  refine .bind (.refl _) fun K => .bind ?_ fun _ => .refl _
  exact .bind (.refl _) fun K => .bind (.refl _) fun _ => .bind (.refl _) fun _ =>
    (expandLoop_below h _ _ _).bind fun _ => .refl _

/-- More room changes only the calls of `alloc` that ran out of it. -/
theorem alloc_unrolls (size : Nat) (pageAlign : Bool) :
    Unrolls Stop.fuel fun n => alloc n size pageAlign := by
  intro n
  induction n generalizing size pageAlign with
  | zero => exact .of_stop _
  | succ n ih =>
      refine .bind (.refl _) fun found => ?_
      cases found with
      | some i => exact .refl _
      | none => exact (grow_below ih _).bind fun _ => ih size pageAlign

end Room

/-! ## The condition -/

/-- The loop of `expand` goes on from the page at offset `i`. -/
inductive PageStep (newSize : Nat) : KState × Nat → Nat → KState × Nat → Prop where
  | page {K K' : KState} {i fuel : Nat} (more : i < newSize)
      (ran : expandPage (alloc fuel) i K = .ok ((), K')) :
      PageStep newSize (K, i) fuel (K', i + 0x1000)

/-- The page at offset `i` of the heap has a page table. -/
def HasTable (K : KState) (i : Nat) : Prop :=
  (K.dir.pdTables (add32 K.heap.hAddrStart i / 0x1000 / 1024)).isSome = true

/-- A growth to `newLength` bytes: where `expand` comes to a page without a page table, `Request`
holds. -/
def Grows (Request : KState → Prop) (newLength : Nat) (K : KState) : Prop :=
  ∀ L i, Reachable (PageStep (pageAlign newLength)) (K, K.oldLength) (L, i) →
    i < pageAlign newLength → HasTable L i ∨ Request L

/-- The attempts of a call of `alloc` in `K`, the first one and the retries, that find no hole and
pass the assertions of `expand` for `newLength` bytes. -/
def Attempts (size : Nat) (pageAlign : Bool) (K L : KState) (newLength : Nat) : Prop :=
  Reachable (AttemptStep size pageAlign) K L ∧
    findSmallestHole (allocNewSize size) pageAlign L = .ok (none, L) ∧
    newLength = add32 L.oldLength (allocNewSize size) ∧ L.ExpandPasses newLength

/-- No length that the call asks for is rounded up past 2^32. -/
def RoundsNone (size : Nat) (pageAlign : Bool) (K : KState) : Prop :=
  ∀ L newLength, Attempts size pageAlign K L newLength → newLength < 0xFFFFF000

/-- After a length that was rounded up past 2^32, to 0, there is no other one. -/
def RoundsOnce (size : Nat) (pageAlign : Bool) (K : KState) : Prop :=
  ∀ L newLength fuel L', Attempts size pageAlign K L newLength → 0xFFFFF000 ≤ newLength →
    AttemptStep size pageAlign L fuel L' → RoundsNone size pageAlign L'

/-- Each growth of a call of `alloc`, in its first attempt and in its retries. -/
structure Grows.All (Request : KState → Prop) (size : Nat) (pageAlign : Bool) (K : KState) :
    Prop where
  rounds : RoundsOnce size pageAlign K
  grows : ∀ L newLength, Attempts size pageAlign K L newLength → Grows Request newLength L

/-- The request for a page table, made in `K`, needs no page table itself. -/
def TableHosted (K : KState) : Prop := Grows.All (fun _ => False) 0x1000 true K

/-- Each page table that the call asks for is found without another page table. -/
def Hosts (size : Nat) (pageAlign : Bool) (K : KState) : Prop :=
  Grows.All TableHosted size pageAlign K

/-! ## Calls that end -/

theorem start_of_pages {newSize : Nat} {s t : KState × Nat}
    (reached : Reachable (PageStep newSize) s t) : t.1.heap.hAddrStart = s.1.heap.hAddrStart := by
  refine reached.invariant (I := fun t => t.1.heap.hAddrStart = s.1.heap.hAddrStart) rfl ?_
  rintro _ n _ same - ⟨more, ran⟩
  exact ((expandPage_keeps (alloc_keeps n) _).of_ok ran).trans same

section Calls

variable {K K' : KState} {size : Nat} {align : Bool}

theorem kmalloc0Ap_ends {len : Nat} (ends : Ends Stop.fuel (fun n => alloc n len true) K) :
    Ends Stop.fuel (fun n => kmalloc0ApWith (alloc n) len) K := by
  have cleared : ∀ r : Nat × Nat, Avoids Stop.fuel
      (do bzero r.1 len; pure r : KernelM (Nat × Nat)) := fun r =>
    (bzero_avoids _ _).bind fun _ => .pure _
  refine Ends.after .get fun K₁ K₂ ran => ?_
  cases ran
  by_cases boot : K.heapReady = false
  · simp only [if_pos boot]
    refine Ends.of_avoids ?_ K
    exact .bind (.of_modify _) fun _ => .bind (.pure _) cleared
  · simp only [if_neg boot]
    refine ends.bind_avoids fun addr => ?_
    refine (lookupPage_avoids addr).bind fun page => .bind .get fun K => ?_
    split
    · exact .bind (.stop (by rintro ⟨⟩)) cleared
    · exact .bind (.pure _) cleared

/-- A page of `expand`, with its table there or found. -/
theorem expandPage_ends {i : Nat}
    (page : HasTable K i ∨ Ends Stop.fuel (fun n => alloc n 0x1000 true) K) :
    Ends Stop.fuel (fun n => expandPage (alloc n) i) K := by
  refine Ends.after .get fun K₁ K₂ ran => ?_
  cases ran
  refine Ends.bind_avoids ?_ fun page => allocFramePage_avoids page _ _
  refine Ends.after .get fun K₁ K₂ ran => ?_
  cases ran
  by_cases there : HasTable K i
  · unfold HasTable at there
    simp only [if_pos there]
    exact Ends.of_avoids (.pure _) K
  · have ends := kmalloc0Ap_ends (page.resolve_left there)
    unfold HasTable at there
    simp only [if_neg there, if_true]
    exact ends.bind_avoids fun _ => .bind (.of_modify _) fun _ => .pure _

/-- The loop of `expand`. -/
theorem expandLoop_ends {newSize : Nat} (n i : Nat)
    (pages : ∀ L j, Reachable (PageStep newSize) (K, i) (L, j) → j < newSize →
      HasTable L j ∨ Ends Stop.fuel (fun m => alloc m 0x1000 true) L) :
    Ends Stop.fuel (fun m => expandLoop (alloc m) newSize n i) K := by
  induction n generalizing K i with
  | zero => exact Ends.of_avoids (.pure _) K
  | succ n ih =>
      by_cases more : i < newSize
      · simp only [expandLoop, if_pos more]
        refine Ends.bind (expandPage_ends (pages K i .refl more))
          (fun m => expandPage_below (fun _ _ => alloc_unrolls _ _ m) i)
          (fun _ m => expandLoop_below (fun _ _ => alloc_unrolls _ _ m) _ _ _) ?_
        rintro ⟨⟩ K₁ m ran
        refine ih (i + 0x1000) fun L j reached less => pages L j ?_ less
        exact .trans (.single (i := m) trivial (.page more ran)) reached
      · simp only [expandLoop, if_neg more]
        exact Ends.of_avoids (.pure _) K

theorem kassert_passes {a : KAssert} {c : Prop} [Decidable c] (holds : c) :
    kassert a c K = .ok ((), K) := by
  rw [kassert, if_pos holds]
  rfl

theorem kassert_returned {a : KAssert} {c : Prop} [Decidable c] {u : Unit}
    (ran : kassert a c K = .ok (u, K')) : c ∧ K' = K := by
  unfold kassert at ran
  split at ran
  · rename_i holds
    cases ran
    exact ⟨holds, rfl⟩
  · cases ran

/-- `expand` returns when it has passed its assertions, and the heap is as long as they say. -/
theorem expand_returned {n newSize : Nat} (start : K.heap.hAddrStart < 4294967296)
    (word : newSize < 4294967296) (ran : expand (alloc n) newSize K = .ok ((), K')) :
    K.ExpandPasses newSize ∧ K'.oldLength = pageAlign newSize := by
  obtain ⟨_, _, read, ran⟩ := of_bind_run ran
  cases read
  obtain ⟨_, _, asserted, ran⟩ := of_bind_run ran
  obtain ⟨greater, rfl⟩ := kassert_returned asserted
  obtain ⟨_, _, asserted, ran⟩ := of_bind_run ran
  obtain ⟨limit, rfl⟩ := kassert_returned asserted
  obtain ⟨_, L, looped, ran⟩ := of_bind_run ran
  cases ran
  have same := (expandLoop_keeps (alloc_keeps n) _ _ _).of_ok looped
  have rounded : pageAlign newSize < 4294967296 := by
    unfold pageAlign add32
    split <;> omega
  refine ⟨⟨greater, limit⟩, ?_⟩
  show sub32 (add32 L.heap.hAddrStart (pageAlign newSize)) L.heap.hAddrStart = pageAlign newSize
  generalize pageAlign newSize = length at *
  unfold sub32 add32
  omega

/-- So does a growth. -/
theorem grow_returned {n newSize : Nat} (start : K.heap.hAddrStart < 4294967296)
    (ran : grow (alloc n) newSize K = .ok ((), K')) :
    K.ExpandPasses (add32 K.oldLength newSize) ∧
      K'.oldLength = pageAlign (add32 K.oldLength newSize) := by
  obtain ⟨_, _, read, ran⟩ := of_bind_run ran
  cases read
  obtain ⟨_, L, expanded, ran⟩ := of_bind_run ran
  obtain ⟨passes, length⟩ := expand_returned start (Nat.mod_lt _ (by decide)) expanded
  obtain ⟨_, _, read, ran⟩ := of_bind_run ran
  cases read
  have kept := ((giveGrowth_keeps K.heap.hAddrEnd (sub32 L.oldLength K.oldLength)).map
    KState.oldLength).of_ok ran
  exact ⟨passes, kept.trans length⟩

/-- A growth whose page requests end. -/
theorem grow_ends {Request : KState → Prop} {newSize : Nat}
    (requests : ∀ L, L.heap.hAddrStart < 4294967296 → Request L →
      Ends Stop.fuel (fun n => alloc n 0x1000 true) L)
    (start : K.heap.hAddrStart < 4294967296)
    (grows : K.ExpandPasses (add32 K.oldLength newSize) →
      Grows Request (add32 K.oldLength newSize) K) :
    Ends Stop.fuel (fun n => grow (alloc n) newSize) K := by
  refine Ends.after .get fun K₁ K₂ ran => ?_
  cases ran
  refine Ends.bind_avoids ?_ fun _ => .bind .get fun _ => giveGrowth_avoids _ _
  refine Ends.after .get fun K₁ K₂ ran => ?_
  cases ran
  refine Ends.after (kassert_avoids _ _) fun _ K₁ asserted => ?_
  obtain ⟨greater, rfl⟩ := kassert_returned asserted
  refine Ends.after (kassert_avoids _ _) fun _ K₂ asserted => ?_
  obtain ⟨limit, rfl⟩ := kassert_returned asserted
  refine Ends.bind_avoids ?_ fun _ => .of_modify _
  refine expandLoop_ends _ _ fun L j reached less => ?_
  refine (grows ⟨greater, limit⟩ L j reached less).imp_right fun request => ?_
  exact requests L (by rw [start_of_pages reached]; exact start) request

/-- `expand` asserts that the heap becomes longer, and rounds up after that. -/
theorem longer_of_passes {newSize : Nat} (passes : K.ExpandPasses newSize)
    (rounds : newSize < 0xFFFFF000) : K.oldLength < pageAlign newSize := by
  have rounded : roundedSize newSize < 4294967296 := by
    unfold roundedSize
    split <;> omega
  rw [pageAlign_roundedSize rounded]
  exact Nat.lt_of_lt_of_le passes.1 (le_roundedSize _)

/-- An attempt that grew the heap leaves a longer one to the next. -/
theorem attempt_longer {n : Nat} (start : K.heap.hAddrStart < 4294967296)
    (ran : grow (alloc n) (allocNewSize size) K = .ok ((), K'))
    (rounds : add32 K.oldLength (allocNewSize size) < 0xFFFFF000) : K.oldLength < K'.oldLength := by
  obtain ⟨passes, length⟩ := grow_returned start ran
  rw [length]
  exact longer_of_passes passes rounds

/-- An attempt of a retry is one of the call. -/
theorem Attempts.retry {L : KState} {n newLength : Nat} (step : AttemptStep size align K n K')
    (attempt : Attempts size align K' L newLength) : Attempts size align K L newLength :=
  ⟨.trans (.single (i := n) trivial step) attempt.1, attempt.2⟩

theorem Grows.All.retry {Request : KState → Prop} {n : Nat} (all : Grows.All Request size align K)
    (step : AttemptStep size align K n K') : Grows.All Request size align K' where
  rounds L newLength fuel L' attempt := all.rounds L newLength fuel L' (attempt.retry step)
  grows L newLength attempt := all.grows L newLength (attempt.retry step)

/-- A growth ends, and so does the call when its retry does. -/
theorem alloc_ends_of_retry {Request : KState → Prop}
    (requests : ∀ L, L.heap.hAddrStart < 4294967296 → Request L →
      Ends Stop.fuel (fun n => alloc n 0x1000 true) L)
    (start : K.heap.hAddrStart < 4294967296) (all : Grows.All Request size align K)
    (retry : ∀ n K', AttemptStep size align K n K' →
      Attempts size align K K (add32 K.oldLength (allocNewSize size)) →
      (add32 K.oldLength (allocNewSize size) < 0xFFFFF000 → K.oldLength < K'.oldLength) →
      K'.heap.hAddrStart < 4294967296 → Ends Stop.fuel (fun n => alloc n size align) K') :
    Ends Stop.fuel (fun n => alloc n size align) K := by
  refine Ends.of_succ (Ends.after (findSmallestHole_avoids _ _) fun found L searched => ?_)
  obtain rfl := (findSmallestHole_keeps _ _).of_ok searched
  cases found with
  | some i => exact Ends.of_avoids (place_avoids _ _ _ _) _
  | none =>
      refine Ends.bind (grow_ends requests start fun passes =>
          all.grows L _ ⟨.refl, searched, rfl, passes⟩)
        (fun m => grow_below (fun _ _ => alloc_unrolls _ _ m) _)
        (fun _ => alloc_unrolls size align) ?_
      rintro ⟨⟩ K₁ n grown
      have same := (start_of_grow (alloc_keeps n) _).of_ok grown
      exact retry n K₁ (.grow searched grown)
        ⟨.refl, searched, rfl, (grow_returned start grown).1⟩ (attempt_longer start grown)
        (by rw [same]; exact start)

/-- Retries make the heap longer and longer, so there are finitely many. -/
theorem alloc_ends_of_none {Request : KState → Prop}
    (requests : ∀ L, L.heap.hAddrStart < 4294967296 → Request L →
      Ends Stop.fuel (fun n => alloc n 0x1000 true) L)
    (start : K.heap.hAddrStart < 4294967296) (all : Grows.All Request size align K)
    (none : RoundsNone size align K) : Ends Stop.fuel (fun n => alloc n size align) K := by
  -- the room that is left above the heap becomes smaller
  induction left : 4294967296 - K.oldLength using Nat.strongRecOn generalizing K with
  | ind left ih =>
      subst left
      refine alloc_ends_of_retry requests start all fun n K₁ step attempt longer start₁ => ?_
      have longer := longer (none K _ attempt)
      have bound : K₁.oldLength < 4294967296 := Nat.mod_lt _ (by decide)
      exact ih _ (by omega) start₁ (all.retry step)
        (fun L newLength attempt => none L newLength (attempt.retry step)) rfl

/-- The same where one length is rounded up past 2^32: the retries behind it are finitely many. -/
theorem alloc_ends_of_requests {Request : KState → Prop}
    (requests : ∀ L, L.heap.hAddrStart < 4294967296 → Request L →
      Ends Stop.fuel (fun n => alloc n 0x1000 true) L)
    (start : K.heap.hAddrStart < 4294967296) (all : Grows.All Request size align K) :
    Ends Stop.fuel (fun n => alloc n size align) K := by
  induction left : 4294967296 - K.oldLength using Nat.strongRecOn generalizing K with
  | ind left ih =>
      subst left
      refine alloc_ends_of_retry requests start all fun n K₁ step attempt longer start₁ => ?_
      by_cases rounds : add32 K.oldLength (allocNewSize size) < 0xFFFFF000
      · have longer := longer rounds
        have bound : K₁.oldLength < 4294967296 := Nat.mod_lt _ (by decide)
        exact ih _ (by omega) start₁ (all.retry step) rfl
      · exact alloc_ends_of_none requests start₁ (all.retry step)
          (all.rounds K _ n K₁ attempt (by omega) step)

/-- A request for a page table that needs no page table itself. -/
theorem tableHosted_ends (start : K.heap.hAddrStart < 4294967296) (hosted : TableHosted K) :
    Ends Stop.fuel (fun n => alloc n 0x1000 true) K :=
  alloc_ends_of_requests (fun _ _ none => none.elim) start hosted

/-- A call whose page tables are all found so. -/
theorem alloc_ends (start : K.heap.hAddrStart < 4294967296) (hosts : Hosts size align K) :
    Ends Stop.fuel (fun n => alloc n size align) K :=
  alloc_ends_of_requests (fun _ start hosted => tableHosted_ends start hosted) start hosts

/-- A call that a hole serves makes one attempt, which does not grow the heap. -/
theorem not_attempts_of_hole {i newLength : Nat} {L : KState}
    (searched : findSmallestHole (allocNewSize size) align K = .ok (some i, K)) :
    ¬Attempts size align K L newLength := by
  rintro ⟨reached, missing, -⟩
  have here : L = K := by
    refine reached.invariant (I := fun L => L = K) rfl ?_
    rintro _ n _ rfl - ⟨none, -⟩
    rw [searched] at none
    cases none
  rw [here, searched] at missing
  cases missing

theorem growsAll_of_hole {Request : KState → Prop} {i : Nat}
    (searched : findSmallestHole (allocNewSize size) align K = .ok (some i, K)) :
    Grows.All Request size align K where
  rounds _ _ _ _ attempt := absurd attempt (not_attempts_of_hole searched)
  grows _ _ attempt := absurd attempt (not_attempts_of_hole searched)

/-- A call that a hole serves after one growth. -/
theorem growsAll_of_growth {Request : KState → Prop}
    (served : ∀ n K', AttemptStep size align K n K' →
      ∃ i, findSmallestHole (allocNewSize size) align K' = .ok (some i, K'))
    (grows : Grows Request (add32 K.oldLength (allocNewSize size)) K) :
    Grows.All Request size align K := by
  have only : ∀ L newLength, Attempts size align K L newLength → L = K := by
    rintro L newLength ⟨reached, missing, -⟩
    have states : L = K ∨ ∃ i, findSmallestHole (allocNewSize size) align L = .ok (some i, L) := by
      refine reached.invariant (I := fun L => L = K ∨
        ∃ i, findSmallestHole (allocNewSize size) align L = .ok (some i, L)) (.inl rfl) ?_
      rintro M n M' (rfl | ⟨i, found⟩) - step
      · exact .inr (served n M' step)
      · obtain ⟨none, -⟩ := step
        rw [found] at none
        cases none
    rcases states with same | ⟨i, found⟩
    · exact same
    · rw [found] at missing
      cases missing
  constructor
  · intro L newLength fuel L' attempt _ step
    obtain rfl := only L newLength attempt
    obtain ⟨i, found⟩ := served fuel L' step
    exact fun M newLength attempt => absurd attempt (not_attempts_of_hole found)
  · intro L newLength attempt
    obtain rfl := only L newLength attempt
    obtain rfl := attempt.2.2.1
    exact grows

end Calls

/-! ## A growth that needs one page table -/

section OneTable

variable {K K' : KState} {n i t newLength : Nat}

/-- A page that got its frame has a page table. -/
theorem allocFramePage_table (address : Nat) (isKernel isWriteable : Bool) :
    wp (allocFramePage (some (pagePtr address)) isKernel isWriteable)
      (fun _ K' => (K'.dir.pdTables (pagePtr address).table).isSome = true) (fun _ => True) K := by
  unfold wp allocFramePage
  dsimp only
  cases entry : K.dir.page (pagePtr address) with
  | none => trivial
  | some v =>
      dsimp only
      cases allocFrame K.bits v isKernel isWriteable with
      | error e => trivial
      | ok r =>
          obtain ⟨table, there, -⟩ := Option.map_eq_some_iff.mp entry
          show ((K.dir.setPage _ _).pdTables _).isSome = true
          rw [Option.isSome_iff_ne_none, Ne, ← VmPageDirectory.tableAt_eq_none,
            VmPageDirectory.tableAt_setPage, VmPageDirectory.tableAt_eq_none,
            there]
          rintro ⟨⟩

theorem kernelPage_result (f : Nat → KernelM (Nat × Nat)) (address : Nat) :
    wp (kernelPage f address true) (fun page _ => page = some (pagePtr address)) (fun _ => True)
      K := by
  rw [kernelPage, getPage, wp_bind, wp_get]
  dsimp only
  rw [wp_ite, wp_ite]
  refine ⟨fun _ => rfl, fun _ => ⟨fun _ => ?_, fun create => absurd rfl create⟩⟩
  exact wp_bind_of (wp_true _ _) fun _ _ _ => wp_bind_of (wp_true _ _) fun _ _ _ => rfl

/-- So has every page that `expand` has come through. -/
theorem expandPage_table (ran : expandPage (alloc n) i K = .ok ((), K')) :
    HasTable K' i ∧ K'.heap.hAddrStart = K.heap.hAddrStart := by
  have same := (expandPage_keeps (alloc_keeps n) i).of_ok ran
  refine ⟨?_, same⟩
  rw [HasTable, same]
  have found : wp (expandPage (alloc n) i) (fun _ K' =>
      (K'.dir.pdTables (pagePtr (add32 K.heap.hAddrStart i)).table).isSome = true)
      (fun _ => True) K := by
    rw [expandPage, wp_bind, wp_get]
    refine wp_bind_of (kernelPage_result _ _) ?_
    rintro _ K₁ rfl
    exact allocFramePage_table _ _ _
  have table := wp_ok found ran
  exact table

/-- The new pages share one page table: it is asked for at the old end, if at all. -/
theorem grows_of_slot {Request : KState → Prop}
    (request : HasTable K K.oldLength ∨ Request K)
    (slot : ∀ i, K.oldLength ≤ i → i < pageAlign newLength →
      add32 K.heap.hAddrStart i / 0x1000 / 1024 = t) : Grows Request newLength K := by
  intro L i reached less
  have states : L.heap.hAddrStart = K.heap.hAddrStart ∧ K.oldLength ≤ i ∧
      ((L, i) = (K, K.oldLength) ∨ (L.dir.pdTables t).isSome = true) := by
    refine reached.invariant (I := fun s : KState × Nat => s.1.heap.hAddrStart = K.heap.hAddrStart ∧
      K.oldLength ≤ s.2 ∧ (s = (K, K.oldLength) ∨ (s.1.dir.pdTables t).isSome = true))
      ⟨rfl, Nat.le_refl _, .inl rfl⟩ ?_
    rintro _ n _ ⟨start, le, -⟩ - ⟨more, ran⟩
    obtain ⟨table, same⟩ := expandPage_table ran
    rw [HasTable, same, start, slot _ le more] at table
    exact ⟨same.trans start, Nat.le_add_right_of_le le, .inr table⟩
  obtain ⟨start, le, first | table⟩ := states
  · obtain ⟨rfl, rfl⟩ := Prod.mk.inj first
    exact request
  · left
    rw [HasTable, start, slot i le less]
    exact table

end OneTable

/-! ## Runs -/

section Runs

theorem unifyLeft_start (header footer : Nat) :
    Keeps (fun K => K.heap.hAddrStart) (unifyLeft header footer) := by
  refine ((read32_keeps _).of_id _).bind fun magic => .ite ?_ (.pure _)
  refine ((read32_keeps _).of_id _).bind fun left => ((read32_keeps _).of_id _).bind fun hole =>
    .ite ?_ (.pure _)
  exact ((read32_keeps _).of_id _).bind fun _ =>
    ((write32_keeps _ _).map VmHeap.hAddrStart).bind fun _ =>
      ((read32_keeps _).of_id _).bind fun _ =>
        ((write32_keeps _ _).map VmHeap.hAddrStart).bind fun _ => .pure _

theorem searchIndex_keeps (header : Nat) : Keeps (fun K => K) (searchIndex header) := by
  have loop : ∀ n i, Keeps (fun K => K) (searchFrom header n i) := by
    intro n
    induction n with
    | zero => exact fun _ => .pure _
    | succ n ih => exact fun i => (lookupIndex_keeps i).bind fun _ => .ite (ih _) (.pure _)
  exact .bind .get fun K => loop _ _

theorem unifyRight_start (header footer : Nat) :
    Keeps (fun K => K.heap.hAddrStart) (unifyRight header footer) := by
  refine ((read32_keeps _).of_id _).bind fun magic => .ite ?_ (.pure _)
  refine ((read32_keeps _).of_id _).bind fun hole => .ite ?_ (.pure _)
  refine ((read32_keeps _).of_id _).bind fun _ => ((read32_keeps _).of_id _).bind fun _ =>
    ((write32_keeps _ _).map VmHeap.hAddrStart).bind fun _ =>
      ((read32_keeps _).of_id _).bind fun _ => ?_
  exact ((searchIndex_keeps _).of_id _).bind fun i => .bind .get fun _ =>
    ((kassert_keeps _ _).of_id _).bind fun _ =>
      ((removeIndex_keeps i).map fun K => K.heap.hAddrStart).bind fun _ => .pure _

theorem contract_start (newSize : Nat) : Keeps (fun K => K.heap.hAddrStart) (contract newSize) := by
  intro K
  rw [contract, Program.wp_bind, wp_get, Program.wp_bind, wp_kassert]
  refine ⟨fun _ => ?_, fun _ => trivial⟩
  dsimp only
  generalize sub32 (sub32 K.heap.hAddrEnd K.heap.hAddrStart) 0x1000 = i
  generalize i / 0x1000 + 1 = n
  refine wp_bind_of (contractLoop_keeps _ n i K) fun _ K₁ same => ?_
  show K₁.heap.hAddrStart = K.heap.hAddrStart
  rw [same]

theorem shrink_start (header testHeader : Nat) :
    Keeps (fun K => K.heap.hAddrStart) (shrink header testHeader) := by
  refine .bind .get fun K => (contract_start _).bind fun newLength =>
    ((read32_keeps _).of_id _).bind fun size => .ite ?_ ?_
  · exact ((write32_keeps _ _).map VmHeap.hAddrStart).bind fun _ =>
      ((read32_keeps _).of_id _).bind fun _ => (setFooter_keeps _ _).map VmHeap.hAddrStart
  · exact ((searchIndex_keeps _).of_id _).bind fun i => .bind .get fun _ =>
      .ite ((removeIndex_keeps i).map fun K => K.heap.hAddrStart) (.pure _)

/-- `free` leaves the heap where it begins. -/
theorem free_start (p : Nat) : Keeps (fun K => K.heap.hAddrStart) (free p) := by
  refine .bind .get fun K => .ite (.pure _) ?_
  refine ((read32_keeps _).of_id _).bind fun size => ((read32_keeps _).of_id _).bind fun _ =>
    ((kassert_keeps _ _).of_id _).bind fun _ => ((read32_keeps _).of_id _).bind fun _ =>
      ((kassert_keeps _ _).of_id _).bind fun _ =>
        ((write32_keeps _ _).map VmHeap.hAddrStart).bind fun _ => ?_
  refine (unifyLeft_start _ _).bind fun l => (unifyRight_start _ _).bind fun r =>
    .bind .get fun K => ?_
  refine .ite ((shrink_start _ _).bind fun _ => ?_) ?_
  · exact .ite ((insertIndex_keeps _).map fun K => K.heap.hAddrStart) (.pure _)
  · exact .ite ((insertIndex_keeps _).map fun K => K.heap.hAddrStart) (.pure _)

theorem start_of_step {s s' : HeapState} {op : HeapOp} (step : HeapStep s op s') :
    s'.kernel.heap.hAddrStart = s.kernel.heap.hAddrStart := by
  cases step with
  | alloc ran => exact (alloc_keeps _ _ _).of_ok ran
  | free held ran => exact (free_start _).of_ok ran
  | write held inside ran => exact congrArg VmHeap.hAddrStart ((write8_keeps _ _).of_ok ran)

/-- In every run of the heap and its clients: a call of `alloc` whose page tables are found
returns or stops, with finitely many nested calls. -/
theorem alloc_ends_in_runs {K : KState} {start end_ max size : Nat} {su ro align : Bool}
    {s₀ s : HeapState} (region : RegionMapped K start end_)
    (started : Started K start end_ max su ro s₀) (reached : Reachable HeapStep s₀ s)
    (hosts : Hosts size align s.kernel) :
    ∃ fuel, alloc fuel size align s.kernel ≠ .error .fuel := by
  have first := (started_bounds region started).1
  have same : s.kernel.heap.hAddrStart = s₀.kernel.heap.hAddrStart :=
    reached.invariant (I := fun s => s.kernel.heap.hAddrStart = s₀.kernel.heap.hAddrStart) rfl
      fun _ _ _ before _ step => (start_of_step step).trans before
  have room := region.room
  have top := region.top
  exact alloc_ends (by rw [same, first]; omega) hosts

end Runs

end MiniKernel.Kernel
