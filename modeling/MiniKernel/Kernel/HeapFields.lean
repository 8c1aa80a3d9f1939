/-
# Kernel.HeapFields -- what the heap code leaves alone

`struct vm_heap` lives in a store of its own, so what is written through addresses
does not reach it, whatever the headers and footers hold.  The lemmas of this module
follow its fields through the statements of `alloc` and `free` on any memory; they
are for the runs that go wrong, where no block can be relied upon.
-/
import MiniKernel.Kernel.HeapGrow

namespace MiniKernel.Kernel

open Theory Program VmPageDirectory

set_option autoImplicit false

/-- The limits of the heap. -/
def KState.bounds (K : KState) : Nat × Nat × Nat :=
  (K.heap.hAddrStart, K.heap.hAddrEnd, K.heap.hAddrMax)

/-- The state but for the memory. -/
def KState.besidesMem (K : KState) : KState := { K with mem := fun _ => 0 }

/-- The state but for the memory and the index of the heap. -/
def KState.besidesBlocks (K : KState) : KState :=
  { K with
    mem := fun _ => 0
    heap := { K.heap with hIndex := SortedArray.place (fun _ => 0) 0 none } }

/-- The state but for the frames and the pages they are in. -/
def KState.besidesFrames (K : KState) : KState :=
  { K with bits := { frames := fun _ => 0, nframes := 0 }, dir := .zero }

theorem KState.eq_of_besidesMem {K K' : KState} (same : K'.besidesMem = K.besidesMem) :
    K' = { K with mem := K'.mem } :=
  congrArg (fun s : KState => { s with mem := K'.mem }) same

/-! ## Memory -/

theorem read32_keeps (a : Nat) : Keeps (fun K => K) (read32 a) := by
  intro K
  unfold wp read32
  cases K.peek32 a with
  | error e => trivial
  | ok v => rfl

theorem write8_besidesMem (a : Nat) (v : UInt8) : Keeps KState.besidesMem (write8 a v) := by
  intro K
  unfold wp write8
  cases K.translate a with
  | none => trivial
  | some p =>
      dsimp only
      rw [K.put8_eq a v]
      rfl

theorem write8_keeps (a : Nat) (v : UInt8) : Keeps KState.heap (write8 a v) :=
  (write8_besidesMem a v).map KState.heap

theorem write32_besidesMem (a v : Nat) : Keeps KState.besidesMem (write32 a v) :=
  (write8_besidesMem _ _).bind fun _ => (write8_besidesMem _ _).bind fun _ =>
    (write8_besidesMem _ _).bind fun _ => write8_besidesMem _ _

theorem write32_keeps (a v : Nat) : Keeps KState.heap (write32 a v) :=
  (write32_besidesMem a v).map KState.heap

theorem setHeader_besidesMem (header isHole size : Nat) :
    Keeps KState.besidesMem (setHeader header isHole size) :=
  (write32_besidesMem _ _).bind fun _ => (write32_besidesMem _ _).bind fun _ =>
    write32_besidesMem _ _

theorem setFooter_besidesMem (footer header : Nat) :
    Keeps KState.besidesMem (setFooter footer header) :=
  (write32_besidesMem _ _).bind fun _ => write32_besidesMem _ _

theorem setFooter_keeps (footer header : Nat) : Keeps KState.heap (setFooter footer header) :=
  (setFooter_besidesMem footer header).map KState.heap

theorem bzero_besidesMem (a n : Nat) : Keeps KState.besidesMem (bzero a n) := by
  induction n generalizing a with
  | zero => exact .pure _
  | succ n ih => exact (write8_besidesMem _ _).bind fun _ => ih _

theorem bzero_keeps (a n : Nat) : Keeps KState.heap (bzero a n) :=
  (bzero_besidesMem a n).map KState.heap

/-! ## Pages -/

theorem allocFramePage_keeps (p : Option PagePtr) (su ro : Bool) :
    Keeps KState.besidesFrames (allocFramePage p su ro) := by
  intro K
  unfold wp allocFramePage
  cases p with
  | none => trivial
  | some p =>
      dsimp only
      cases K.dir.page p with
      | none => trivial
      | some v =>
          dsimp only
          cases allocFrame K.bits v su ro with
          | error e => trivial
          | ok r => rfl

theorem freeFramePage_keeps (p : Option PagePtr) : Keeps KState.besidesFrames (freeFramePage p) := by
  intro K
  unfold wp freeFramePage
  cases p with
  | none => trivial
  | some p =>
      dsimp only
      cases K.dir.page p with
      | none => trivial
      | some v => rfl

theorem lookupPage_keeps (a : Nat) : Keeps (fun K => K) (lookupPage a) := by
  refine .bind .get fun K => .ite (.pure _) ?_
  exact .pure _

theorem contractLoop_keeps (newSize n i : Nat) : Keeps KState.heap (contractLoop newSize n i) := by
  induction n generalizing i with
  | zero => exact .pure _
  | succ n ih =>
      exact .ite (.bind .get fun _ => ((lookupPage_keeps _).of_id _).bind fun page =>
        ((freeFramePage_keeps page).map KState.heap).bind fun _ => ih _) (.pure _)

/-! ## The index -/

theorem lookupIndex_keeps (i : Nat) : Keeps (fun K => K) (lookupIndex i) := by
  intro K
  unfold wp lookupIndex
  cases K.heap.hIndex.lookupSortedArray i with
  | error e => trivial
  | ok v => rfl

theorem insertIndex_keeps (x : Nat) : Keeps KState.besidesBlocks (insertIndex x) := by
  intro K
  unfold wp insertIndex
  cases K.heap.hIndex.insertSortedArray (callCmp K) x with
  | error e => trivial
  | ok index => rfl

theorem removeIndex_keeps (i : Nat) : Keeps KState.besidesBlocks (removeIndex i) := by
  intro K
  unfold wp removeIndex
  cases K.heap.hIndex.removeSortedArray i with
  | error e => trivial
  | ok index => rfl

theorem findSmallestHole_keeps (size : Nat) (pageAlign : Bool) :
    Keeps (fun K => K) (findSmallestHole size pageAlign) := by
  have loop : ∀ n i, Keeps (fun K => K) (findFrom size pageAlign n i) := by
    intro n
    induction n with
    | zero => exact fun _ => .pure _
    | succ n ih =>
        exact fun i => (lookupIndex_keeps i).bind fun _ => (read32_keeps _).bind fun _ =>
          .ite (.pure _) (ih _)
  exact .bind .get fun K => loop _ _

theorem endmostHeader_keeps : Keeps (fun K => K) endmostHeader := by
  have loop : ∀ n i idx value, Keeps (fun K => K) (endmostFrom n i idx value) := by
    intro n
    induction n with
    | zero => exact fun _ _ _ => .pure _
    | succ n ih =>
        exact fun i _ _ => (lookupIndex_keeps i).bind fun _ => .ite (ih _ _ _) (ih _ _ _)
  exact .bind .get fun K => loop _ _ _ _

/-! ## alloc -/

/-- What writes memory only touches no more than the blocks. -/
theorem besidesBlocks_of_mem {α : Type} {x : KernelM α} (h : Keeps KState.besidesMem x) :
    Keeps KState.besidesBlocks x :=
  h.map KState.besidesBlocks

theorem growthAsHole_keeps (header growth : Nat) :
    Keeps KState.besidesBlocks (growthAsHole header growth) :=
  (besidesBlocks_of_mem (setHeader_besidesMem _ _ _)).bind fun _ =>
    ((read32_keeps _).of_id _).bind fun _ =>
      (besidesBlocks_of_mem (setFooter_besidesMem _ _)).bind fun _ => insertIndex_keeps _

theorem growthToHole_keeps (header growth : Nat) :
    Keeps KState.besidesBlocks (growthToHole header growth) :=
  ((read32_keeps _).of_id _).bind fun _ =>
    (besidesBlocks_of_mem (write32_besidesMem _ _)).bind fun _ =>
      ((read32_keeps _).of_id _).bind fun _ => besidesBlocks_of_mem (setFooter_besidesMem _ _)

theorem carve_keeps (pos size newSize holeSize : Nat) :
    Keeps KState.besidesBlocks (carve pos size newSize holeSize) := by
  refine (besidesBlocks_of_mem (setHeader_besidesMem _ _ _)).bind fun _ =>
    (besidesBlocks_of_mem (setFooter_besidesMem _ _)).bind fun _ => ?_
  refine .ite ?_ (.pure _)
  refine (besidesBlocks_of_mem (setHeader_besidesMem _ _ _)).bind fun _ =>
    .bind .get fun K => .ite ?_ ?_
  · exact (besidesBlocks_of_mem (setFooter_besidesMem _ _)).bind fun _ =>
      (insertIndex_keeps _).bind fun _ => .pure _
  · exact (insertIndex_keeps _).bind fun _ => .pure _

theorem place_keeps (i size newSize : Nat) (pageAlign : Bool) :
    Keeps KState.besidesBlocks (place i size newSize pageAlign) := by
  refine ((lookupIndex_keeps i).of_id _).bind fun _ => ((read32_keeps _).of_id _).bind fun _ => ?_
  refine .ite ?_ ((removeIndex_keeps i).bind fun _ => carve_keeps _ _ _ _)
  exact (besidesBlocks_of_mem (setHeader_besidesMem _ _ _)).bind fun _ =>
    (besidesBlocks_of_mem (setFooter_besidesMem _ _)).bind fun _ =>
      ((read32_keeps _).of_id _).bind fun _ => carve_keeps _ _ _ _

theorem kassert_keeps (a : KAssert) (c : Prop) [Decidable c] : Keeps (fun K => K) (kassert a c) :=
  .ite (.pure _) (.stop _)

theorem kmalloc0ApWith_keeps {f : Nat → Bool → KernelM Nat}
    (h : ∀ len aligned, Keeps (fun K => K.heap.hAddrStart) (f len aligned)) (len : Nat) :
    Keeps (fun K => K.heap.hAddrStart) (kmalloc0ApWith f len) := by
  have cleared : ∀ (r : Nat × Nat), Keeps (fun K => K.heap.hAddrStart)
      (do bzero r.1 len; pure r : KernelM (Nat × Nat)) := fun r =>
    ((bzero_keeps _ _).map VmHeap.hAddrStart).bind fun _ => .pure _
  refine .bind .get fun K => .ite ?_ ((h _ _).bind fun addr => ?_)
  · exact .bind (.of_modify fun _ => rfl) fun _ => .bind (.pure _) cleared
  · refine ((lookupPage_keeps addr).of_id _).bind fun page => .bind .get fun K => ?_
    split
    · exact .bind (.stop _) cleared
    · exact .bind (.pure _) cleared

theorem expandPage_keeps {f : Nat → Bool → KernelM Nat}
    (h : ∀ len aligned, Keeps (fun K => K.heap.hAddrStart) (f len aligned)) (i : Nat) :
    Keeps (fun K => K.heap.hAddrStart) (expandPage f i) := by
  refine .bind .get fun K => .bind ?_ fun page =>
    (allocFramePage_keeps page _ _).map fun K => K.heap.hAddrStart
  refine .bind .get fun K => .ite (.pure _) (.ite ?_ (.pure _))
  exact (kmalloc0ApWith_keeps h _).bind fun _ => .bind (.of_modify fun _ => rfl) fun _ => .pure _

theorem expandLoop_keeps {f : Nat → Bool → KernelM Nat}
    (h : ∀ len aligned, Keeps (fun K => K.heap.hAddrStart) (f len aligned)) (newSize n i : Nat) :
    Keeps (fun K => K.heap.hAddrStart) (expandLoop f newSize n i) := by
  induction n generalizing i with
  | zero => exact .pure _
  | succ n ih => exact .ite ((expandPage_keeps h i).bind fun _ => ih _) (.pure _)

theorem expand_keeps {f : Nat → Bool → KernelM Nat}
    (h : ∀ len aligned, Keeps (fun K => K.heap.hAddrStart) (f len aligned)) (newSize : Nat) :
    Keeps (fun K => K.heap.hAddrStart) (expand f newSize) := by
  refine .bind .get fun K => ((kassert_keeps _ _).of_id _).bind fun _ =>
    ((kassert_keeps _ _).of_id _).bind fun _ => (expandLoop_keeps h _ _ _).bind fun _ => ?_
  exact .of_modify fun _ => rfl

theorem giveGrowth_keeps (oldEnd growth : Nat) :
    Keeps KState.besidesBlocks (giveGrowth oldEnd growth) := by
  refine (endmostHeader_keeps.of_id _).bind fun idx => ?_
  cases idx with
  | none => exact growthAsHole_keeps _ _
  | some idx => exact ((lookupIndex_keeps idx).of_id _).bind fun _ => growthToHole_keeps _ _

theorem start_of_grow {f : Nat → Bool → KernelM Nat}
    (h : ∀ len aligned, Keeps (fun K => K.heap.hAddrStart) (f len aligned)) (newSize : Nat) :
    Keeps (fun K => K.heap.hAddrStart) (grow f newSize) :=
  .bind .get fun _ => (expand_keeps h _).bind fun _ => .bind .get fun _ =>
    (giveGrowth_keeps _ _).map fun K => K.heap.hAddrStart

/-- The heap begins where it began. -/
theorem alloc_keeps (n size : Nat) (pageAlign : Bool) :
    Keeps (fun K => K.heap.hAddrStart) (alloc n size pageAlign) := by
  induction n generalizing size pageAlign with
  | zero => exact .stop _
  | succ n ih =>
      refine ((findSmallestHole_keeps _ _).of_id _).bind fun found => ?_
      cases found with
      | some i => exact (place_keeps i _ _ _).map fun K => K.heap.hAddrStart
      | none =>
          exact (start_of_grow ih _).bind fun _ => ih size pageAlign

/-! ## alloc along a relation -/

section Along

variable {R : KState → KState → Prop} {α : Type} {x : KernelM α} {f : Nat → Bool → KernelM Nat}

/-- A step that leaves the pages and their frames as they are is along `R`. -/
def OfPages (R : KState → KState → Prop) : Prop :=
  ∀ K K' : KState, K'.dir = K.dir → K'.bits = K.bits → R K K'

theorem OfPages.of_blocks (of : OfPages R) (h : Keeps KState.besidesBlocks x) : Within R x := by
  intro K
  refine wp_mono (h K) (fun _ K' same => ?_) fun _ h => h
  have dir := congrArg KState.dir same
  have bits := congrArg KState.bits same
  exact of K K' dir bits

theorem OfPages.of_mem (of : OfPages R) (h : Keeps KState.besidesMem x) : Within R x :=
  of.of_blocks (besidesBlocks_of_mem h)

theorem OfPages.of_id (of : OfPages R) (h : Keeps (fun K => K) x) : Within R x :=
  of.of_blocks (h.of_id _)

variable [Std.Refl R] [IsTrans KState R]

theorem kmallocWith_within (of : OfPages R) (h : ∀ len aligned, Within R (f len aligned))
    (len : Nat) (phys aligned zero : Bool) : Within R (kmallocWith f len phys aligned zero) := by
  have cleared : ∀ r : Nat × Nat, Within R
      (if zero = true then do bzero r.1 len; pure r else pure r : KernelM (Nat × Nat)) := fun r =>
    .ite ((of.of_mem (bzero_besidesMem _ _)).bind fun _ => .pure _) (.pure _)
  refine .bind .get fun K => .ite ?_ ((h _ _).bind fun addr => ?_)
  · exact .bind (.of_modify fun K => of K _ rfl rfl) fun _ => .bind (.pure _) cleared
  · cases phys with
    | false => exact .bind (.pure _) cleared
    | true =>
        refine (of.of_id (lookupPage_keeps addr)).bind fun page => .bind .get fun K => ?_
        split
        · exact .bind (.stop _) cleared
        · exact .bind (.pure _) cleared

theorem grow_within (of : OfPages R) (page : ∀ i, Within R (expandPage f i)) (newSize : Nat) :
    Within R (grow f newSize) := by
  have loop : ∀ size n i, Within R (expandLoop f size n i) := by
    intro size n
    induction n with
    | zero => exact fun _ => .pure _
    | succ n ih => exact fun i => .ite ((page i).bind fun _ => ih _) (.pure _)
  have expand : ∀ size, Within R (expand f size) := fun size =>
    .bind .get fun K => (of.of_id (kassert_keeps _ _)).bind fun _ =>
      (of.of_id (kassert_keeps _ _)).bind fun _ => (loop _ _ _).bind fun _ =>
        .of_modify fun K => of K _ rfl rfl
  exact .bind .get fun _ => (expand _).bind fun _ => .bind .get fun _ =>
    of.of_blocks (giveGrowth_keeps _ _)

/-- What each page of `expand` is along, `alloc` is along. -/
theorem alloc_within (of : OfPages R)
    (page : ∀ f i, (∀ len aligned, Within R (f len aligned)) → Within R (expandPage f i))
    (n size : Nat) (pageAlign : Bool) : Within R (alloc n size pageAlign) := by
  induction n generalizing size pageAlign with
  | zero => exact .stop _
  | succ n ih =>
      refine (of.of_id (findSmallestHole_keeps _ _)).bind fun found => ?_
      cases found with
      | some i => exact of.of_blocks (place_keeps i _ _ _)
      | none => exact (grow_within of (fun i => page _ i ih) _).bind fun _ => ih size pageAlign

end Along

end MiniKernel.Kernel
