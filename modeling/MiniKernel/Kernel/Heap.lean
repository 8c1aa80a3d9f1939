/-
# Kernel.Heap -- heap.c and the allocation routine of kmalloc.c

The heap is one region of blocks.  A block starts with a header (magic, hole
flag, size) and ends with a footer (magic, pointer to the header); the addresses
of the holes are kept in a sorted array.  The heap here is the kernel heap, the
only one the kernel creates.

`alloc` calls itself on two ways: it retries after `expand`, and `expand` calls
`get_page`, which asks `kmalloc0_ap` for a missing page table and so comes back
to `alloc` on the same heap, before `h_addr_end` is set.  The functions take the
`alloc` they call as an argument, and `alloc (n + 1)` is the body of the source
over `alloc n`.
-/
import MiniKernel.Kernel.Memory

namespace MiniKernel.Kernel

open Theory

set_option autoImplicit false

/-! ## Headers and footers -/

/-- `VM_HEAP_INDEX_SIZE` -/
def vmHeapIndexSize : Nat := 0x20000
/-- `VM_HEAP_HDR_MAGIC` -/
def vmHeapHdrMagic : Nat := 0x123890AB
/-- `VM_HEAP_FTR_MAGIC` -/
def vmHeapFtrMagic : Nat := 0xBA098321
/-- `VM_HEAP_MIN_SIZE` -/
def vmHeapMinSize : Nat := 0x70000

/-- `sizeof(struct vm_heap_header)` -/
def sizeofHeader : Nat := 12
/-- `sizeof(struct vm_heap_footer)` -/
def sizeofFooter : Nat := 8

def hhMagic (header : Nat) : KernelM Nat := read32 header
def hhIsHole (header : Nat) : KernelM Nat := read32 (add32 header 4)
def hhSize (header : Nat) : KernelM Nat := read32 (add32 header 8)
def hfMagic (footer : Nat) : KernelM Nat := read32 footer
def hfHeader (footer : Nat) : KernelM Nat := read32 (add32 footer 4)

def setHhMagic (header v : Nat) : KernelM Unit := write32 header v
def setHhIsHole (header v : Nat) : KernelM Unit := write32 (add32 header 4) v
def setHhSize (header v : Nat) : KernelM Unit := write32 (add32 header 8) v
def setHfMagic (footer v : Nat) : KernelM Unit := write32 footer v
def setHfHeader (footer v : Nat) : KernelM Unit := write32 (add32 footer 4) v

/-- The three assignments that fill a header. -/
def setHeader (header isHole size : Nat) : KernelM Unit := do
  setHhMagic header vmHeapHdrMagic
  setHhIsHole header isHole
  setHhSize header size

/-- The two assignments that fill a footer. -/
def setFooter (footer header : Nat) : KernelM Unit := do
  setHfMagic footer vmHeapFtrMagic
  setHfHeader footer header

/-! ## The index -/

/-- `vm_heap_header_cmp` -/
def vmHeapHeaderCmp (K : KState) (a b : Nat) : Except Stop Int := do
  let x ← K.peek32 (add32 a 8)
  let y ← K.peek32 (add32 b 8)
  .ok (int32 (sub32 x y))

/-- A call through `sa_cmp`. -/
def callCmp (K : KState) : CmpFunc → Nat → Nat → Except Stop Int
  | .default, a, b => .ok (int32 (sub32 a b))
  | .vmHeapHeader, a, b => vmHeapHeaderCmp K a b

/-- `lookup_sorted_array(&heap->h_index, i)` -/
def lookupIndex (i : Nat) : KernelM Nat := fun K =>
  (K.heap.hIndex.lookupSortedArray i).map fun v => (v, K)

/-- `insert_sorted_array(&heap->h_index, header)` -/
def insertIndex (header : Nat) : KernelM Unit := fun K =>
  (K.heap.hIndex.insertSortedArray (callCmp K) header).map fun index =>
    ((), { K with heap := { K.heap with hIndex := index } })

/-- `remove_sorted_array(&heap->h_index, i)` -/
def removeIndex (i : Nat) : KernelM Unit := fun K =>
  (K.heap.hIndex.removeSortedArray i).map fun index =>
    ((), { K with heap := { K.heap with hIndex := index } })

/-- The test of `find_smallest_hole` on a hole at `hdr`. -/
def holeFits (size : Nat) (pageAlign : Bool) (hdr hhSize : Nat) : Bool :=
  if pageAlign then
    let location := add32 hdr sizeofHeader
    let offset := if location &&& pageMask ≠ 0 then 0x1000 - location % 0x1000 else 0
    decide (int32 size ≤ int32 (sub32 hhSize offset))
  else decide (size ≤ hhSize)

/-- The loop of `find_smallest_hole`, with `n` holes left from index `i` on. -/
def findFrom (size : Nat) (pageAlign : Bool) : Nat → Nat → KernelM (Option Nat)
  | 0, _ => pure none
  | n + 1, i => do
      let hdr ← lookupIndex i
      let hhSize ← hhSize hdr
      if holeFits size pageAlign hdr hhSize then pure (some i)
      else findFrom size pageAlign n (i + 1)

/-- `find_smallest_hole`; `none` is -1. -/
def findSmallestHole (size : Nat) (pageAlign : Bool) : KernelM (Option Nat) := do
  let K ← get
  findFrom size pageAlign K.heap.hIndex.saSize 0

/-- The search for the endmost header in `alloc`, with `n` headers left. -/
def endmostFrom : Nat → Nat → Option Nat → Nat → KernelM (Option Nat)
  | 0, _, idx, _ => pure idx
  | n + 1, i, idx, value => do
      let tmp ← lookupIndex i
      if value < tmp then endmostFrom n (i + 1) (some i) tmp
      else endmostFrom n (i + 1) idx value

/-- The index of the endmost header; `none` is -1. -/
def endmostHeader : KernelM (Option Nat) := do
  let K ← get
  endmostFrom K.heap.hIndex.saSize 0 none 0

/-- The search for `header` in `free`, with `n` headers left; it ends at the
size of the index when `header` is not there. -/
def searchFrom (header : Nat) : Nat → Nat → KernelM Nat
  | 0, i => pure i
  | n + 1, i => do
      let tmp ← lookupIndex i
      if tmp ≠ header then searchFrom header n (i + 1) else pure i

def searchIndex (header : Nat) : KernelM Nat := do
  let K ← get
  searchFrom header K.heap.hIndex.saSize 0

/-! ## Pages -/

/-- `alloc_frame(p, is_kernel, is_writeable)` -/
def allocFramePage (p : Option PagePtr) (isKernel isWriteable : Bool) : KernelM Unit := fun K =>
  match p with
  | none => .error .nullDeref
  | some p =>
      match K.dir.page p with
      | none => .error .nullDeref
      | some v =>
          (allocFrame K.bits v isKernel isWriteable).map fun r =>
            ((), { K with bits := r.1, dir := K.dir.setPage p r.2 })

/-- `free_frame(p)` -/
def freeFramePage (p : Option PagePtr) : KernelM Unit := fun K =>
  match p with
  | none => .error .nullDeref
  | some p =>
      match K.dir.page p with
      | none => .error .nullDeref
      | some v =>
          let r := freeFrame K.bits v
          .ok ((), { K with bits := r.1, dir := K.dir.setPage p r.2 })

/-- `get_page(address, create, kernel_directory)` -/
def kernelPage (kmalloc0Ap : Nat → KernelM (Nat × Nat)) (address : Nat) (create : Bool) :
    KernelM (Option PagePtr) :=
  getPage KState.dir (fun d K => { K with dir := d }) kmalloc0Ap address create

/-- `get_page(address, 0, kernel_directory)` -/
def lookupPage (address : Nat) : KernelM (Option PagePtr) :=
  kernelPage (fun _ => Program.stop .fuel) address false

/-- `_kmalloc(len, phys, flags)`, over the `alloc` it calls.  The result is the
address and what `*phys` is set to, 0 when `phys` is null. -/
def kmallocWith (alloc : Nat → Bool → KernelM Nat) (len : Nat) (phys aligned zero : Bool) :
    KernelM (Nat × Nat) := do
  let K ← get
  let (addr, tmp) ←
    if K.heapReady = false then do
      let placed :=
        if aligned ∧ K.placementAddress &&& pageMask ≠ 0 then
          add32 (K.placementAddress &&& pageMask) 0x1000
        else K.placementAddress
      modify fun K => { K with placementAddress := add32 placed len }
      pure (sub32 (add32 placed len) len, if phys then placed else 0)
    else do
      let addr ← alloc len aligned
      if phys then do
        let page ← lookupPage addr
        let K ← get
        match page.bind K.dir.page with
        | none => Program.stop .nullDeref
        | some v => pure (addr, add32 (v.pFrame * 0x1000) (addr &&& 0xFFF))
      else pure (addr, 0)
  if zero then bzero addr len
  pure (addr, tmp)

/-- `kmalloc0_ap` -/
def kmalloc0ApWith (alloc : Nat → Bool → KernelM Nat) (len : Nat) : KernelM (Nat × Nat) :=
  kmallocWith alloc len true true true

/-! ## Growing and shrinking -/

/-- The body of the loop of `expand`. -/
def expandPage (alloc : Nat → Bool → KernelM Nat) (i : Nat) : KernelM Unit := do
  let K ← get
  let page ← kernelPage (kmalloc0ApWith alloc) (add32 K.heap.hAddrStart i) true
  allocFramePage page K.heap.hSu K.heap.hRo

/-- The loop of `expand`, for at most `n` pages. -/
def expandLoop (alloc : Nat → Bool → KernelM Nat) (newSize : Nat) : Nat → Nat → KernelM Unit
  | 0, _ => pure ()
  | n + 1, i =>
      if i < newSize then do
        expandPage alloc i
        expandLoop alloc newSize n (i + 0x1000)
      else pure ()

/-- `expand(new_size, heap)`.  The loop runs once for each page below the new
size at most. -/
def expand (alloc : Nat → Bool → KernelM Nat) (newSize : Nat) : KernelM Unit := do
  let K ← get
  kassert .expandGreater (sub32 K.heap.hAddrEnd K.heap.hAddrStart < newSize)
  let newSize := pageAlign newSize
  kassert .dontOverflow (add32 K.heap.hAddrStart newSize ≤ K.heap.hAddrMax)
  let oldSize := sub32 K.heap.hAddrEnd K.heap.hAddrStart
  expandLoop alloc newSize (newSize / 0x1000 + 1) oldSize
  modify fun K =>
    { K with heap := { K.heap with hAddrEnd := add32 K.heap.hAddrStart newSize } }

/-- The loop of `contract`, for at most `n` pages. -/
def contractLoop (newSize : Nat) : Nat → Nat → KernelM Unit
  | 0, _ => pure ()
  | n + 1, i =>
      if newSize < i then do
        let K ← get
        let page ← lookupPage (add32 K.heap.hAddrStart i)
        freeFramePage page
        contractLoop newSize n (sub32 i 0x1000)
      else pure ()

/-- The rounding and the lower bound of `contract`.  The mask is that of the
source, `0x1000`. -/
def contractSize (newSize : Nat) : Nat :=
  let newSize := if newSize &&& 0x1000 ≠ 0 then add32 (newSize &&& 0x1000) 0x1000 else newSize
  if newSize < vmHeapMinSize then vmHeapMinSize else newSize

/-- `contract(new_size, heap)` -/
def contract (newSize : Nat) : KernelM Nat := do
  let K ← get
  kassert .contractSmaller (newSize < sub32 K.heap.hAddrEnd K.heap.hAddrStart)
  let newSize := contractSize newSize
  let oldSize := sub32 K.heap.hAddrEnd K.heap.hAddrStart
  let i := sub32 oldSize 0x1000
  contractLoop newSize (i / 0x1000 + 1) i
  modify fun K =>
    { K with heap := { K.heap with hAddrEnd := add32 K.heap.hAddrStart newSize } }
  pure newSize

/-! ## alloc -/

/-- A growth becomes a hole at `header`. -/
def growthAsHole (header growth : Nat) : KernelM Unit := do
  setHeader header 1 growth
  let size ← hhSize header
  setFooter (sub32 (add32 header size) sizeofFooter) header
  insertIndex header

/-- A growth goes to the hole at `header`. -/
def growthToHole (header growth : Nat) : KernelM Unit := do
  let size ← hhSize header
  setHhSize header (add32 size growth)
  let size ← hhSize header
  setFooter (sub32 (add32 header size) sizeofFooter) header

/-- The part of `alloc` that runs when no hole fits. -/
def grow (alloc : Nat → Bool → KernelM Nat) (newSize : Nat) : KernelM Unit := do
  let K ← get
  let oldLength := sub32 K.heap.hAddrEnd K.heap.hAddrStart
  let oldEndAddress := K.heap.hAddrEnd
  expand alloc (add32 oldLength newSize)
  let K ← get
  let newLength := sub32 K.heap.hAddrEnd K.heap.hAddrStart
  match ← endmostHeader with
  | none => growthAsHole oldEndAddress (sub32 newLength oldLength)
  | some idx => do
      let header ← lookupIndex idx
      growthToHole header (sub32 newLength oldLength)

/-- The end of `alloc`: a block at `pos`, and a hole behind it when something is
left of the `holeSize` bytes. -/
def carve (pos size newSize holeSize : Nat) : KernelM Nat := do
  setHeader pos 0 newSize
  setFooter (add32 (add32 pos sizeofHeader) size) pos
  if 0 < sub32 holeSize newSize then do
    let holeHeader := add32 (add32 (add32 pos sizeofHeader) size) sizeofFooter
    setHeader holeHeader 1 (sub32 holeSize newSize)
    let holeFooter := sub32 (sub32 (add32 holeHeader holeSize) newSize) sizeofFooter
    let K ← get
    if holeFooter < K.heap.hAddrEnd then setFooter holeFooter holeHeader
    insertIndex holeHeader
  pure (add32 pos sizeofHeader)

/-- The part of `alloc` that takes a block out of the hole with index `i`. -/
def place (i size newSize : Nat) (pageAlign : Bool) : KernelM Nat := do
  let origHolePos ← lookupIndex i
  let origHoleSize ← hhSize origHolePos
  let absorb := sub32 origHoleSize newSize < sizeofHeader + sizeofFooter
  let size := if absorb then add32 size (sub32 origHoleSize newSize) else size
  let newSize := if absorb then origHoleSize else newSize
  if pageAlign ∧ origHolePos &&& pageMask ≠ 0 then do
    let gap := sub32 (sub32 0x1000 (origHolePos &&& 0xFFF)) sizeofHeader
    let newLocation := sub32 (sub32 (add32 origHolePos 0x1000) (origHolePos &&& 0xFFF)) sizeofHeader
    setHeader origHolePos 1 gap
    setFooter (sub32 newLocation sizeofFooter) origHolePos
    let gapSize ← hhSize origHolePos
    carve newLocation size newSize (sub32 origHoleSize gapSize)
  else do
    removeIndex i
    carve origHolePos size newSize origHoleSize

/-- `alloc(size, page_align, heap)`, with at most `fuel` nested calls. -/
def alloc : Nat → Nat → Bool → KernelM Nat
  | 0, _, _ => Program.stop .fuel
  | fuel + 1, size, pageAlign => do
      let newSize := add32 (add32 size sizeofHeader) sizeofFooter
      match ← findSmallestHole newSize pageAlign with
      | none => do
          grow (alloc fuel) newSize
          alloc fuel size pageAlign
      | some i => place i size newSize pageAlign

/-! ## free -/

/-- The attempt to unify with the block on the left: the header of the block
that is left, and whether it has to be added to the index. -/
def unifyLeft (header footer : Nat) : KernelM (Nat × Bool) := do
  let testFooter := sub32 header sizeofFooter
  if (← hfMagic testFooter) = vmHeapFtrMagic then do
    let left ← hfHeader testFooter
    if (← hhIsHole left) = 1 then do
      let cacheSize ← hhSize header
      setHfHeader footer left
      let size ← hhSize left
      setHhSize left (add32 size cacheSize)
      pure (left, false)
    else pure (header, true)
  else pure (header, true)

/-- The attempt to unify with the block on the right: the footer of the block
that is left. -/
def unifyRight (header footer : Nat) : KernelM Nat := do
  let testHeader := add32 footer sizeofFooter
  if (← hhMagic testHeader) = vmHeapHdrMagic then do
    if (← hhIsHole testHeader) ≠ 0 then do
      let size ← hhSize header
      let rightSize ← hhSize testHeader
      setHhSize header (add32 size rightSize)
      let rightSize ← hhSize testHeader
      let testFooter := sub32 (add32 testHeader rightSize) sizeofFooter
      let i ← searchIndex testHeader
      let K ← get
      kassert .foundItem (i < K.heap.hIndex.saSize)
      removeIndex i
      pure testFooter
    else pure footer
  else pure footer

/-- The contraction at the end of `free`, for a block that ends the heap. -/
def shrink (header testHeader : Nat) : KernelM Unit := do
  let K ← get
  let oldLength := sub32 K.heap.hAddrEnd K.heap.hAddrStart
  let newLength ← contract (sub32 header K.heap.hAddrStart)
  let size ← hhSize header
  if 0 < sub32 size (sub32 oldLength newLength) then do
    setHhSize header (sub32 size (sub32 oldLength newLength))
    let size ← hhSize header
    setFooter (sub32 (add32 header size) sizeofFooter) header
  else do
    let i ← searchIndex testHeader
    let K ← get
    if i < K.heap.hIndex.saSize then removeIndex i

/-- The end of `free`: the hole is unified with its neighbours, cut when it ends the
heap, and filed. -/
def coalesce (header footer : Nat) : KernelM Unit := do
  let testHeader := add32 footer sizeofFooter
  let (header, doAdd) ← unifyLeft header footer
  let footer ← unifyRight header footer
  let K ← get
  if add32 footer sizeofFooter = K.heap.hAddrEnd then shrink header testHeader
  if doAdd then insertIndex header

/-- `free(p, heap)` -/
def free (p : Nat) : KernelM Unit := do
  let K ← get
  if p = 0 ∨ K.heapReady = false then pure ()
  else do
    let header := sub32 p sizeofHeader
    let size ← hhSize header
    let footer := sub32 (add32 header size) sizeofFooter
    let headerMagic ← hhMagic header
    kassert .headerMagic (headerMagic = vmHeapHdrMagic)
    let footerMagic ← hfMagic footer
    kassert .footerMagic (footerMagic = vmHeapFtrMagic)
    setHhIsHole header 1
    coalesce header footer

/-! ## init_heap -/

/-- `init_heap`, of the kernel heap, and the assignment of `kernel_heap`. -/
def initHeap (start end_ max : Nat) (su ro : Bool) : KernelM Unit := do
  kassert .startAligned (start % 0x1000 = 0)
  kassert .endAligned (end_ % 0x1000 = 0)
  let index := SortedArray.place (fun _ => 0) vmHeapIndexSize (some CmpFunc.vmHeapHeader)
  let start := pageAlign (add32 start (4 * vmHeapIndexSize))
  modify fun K => { K with
    heap := { hIndex := index, hAddrStart := start, hAddrEnd := end_, hAddrMax := max, hSu := su
              hRo := ro }
    heapReady := true }
  setHeader start 1 (sub32 end_ start)
  insertIndex start

end MiniKernel.Kernel
