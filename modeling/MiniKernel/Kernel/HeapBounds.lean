/-
# Kernel.HeapBounds -- free, with every access checked against the bounds of the heap

`freeIn` is `free` with the tags behind a check: an access outside
`[h_addr_start, h_addr_end)`, as the two fields are at that time, is a fault.

`free` looks at the word in front of the first block and at the word behind the
last one, so a block with a neighbour on each side is the only one it can free
without a fault (`FreeInside`).  For such a block the two programs do the same,
contraction included: the hole that is cut keeps its tags below the new end.
-/
import MiniKernel.Kernel.HeapRuns
import MiniKernel.Kernel.HeapFields

namespace MiniKernel.Kernel

open Theory Program

set_option autoImplicit false

/-! ## The checked program -/

/-- An access to the word at `a`, inside the heap. -/
def inHeap {α : Type} (a : Nat) (x : KernelM α) : KernelM α := do
  let K ← get
  if K.heap.hAddrStart ≤ a ∧ a + 4 ≤ K.heap.hAddrEnd then x
  else Program.stop (.panic (.pageFault a))

def hhMagicIn (header : Nat) : KernelM Nat := inHeap header (hhMagic header)
def hhIsHoleIn (header : Nat) : KernelM Nat := inHeap (add32 header 4) (hhIsHole header)
def hhSizeIn (header : Nat) : KernelM Nat := inHeap (add32 header 8) (hhSize header)
def hfMagicIn (footer : Nat) : KernelM Nat := inHeap footer (hfMagic footer)
def hfHeaderIn (footer : Nat) : KernelM Nat := inHeap (add32 footer 4) (hfHeader footer)

def setHhIsHoleIn (header v : Nat) : KernelM Unit := inHeap (add32 header 4) (setHhIsHole header v)
def setHhSizeIn (header v : Nat) : KernelM Unit := inHeap (add32 header 8) (setHhSize header v)
def setHfMagicIn (footer v : Nat) : KernelM Unit := inHeap footer (setHfMagic footer v)
def setHfHeaderIn (footer v : Nat) : KernelM Unit := inHeap (add32 footer 4) (setHfHeader footer v)

/-- `setFooter`, checked. -/
def setFooterIn (footer header : Nat) : KernelM Unit := do
  setHfMagicIn footer vmHeapFtrMagic
  setHfHeaderIn footer header

/-- `unifyLeft`, checked. -/
def unifyLeftIn (header footer : Nat) : KernelM (Nat × Bool) := do
  let testFooter := sub32 header sizeofFooter
  if (← hfMagicIn testFooter) = vmHeapFtrMagic then do
    let left ← hfHeaderIn testFooter
    if (← hhIsHoleIn left) = 1 then do
      let cacheSize ← hhSizeIn header
      setHfHeaderIn footer left
      let size ← hhSizeIn left
      setHhSizeIn left (add32 size cacheSize)
      pure (left, false)
    else pure (header, true)
  else pure (header, true)

/-- `unifyRight`, checked. -/
def unifyRightIn (header footer : Nat) : KernelM Nat := do
  let testHeader := add32 footer sizeofFooter
  if (← hhMagicIn testHeader) = vmHeapHdrMagic then do
    if (← hhIsHoleIn testHeader) ≠ 0 then do
      let size ← hhSizeIn header
      let rightSize ← hhSizeIn testHeader
      setHhSizeIn header (add32 size rightSize)
      let rightSize ← hhSizeIn testHeader
      let testFooter := sub32 (add32 testHeader rightSize) sizeofFooter
      let i ← searchIndex testHeader
      let K ← get
      kassert .foundItem (i < K.heap.hIndex.saSize)
      removeIndex i
      pure testFooter
    else pure footer
  else pure footer

/-- `shrink`, checked. -/
def shrinkIn (header testHeader : Nat) : KernelM Unit := do
  let K ← get
  let oldLength := sub32 K.heap.hAddrEnd K.heap.hAddrStart
  let newLength ← contract (sub32 header K.heap.hAddrStart)
  let size ← hhSizeIn header
  if 0 < sub32 size (sub32 oldLength newLength) then do
    setHhSizeIn header (sub32 size (sub32 oldLength newLength))
    let size ← hhSizeIn header
    setFooterIn (sub32 (add32 header size) sizeofFooter) header
  else do
    let i ← searchIndex testHeader
    let K ← get
    if i < K.heap.hIndex.saSize then removeIndex i

/-- `coalesce`, checked. -/
def coalesceIn (header footer : Nat) : KernelM Unit := do
  let testHeader := add32 footer sizeofFooter
  let (header, doAdd) ← unifyLeftIn header footer
  let footer ← unifyRightIn header footer
  let K ← get
  if add32 footer sizeofFooter = K.heap.hAddrEnd then shrinkIn header testHeader
  if doAdd then insertIndex header

/-- `free(p, heap)`, checked. -/
def freeIn (p : Nat) : KernelM Unit := do
  let K ← get
  if p = 0 ∨ K.heapReady = false then pure ()
  else do
    let header := sub32 p sizeofHeader
    let size ← hhSizeIn header
    let footer := sub32 (add32 header size) sizeofFooter
    let headerMagic ← hhMagicIn header
    kassert .headerMagic (headerMagic = vmHeapHdrMagic)
    let footerMagic ← hfMagicIn footer
    kassert .footerMagic (footerMagic = vmHeapFtrMagic)
    setHhIsHoleIn header 1
    coalesceIn header footer

/-! ## Accesses inside the heap -/

section Inside

variable {K K₁ : KState} {α : Type} {a v header footer : Nat}

theorem inHeap_eq (x : KernelM α) (h1 : K.heap.hAddrStart ≤ a) (h2 : a + 4 ≤ K.heap.hAddrEnd) :
    inHeap a x K = x K :=
  congrFun (if_pos ⟨h1, h2⟩) K

/-- An access outside is a fault. -/
theorem inHeap_outside (x : KernelM α) (out : a < K.heap.hAddrStart ∨ K.heap.hAddrEnd < a + 4) :
    inHeap a x K = .error (.panic (.pageFault a)) :=
  congrFun (if_neg fun both => by omega) K

/-- A read inside the heap returns. -/
theorem inHeap_read {lo hi : Nat} (sees : Sees K lo hi K.view) (low : lo ≤ a)
    (h1 : K.heap.hAddrStart ≤ a) (h2 : a + 4 ≤ K.heap.hAddrEnd ∧ a + 4 ≤ hi) :
    inHeap a (read32 a) K = .ok (K.view.word a, K) := by
  rw [inHeap_eq _ h1 h2.1, read32, sees.peek32 low h2.2]

/-- A read that returns. -/
theorem read32_ok (ran : read32 a K = .ok (v, K₁)) : K₁ = K ∧ v = K.view.word a := by
  refine ⟨(read32_keeps a).of_ok ran, ?_⟩
  have seen : Program.wp (read32 a) (fun v _ => v = K.view.word a) (fun _ => True) K :=
    wp_read32_any (fun _ => rfl) fun _ _ => trivial
  have same := Program.wp_ok seen ran
  exact same

/-- Left of the block everything is inside, when the footer in front points into the
heap. -/
theorem unifyLeftIn_eq (low : 8 ≤ header) (top : K.heap.hAddrEnd < 4294967296)
    (front : K.heap.hAddrStart + 8 ≤ header) (block : header + 12 ≤ K.heap.hAddrEnd)
    (h1 : K.heap.hAddrStart ≤ footer) (h2 : footer + 8 ≤ K.heap.hAddrEnd)
    (pointer : K.view.word (header - 8) = vmHeapFtrMagic →
      K.heap.hAddrStart ≤ K.view.word (header - 4) + 4 ∧
        K.view.word (header - 4) + 8 ≤ K.heap.hAddrEnd)
    (hole : K.view.word (header - 8) = vmHeapFtrMagic →
      K.view.word (K.view.word (header - 4) + 4) = 1 →
        K.view.word (header - 4) + 12 ≤ K.heap.hAddrEnd) :
    unifyLeftIn header footer K = unifyLeft header footer K := by
  have behind : sub32 header sizeofFooter = header - 8 := sub32_eq low (by omega)
  have header4 : add32 (header - 8) 4 = header - 4 := by rw [add32_eq (by omega)]; omega
  rw [unifyLeftIn, unifyLeft, behind]
  refine bind_run_congr (inHeap_eq _ (by omega) (by omega)) fun magic K₁ ran => ?_
  obtain ⟨rfl, rfl⟩ := read32_ok ran
  by_cases found : K₁.view.word (header - 8) = vmHeapFtrMagic
  · rw [if_pos found, if_pos found]
    obtain ⟨p1, p2⟩ := pointer found
    refine bind_run_congr (inHeap_eq _ (by omega) (by omega)) fun left K₂ ran₂ => ?_
    obtain ⟨rfl, rfl⟩ := read32_ok ran₂
    rw [header4]
    have left4 : add32 (K₂.view.word (header - 4)) 4 = K₂.view.word (header - 4) + 4 :=
      add32_eq (by omega)
    refine bind_run_congr (inHeap_eq _ (by omega) (by omega)) fun flag K₃ ran₃ => ?_
    obtain ⟨rfl, rfl⟩ := read32_ok ran₃
    rw [left4]
    by_cases isHole : K₃.view.word (K₃.view.word (header - 4) + 4) = 1
    · rw [if_pos isHole, if_pos isHole]
      have p3 := hole found isHole
      generalize K₃.view.word (header - 4) = left at *
      have header8 : add32 header 8 = header + 8 := add32_eq (by omega)
      have left8 : add32 left 8 = left + 8 := add32_eq (by omega)
      have footer4 : add32 footer 4 = footer + 4 := add32_eq (by omega)
      refine bind_run_congr (inHeap_eq _ (by omega) (by omega)) fun size K₄ ran₄ => ?_
      obtain ⟨rfl, -⟩ := read32_ok ran₄
      refine bind_run_congr (inHeap_eq _ (by omega) (by omega)) fun _ K₅ ran₅ => ?_
      have heap₅ : K₅.heap = K₄.heap := (write32_keeps _ _).of_ok ran₅
      refine bind_run_congr (inHeap_eq _ ?_ ?_) fun leftSize K₆ ran₆ => ?_
      · rw [heap₅]
        omega
      · rw [heap₅]
        omega
      · obtain ⟨rfl, -⟩ := read32_ok ran₆
        refine bind_run_congr (inHeap_eq _ ?_ ?_) fun _ _ _ => rfl
        · rw [heap₅]
          omega
        · rw [heap₅]
          omega
    · rw [if_neg isHole, if_neg isHole]
  · rw [if_neg found, if_neg found]

/-- So is everything on the right, when there is a block. -/
theorem unifyRightIn_eq (top : K.heap.hAddrEnd < 4294967296) (h1 : K.heap.hAddrStart ≤ header)
    (h2 : header + 12 ≤ K.heap.hAddrEnd) (h3 : K.heap.hAddrStart ≤ footer)
    (block : footer + 20 ≤ K.heap.hAddrEnd) :
    unifyRightIn header footer K = unifyRight header footer K := by
  have behind : add32 footer sizeofFooter = footer + 8 := add32_eq (by unfold sizeofFooter; omega)
  have test4 : add32 (footer + 8) 4 = footer + 12 := by rw [add32_eq (by omega)]
  have test8 : add32 (footer + 8) 8 = footer + 16 := by rw [add32_eq (by omega)]
  have header8 : add32 header 8 = header + 8 := add32_eq (by omega)
  rw [unifyRightIn, unifyRight, behind]
  refine bind_run_congr (inHeap_eq _ (by omega) (by omega)) fun magic K₁ ran => ?_
  obtain ⟨rfl, rfl⟩ := read32_ok ran
  by_cases found : K₁.view.word (footer + 8) = vmHeapHdrMagic
  · rw [if_pos found, if_pos found]
    refine bind_run_congr (inHeap_eq _ (by omega) (by omega)) fun flag K₂ ran₂ => ?_
    obtain ⟨rfl, -⟩ := read32_ok ran₂
    by_cases isHole : flag ≠ 0
    · rw [if_pos isHole, if_pos isHole]
      refine bind_run_congr (inHeap_eq _ (by omega) (by omega)) fun size K₃ ran₃ => ?_
      obtain ⟨rfl, -⟩ := read32_ok ran₃
      refine bind_run_congr (inHeap_eq _ (by omega) (by omega)) fun rightSize K₄ ran₄ => ?_
      obtain ⟨rfl, -⟩ := read32_ok ran₄
      refine bind_run_congr (inHeap_eq _ (by omega) (by omega)) fun _ K₅ ran₅ => ?_
      have heap₅ : K₅.heap = K₄.heap := (write32_keeps _ _).of_ok ran₅
      refine bind_run_congr (inHeap_eq _ ?_ ?_) fun _ _ _ => rfl
      · rw [heap₅]
        omega
      · rw [heap₅]
        omega
    · rw [if_neg isHole, if_neg isHole]
  · rw [if_neg found, if_neg found]

/-- The contraction rewrites tags that lie below the new end. -/
theorem shrinkIn_eq {pre : List Block} {x s : Nat} {u : List Nat}
    (h : HeapInv K (pre ++ [⟨x, s, none⟩]) u) (room : x - K.heap.hAddrStart + 20 ≤ vmHeapMinSize)
    (long : vmHeapMinSize ≤ K.heap.hAddrEnd - K.heap.hAddrStart) (testHeader : Nat) :
    shrinkIn x testHeader K = shrink x testHeader K := by
  have member : (⟨x, s, none⟩ : Block) ∈ pre ++ [⟨x, s, none⟩] := by simp
  have tagged := h.blocks.tagged _ member
  have bounds := h.blocks.bounds member
  have size := tagged.header.size
  have ends : x + s = K.heap.hAddrEnd := h.blocks.cut.2.tiles
  have top := h.top
  have low := h.low
  have minimum : vmHeapMinSize = 0x70000 := rfl
  dsimp only at bounds size
  have length : sub32 K.heap.hAddrEnd K.heap.hAddrStart = K.heap.hAddrEnd - K.heap.hAddrStart :=
    sub32_eq (by omega) top
  have offset : sub32 x K.heap.hAddrStart = x - K.heap.hAddrStart := sub32_eq (by omega) (by omega)
  have left : sub32 s (sub32 (K.heap.hAddrEnd - K.heap.hAddrStart) vmHeapMinSize) =
      K.heap.hAddrStart + vmHeapMinSize - x := by
    rw [sub32_eq (by omega : vmHeapMinSize ≤ _) (by omega), sub32_eq (by omega) (by omega)]
    omega
  have x8 : add32 x 8 = x + 8 := add32_eq (by omega)
  rw [shrinkIn, shrink]
  refine bind_run_congr rfl fun K₀ _ got => ?_
  obtain ⟨rfl, rfl⟩ := Prod.mk.inj (Except.ok.inj got)
  rw [length, offset]
  refine bind_run_congr rfl fun newLength K₁ ran => ?_
  have cut := Program.wp_ok (wp_contract (E := fun _ => True) h (by omega) long) ran
  obtain ⟨rfl, K₂, unmapped, rfl⟩ := cut
  have sees : Sees { K₂ with heap := { K.heap with
      hAddrEnd := K.heap.hAddrStart + vmHeapMinSize } } (K.heap.hAddrStart - 0x1000)
      (K.heap.hAddrStart + vmHeapMinSize) K.view :=
    (h.sees.mono (Nat.le_refl _) (by omega)).congr unmapped.mem unmapped.paging
      fun a _ h2 => unmapped.below a h2
  refine bind_run_congr (inHeap_eq _ (by dsimp only; omega) (by dsimp only; omega))
    fun rest K₃ ran₃ => ?_
  have read := Program.wp_ok ((wp_hhSize (Q := fun v K' => v = s ∧ K' = _) (E := fun _ => True) sees
    (by omega) (by omega) (by omega)).mpr ⟨size, rfl⟩) ran₃
  obtain ⟨rfl, rfl⟩ := read
  rw [left]
  by_cases more : 0 < K.heap.hAddrStart + vmHeapMinSize - x
  · rw [if_pos more, if_pos more]
    refine bind_run_congr (inHeap_eq _ (by dsimp only; omega) (by dsimp only; omega))
      fun _ K₄ ran₄ => ?_
    have wrote := Program.wp_ok (wp_setHhSize (E := fun _ => True) (Q := fun _ K' =>
      K'.heap = { K.heap with hAddrEnd := K.heap.hAddrStart + vmHeapMinSize } ∧
        K'.view.word (x + 8) = K.heap.hAddrStart + vmHeapMinSize - x) sees (by omega) (by omega)
      (by omega) fun mem sees => ⟨rfl, (sees.word (by omega) (by omega)).trans
        (Mem.word_setWord (by omega))⟩) ran₄
    obtain ⟨heap₄, size₄⟩ := wrote
    refine bind_run_congr (inHeap_eq _ ?_ ?_) fun size₅ K₅ ran₅ => ?_
    · rw [heap₄]
      dsimp only
      omega
    · rw [heap₄]
      dsimp only
      omega
    · obtain ⟨rfl, rfl⟩ := read32_ok ran₅
      rw [x8, size₄]
      have footer : sub32 (add32 x (K.heap.hAddrStart + vmHeapMinSize - x)) sizeofFooter =
          K.heap.hAddrStart + vmHeapMinSize - 8 := by
        unfold sub32 add32 sizeofFooter
        omega
      have footer4 : add32 (K.heap.hAddrStart + vmHeapMinSize - 8) 4 =
          K.heap.hAddrStart + vmHeapMinSize - 4 := by
        unfold add32
        omega
      rw [footer, setFooterIn, setFooter]
      refine bind_run_congr (inHeap_eq _ ?_ ?_) fun _ K₆ ran₆ => inHeap_eq _ ?_ ?_
      · rw [heap₄]
        dsimp only
        omega
      · rw [heap₄]
        dsimp only
        omega
      · rw [footer4, (write32_keeps _ _).of_ok ran₆, heap₄]
        dsimp only
        omega
      · rw [footer4, (write32_keeps _ _).of_ok ran₆, heap₄]
        dsimp only
        omega
  · rw [if_neg more, if_neg more]

end Inside

/-! ## free -/

/-- A block with a neighbour on each side, where the word in front is not taken for
the footer of something outside the heap. -/
structure FreeInside (K : KState) (header : Nat) : Prop where
  front : K.heap.hAddrStart < header
  behind : K.blockEnd header < K.heap.hAddrEnd
  pointer : K.view.word (header - 8) = vmHeapFtrMagic →
    K.heap.hAddrStart ≤ K.view.word (header - 4) + 4 ∧
      K.view.word (header - 4) + 8 ≤ K.heap.hAddrEnd

section Coalesce

variable {R : Resize} {K : KState} {pre post : List Block} {header s : Nat}

/-- The block in front of one that is not the first. -/
theorem front_room {u : List Nat} {b : Block} (h : HeapInv K (pre ++ b :: post) u)
    (front : K.heap.hAddrStart < b.addr) : K.heap.hAddrStart + 20 ≤ b.addr := by
  obtain ⟨left, -⟩ := h.blocks.cut
  cases pre with
  | nil =>
      have same : K.heap.hAddrStart = b.addr := left.tiles
      omega
  | cons c pre =>
      have big := (left.tagged c List.mem_cons_self).big
      have bounds := left.bounds (b := c) List.mem_cons_self
      omega

/-- The block behind one that is not the last. -/
theorem behind_room {u : List Nat} {b : Block} (h : HeapInv K (pre ++ b :: post) u)
    (behind : b.addr + b.size < K.heap.hAddrEnd) :
    b.addr + b.size + 20 ≤ K.heap.hAddrEnd := by
  have right := h.blocks.cut.2
  cases post with
  | nil =>
      have same : b.addr + b.size = K.heap.hAddrEnd := right.tiles
      omega
  | cons c post =>
      have start : c.addr = b.addr + b.size := right.tiles.1
      have big := (right.tagged c (by simp)).big
      have bounds := right.bounds (b := c) (by simp)
      omega

/-- The hole that is found on the left is inside. -/
theorem left_inside {u : List Nat} (h : HeapInv K (pre ++ ⟨header, s, none⟩ :: post) u)
    (sound : ∀ l, K.leftHole header = some l → l ∈ K.indexed ∧ l + K.view.word (l + 8) = header)
    (fits : K.view.word (header - 4) + 8 ≤ K.heap.hAddrEnd)
    (magic : K.view.word (header - 8) = vmHeapFtrMagic)
    (hole : K.view.word (K.view.word (header - 4) + 4) = 1) :
    K.view.word (header - 4) + 12 ≤ K.heap.hAddrEnd := by
  have top := h.top
  have left4 : add32 (K.view.word (header - 4)) 4 = K.view.word (header - 4) + 4 :=
    add32_eq (by omega)
  have found : K.leftHole header = some (K.view.word (header - 4)) := if_pos ⟨magic, by rwa [left4]⟩
  have inside := h.hole_of_indexed (sound _ found).1
  have big := (h.blocks.tagged _ inside).big
  have bounds := h.blocks.bounds inside
  dsimp only at big bounds
  omega

/-- The unifications and the contraction stay inside. -/
theorem coalesceIn_eq (h : HeapInv K (pre ++ ⟨header, s, none⟩ :: post) [header])
    (sound : FreeSound R K header) (inside : FreeInside K header) :
    coalesceIn header (header + s - 8) K = coalesce header (header + s - 8) K := by
  have member : (⟨header, s, none⟩ : Block) ∈ pre ++ ⟨header, s, none⟩ :: post := by simp
  have size := (h.blocks.tagged _ member).header.size
  have big := (h.blocks.tagged _ member).big
  have bounds := h.blocks.bounds member
  have top := h.top
  have low := h.low
  dsimp only at size big bounds
  have blockEnd : K.blockEnd header = header + s := by rw [KState.blockEnd, size]
  have front := front_room h inside.front
  have behind := behind_room h (by rw [← blockEnd]; exact inside.behind)
  dsimp only at front behind
  rw [coalesceIn, coalesce]
  refine bind_run_congr (unifyLeftIn_eq (by omega) top (by omega) (by omega) (by omega) (by omega)
    inside.pointer fun magic => left_inside h sound.left (inside.pointer magic).2 magic) ?_
  rintro ⟨x, doAdd⟩ K₂ ran
  have unified := Program.wp_ok (wp_unifyLeft h sound.left fun impossible : False => impossible.elim) ran
  obtain ⟨pre', result, same, end₂, reshaped, inv, front', keeps₂, footer₂⟩ := unified
  obtain ⟨rfl, rfl⟩ := Prod.mk.inj result
  rw [← KState.mergedAt] at *
  dsimp only at inv reshaped ⊢
  have first : (⟨K.mergedAt header, header + s - K.mergedAt header, none⟩ : Block) ∈
      pre' ++ ⟨K.mergedAt header, header + s - K.mergedAt header, none⟩ :: post := by simp
  have big₂ := (inv.blocks.tagged _ first).big
  have bounds₂ := inv.blocks.bounds first
  have start₂ := reshaped.start
  dsimp only at big₂ bounds₂
  have ends : K.mergedAt header + (header + s - K.mergedAt header) = header + s := by omega
  have own : ∀ a ∈ (if (K.leftHole header).isNone = true then [header] else []),
      a = K.mergedAt header := by
    rw [KState.mergedAt]
    cases K.leftHole header with
    | none => simp
    | some l => simp
  refine bind_run_congr (unifyRightIn_eq (by omega) (by omega) (by omega) (by omega) (by omega)) ?_
  intro footer K₃ ran₃
  have merged := wp_unifyRight inv own fun impossible : False => impossible.elim
  rw [ends] at merged
  obtain ⟨rfl, -, end₃, reshaped₃, inv₃, -⟩ := Program.wp_ok merged ran₃
  have right₂ := rightEnd_of_cut inv
  have right := rightEnd_of_cut h
  dsimp only at right₂ right
  rw [ends, ← right] at right₂
  rw [right₂] at inv₃ ⊢
  have big₃ := (inv₃.blocks.tagged
    ⟨K.mergedAt header, K.rightEnd (header + s) - K.mergedAt header, none⟩ (by simp)).big
  have bounds₃ := inv₃.blocks.bounds
    (b := ⟨K.mergedAt header, K.rightEnd (header + s) - K.mergedAt header, none⟩) (by simp)
  have start₃ := reshaped₃.start
  dsimp only at big₃ bounds₃
  have last : add32 (K.rightEnd (header + s) - 8) sizeofFooter = K.rightEnd (header + s) := by
    unfold add32 sizeofFooter
    omega
  refine bind_run_congr rfl fun K₀ _ got => ?_
  obtain ⟨rfl, rfl⟩ := Prod.mk.inj (Except.ok.inj got)
  rw [last]
  by_cases atEnd : K.rightEnd (header + s) = K₃.heap.hAddrEnd
  · rw [if_pos atEnd, if_pos atEnd]
    obtain ⟨room, long⟩ := sound.contracts (by rw [blockEnd, atEnd, end₃, end₂])
    rw [← KState.mergedAt] at room
    have nil : overHole post = [] := by
      have tail := inv₃.blocks.cut.2
      dsimp only at tail
      rw [Nat.add_sub_cancel' (by omega)] at tail
      exact tail.eq_nil (by omega)
    rw [nil] at inv₃
    have same₃ := shrinkIn_eq inv₃ (by omega) (by omega) (add32 (header + s - 8) sizeofFooter)
    exact bind_run_congr same₃ fun _ _ _ => rfl
  · rw [if_neg atEnd, if_neg atEnd]

/-- Otherwise one of the words that are looked at is outside. -/
theorem coalesceIn_faults (h : HeapInv K (pre ++ ⟨header, s, none⟩ :: post) [header])
    (sound : FreeSound R K header) (outside : ¬FreeInside K header) :
    ∃ a, coalesceIn header (header + s - 8) K = .error (.panic (.pageFault a)) := by
  have member : (⟨header, s, none⟩ : Block) ∈ pre ++ ⟨header, s, none⟩ :: post := by simp
  have size := (h.blocks.tagged _ member).header.size
  have big := (h.blocks.tagged _ member).big
  have bounds := h.blocks.bounds member
  have top := h.top
  have low := h.low
  dsimp only at size big bounds
  have blockEnd : K.blockEnd header = header + s := by rw [KState.blockEnd, size]
  have testFooter : sub32 header sizeofFooter = header - 8 :=
    sub32_eq (by unfold sizeofFooter; omega) (by omega)
  by_cases front : K.heap.hAddrStart < header
  · have room := front_room h front
    dsimp only at room
    by_cases pointer : K.view.word (header - 8) = vmHeapFtrMagic →
        K.heap.hAddrStart ≤ K.view.word (header - 4) + 4 ∧
          K.view.word (header - 4) + 8 ≤ K.heap.hAddrEnd
    · -- the left is inside, so it is the header on the right
      have behind : ¬header + s < K.heap.hAddrEnd := fun inner =>
        outside ⟨front, by rwa [blockEnd], pointer⟩
      have same : unifyLeftIn header (header + s - 8) K = unifyLeft header (header + s - 8) K :=
        unifyLeftIn_eq (by omega) top (by omega) (by omega) (by omega) (by omega) pointer
          fun magic => left_inside h sound.left (pointer magic).2 magic
      have unify := wp_unifyLeft h sound.left fun (_ : True) magic => by
        obtain ⟨p1, p2⟩ := pointer magic
        rw [add32_eq (by omega)]
        exact ⟨_, h.sees.peek32 (by omega) (by omega)⟩
      obtain ⟨⟨x, doAdd⟩, K₂, ran, -, -, -, end₂, -⟩ := Program.wp_some
        (Program.wp_mono unify (fun _ _ post => post) fun _ safe => safe trivial)
      refine ⟨header + s, ?_⟩
      have behindFooter : add32 (header + s - 8) sizeofFooter = header + s := by
        unfold add32 sizeofFooter
        omega
      rw [coalesceIn, bind_run_ok (same.trans ran)]
      refine bind_run_error ?_
      rw [unifyRightIn, behindFooter]
      exact bind_run_error (inHeap_outside _ (.inr (by omega)))
    · obtain ⟨magic, far⟩ := Classical.not_imp.mp pointer
      refine ⟨add32 (K.view.word (header - 4)) 4, ?_⟩
      have header4 : add32 (header - 8) 4 = header - 4 := by
        rw [add32_eq (by omega)]
        omega
      have first : hfMagicIn (header - 8) K = .ok (K.view.word (header - 8), K) :=
        inHeap_read h.sees (by omega) (by omega) (by omega)
      have second : hfHeaderIn (header - 8) K = .ok (K.view.word (header - 4), K) := by
        rw [hfHeaderIn, hfHeader, header4]
        exact inHeap_read h.sees (by omega) (by omega) (by omega)
      have small := Mem.word_lt K.view (header - 4)
      rw [coalesceIn]
      refine bind_run_error ?_
      rw [unifyLeftIn, testFooter, bind_run_ok first, if_pos magic, bind_run_ok second]
      refine bind_run_error (inHeap_outside _ ?_)
      unfold add32
      omega
  · refine ⟨header - 8, ?_⟩
    rw [coalesceIn]
    refine bind_run_error ?_
    rw [unifyLeftIn, testFooter]
    exact bind_run_error (inHeap_outside _ (.inl (by omega)))

end Coalesce

section Free

variable {R : Resize} {K : KState} {bs : List Block} {header s r : Nat}

/-- The tags of a live block are inside. -/
theorem freeIn_marked (h : HeapInv K bs) (member : (⟨header, s, some r⟩ : Block) ∈ bs) :
    freeIn (header + 12) K = coalesceIn header (header + s - 8) (K.marked header) := by
  have tagged := h.blocks.tagged _ member
  have bounds := h.blocks.bounds member
  have big := tagged.big
  have size := tagged.header.size
  have magic := tagged.header.magic
  have magic' := (tagged.footer r rfl).magic
  have low := h.low
  have top := h.top
  dsimp only at bounds big size magic magic'
  have head : sub32 (header + 12) sizeofHeader = header := by
    unfold sub32 sizeofHeader
    omega
  have footer : sub32 (add32 header s) sizeofFooter = header + s - 8 := by
    unfold sub32 add32 sizeofFooter
    omega
  have first : hhSizeIn header K = .ok (s, K) := by
    rw [hhSizeIn, hhSize, add32_eq (by omega), ← size]
    exact inHeap_read h.sees (by omega) (by omega) (by omega)
  have second : hhMagicIn header K = .ok (vmHeapHdrMagic, K) := by
    rw [← magic]
    exact inHeap_read h.sees (by omega) (by omega) (by omega)
  have third : hfMagicIn (header + s - 8) K = .ok (vmHeapFtrMagic, K) := by
    rw [← magic']
    exact inHeap_read h.sees (by omega) (by omega) (by omega)
  have mark : setHhIsHoleIn header 1 K = .ok ((), K.marked header) := by
    rw [setHhIsHoleIn, setHhIsHole, add32_eq (by omega), inHeap_eq _ (by omega) (by omega)]
    exact write32_eq h.mapped.backed (by omega) (by omega) 1
  have got : (get : KernelM KState) K = .ok (K, K) := rfl
  have head_ok : kassert .headerMagic (vmHeapHdrMagic = vmHeapHdrMagic) K = .ok ((), K) := rfl
  have foot_ok : kassert .footerMagic (vmHeapFtrMagic = vmHeapFtrMagic) K = .ok ((), K) := rfl
  rw [freeIn, bind_run_ok got, if_neg (by rw [h.ready]; simp)]
  dsimp only
  rw [head, bind_run_ok first, footer, bind_run_ok second, bind_run_ok head_ok, bind_run_ok third,
    bind_run_ok foot_ok, bind_run_ok mark]

theorem free_marked (h : HeapInv K bs) (member : (⟨header, s, some r⟩ : Block) ∈ bs) :
    free (header + 12) K = coalesce header (header + s - 8) (K.marked header) :=
  run_eq_of_wp fun _ _ rest => wp_free_marked h member rest

/-- The checks of `freeIn` hold for the blocks with neighbours on both sides. -/
theorem freeIn_iff (h : HeapInv K bs) (member : (⟨header, s, some r⟩ : Block) ∈ bs)
    (sound : FreeSound R (K.marked header) header) :
    (FreeInside (K.marked header) header → freeIn (header + 12) K = free (header + 12) K) ∧
      ((∀ a, freeIn (header + 12) K ≠ .error (.panic (.pageFault a))) ↔
        FreeInside (K.marked header) header) := by
  have both : FreeInside (K.marked header) header →
      freeIn (header + 12) K = free (header + 12) K := by
    intro inside
    rw [freeIn_marked h member, free_marked h member]
    obtain ⟨pre, post, rfl⟩ := List.append_of_mem member
    exact coalesceIn_eq (marked_inv h).1 sound inside
  refine ⟨both, fun never => ?_, fun inside a faults => ?_⟩
  · by_contra outside
    rw [freeIn_marked h member] at never
    obtain ⟨pre, post, rfl⟩ := List.append_of_mem member
    obtain ⟨a, faults⟩ := coalesceIn_faults (marked_inv h).1 sound outside
    exact never a faults
  · rw [both inside, free_marked h member] at faults
    obtain ⟨pre, post, rfl⟩ := List.append_of_mem member
    have marked := (marked_inv h).1
    have crowded := Program.wp_error (wp_coalesce marked sound) faults ⟨fun magic => ?_, ?_⟩
    · cases crowded.1
    · obtain ⟨p1, p2⟩ := inside.pointer magic
      have top := marked.top
      rw [add32_eq (by omega)]
      exact ⟨_, marked.sees.peek32 (by omega) (by omega)⟩
    · intro _ _ _ atEnd
      exact absurd atEnd (Nat.ne_of_lt inside.behind)

end Free

instance (K : KState) (header : Nat) : Decidable (FreeInside K header) :=
  decidable_of_iff (K.heap.hAddrStart < header ∧ K.blockEnd header < K.heap.hAddrEnd ∧
      (K.view.word (header - 8) = vmHeapFtrMagic →
        K.heap.hAddrStart ≤ K.view.word (header - 4) + 4 ∧
          K.view.word (header - 4) + 8 ≤ K.heap.hAddrEnd))
    ⟨fun h => ⟨h.1, h.2.1, h.2.2⟩, fun h => ⟨h.front, h.behind, h.pointer⟩⟩

/-- In every run of sound steps, the next `free` stays inside the heap exactly for the
blocks with a neighbour on each side; for those it is the `free` of the kernel. -/
theorem free_inside_iff {K : KState} {start end_ max : Nat} {su ro : Bool} {s₀ s : HeapState}
    (region : RegionMapped K start end_) (started : Started K start end_ max su ro s₀)
    (reached : Reaches HeapStep (Sound Resize.any) s₀ s) {p r : Nat} (held : (p, r) ∈ s.clients)
    (sound : Sound Resize.any s (.free p)) :
    (FreeInside (s.kernel.marked (p - 12)) (p - 12) → freeIn p s.kernel = free p s.kernel) ∧
      ((∀ a, freeIn p s.kernel ≠ .error (.panic (.pageFault a))) ↔
        FreeInside (s.kernel.marked (p - 12)) (p - 12)) := by
  obtain ⟨bs, inv, -⟩ := run_runInv (started_runInv region started) reached
  obtain ⟨header, z, rfl, member, -⟩ := inv.block (List.mem_append_left _ held)
  have sound : FreeSound Resize.any (s.kernel.marked (header + 12 - 12)) (header + 12 - 12) := sound
  rw [Nat.add_sub_cancel] at sound ⊢
  exact freeIn_iff inv.inv member sound

/-- The second of three blocks. -/
theorem middle_block_stays_inside :
    ∃ s, Reaches HeapStep (Sound Resize.any) bootHeap s ∧ (0xC0081084, 100) ∈ s.clients ∧
      freeIn 0xC0081084 s.kernel = free 0xC0081084 s.kernel ∧
      ∀ a, freeIn 0xC0081084 s.kernel ≠ .error (.panic (.pageFault a)) := by
  have ran : ((([.alloc 100 false, .alloc 100 false, .alloc 100 false] : List HeapOp).foldlM
      (HeapState.nextSound Resize.any 1) bootHeap).map fun s =>
        decide ((0xC0081084, 100) ∈ s.clients ∧
          FreeSound Resize.any (s.kernel.marked (0xC0081084 - 12)) (0xC0081084 - 12) ∧
          FreeInside (s.kernel.marked (0xC0081084 - 12)) (0xC0081084 - 12))) = some true := by
    decide +kernel
  obtain ⟨s, taken, shape⟩ := Option.map_eq_some_iff.mp ran
  obtain ⟨held, sound, inside⟩ := of_decide_eq_true shape
  have reached := HeapState.reaches_of_run Resize.any taken
  have sound : Sound Resize.any s (.free 0xC0081084) := sound
  obtain ⟨same, never⟩ := free_inside_iff bootKState_regionMapped bootHeap_started reached held sound
  exact ⟨s, reached, held, same inside, never.mpr inside⟩

/-- `free` of the first block reads the word in front of the heap. -/
theorem first_block_reads_in_front :
    ∃ s, Reachable HeapStep bootHeap s ∧ (0xC008100C, 100) ∈ s.clients ∧
      s.kernel.heap.hAddrStart = 0xC0081000 ∧
      freeIn 0xC008100C s.kernel = .error (.panic (.pageFault 0xC0080FF8)) := by
  have ran : ((([.alloc 100 false] : List HeapOp).foldlM (HeapState.next 1) bootHeap).map fun s =>
        decide ((0xC008100C, 100) ∈ s.clients ∧ s.kernel.heap.hAddrStart = 0xC0081000 ∧
          (freeIn 0xC008100C s.kernel).map (fun _ => ()) =
            .error (.panic (.pageFault 0xC0080FF8)))) = some true := by
    decide +kernel
  obtain ⟨s, taken, shape⟩ := Option.map_eq_some_iff.mp ran
  obtain ⟨held, start, faults⟩ := of_decide_eq_true shape
  refine ⟨s, HeapState.reachable_of_run taken, held, start, ?_⟩
  cases run : freeIn 0xC008100C s.kernel with
  | ok r =>
      rw [run] at faults
      cases faults
  | error e =>
      rw [run] at faults
      exact congrArg _ (Except.error.inj faults)

end MiniKernel.Kernel
