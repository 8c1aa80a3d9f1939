/-
# Kernel.HeapTrim -- freeing at the end of the heap

A block that ends the heap once it is unified makes `free` call `contract`, whose
new length depends on the offset of the hole only.  `Trimmed` is what should be
left: the other live blocks below the new end, and in front of the end a hole with
room for its tags, or nothing.  It is left exactly when the hole keeps 20 bytes
below `VM_HEAP_MIN_SIZE`.

The first half tracks `struct vm_heap` through the steps of `free`, whatever they
read and write in memory; it is for the runs that go wrong.
-/
import MiniKernel.Kernel.HeapCoalesce
import MiniKernel.Kernel.HeapFields

namespace MiniKernel.Kernel

open Theory VmPageDirectory

set_option autoImplicit false

/-! ## The fields of the heap -/

section Fields

variable {K : KState}

/-- `contract` sets the end of the heap, and stops on a length that is not less. -/
theorem contract_heap (o : Nat) :
    Program.wp (contract o) (fun r K' => r = contractSize o ∧
      o < sub32 K.heap.hAddrEnd K.heap.hAddrStart ∧
      K'.heap = { K.heap with hAddrEnd := add32 K.heap.hAddrStart (contractSize o) })
      (fun _ => True) K := by
  rw [contract, Program.wp_bind, Program.wp_get, Program.wp_bind, wp_kassert]
  refine ⟨fun less => ?_, fun _ => trivial⟩
  dsimp only
  generalize sub32 (sub32 K.heap.hAddrEnd K.heap.hAddrStart) 0x1000 / 0x1000 + 1 = n
  refine Program.wp_bind_of (contractLoop_keeps _ _ _ _) ?_
  rintro ⟨⟩ K₁ same
  rw [Program.wp_bind, Program.wp_modify, Program.wp_pure, same]
  exact ⟨rfl, less, rfl⟩

theorem insertIndex_heap (x : Nat) :
    Program.wp (insertIndex x) (fun _ K' => K'.heap.hAddrEnd = K.heap.hAddrEnd ∧ x ∈ K'.indexed)
      (fun _ => True) K := by
  unfold Program.wp insertIndex
  cases ran : K.heap.hIndex.insertSortedArray (callCmp K) x with
  | error e => trivial
  | ok index =>
      obtain ⟨k, le, list, -⟩ := SortedArray.insertSortedArray_returned ran
      refine ⟨rfl, ?_⟩
      have mem : x ∈ index.toList := by
        rw [list]
        exact (List.mem_insertIdx le).mpr (.inl rfl)
      exact mem

/-- Entries other than that of `testHeader` stay in the index. -/
theorem shrink_heap (x testHeader : Nat) :
    Program.wp (shrink x testHeader) (fun _ K' =>
      sub32 x K.heap.hAddrStart < sub32 K.heap.hAddrEnd K.heap.hAddrStart ∧
      K'.heap.hAddrEnd = add32 K.heap.hAddrStart (contractSize (sub32 x K.heap.hAddrStart)) ∧
      (∀ a ∈ K'.indexed, a ∈ K.indexed) ∧ ∀ a ∈ K.indexed, a ≠ testHeader → a ∈ K'.indexed)
      (fun _ => True) K := by
  rw [shrink, Program.wp_bind, Program.wp_get]
  dsimp only
  refine Program.wp_bind_of (contract_heap _) ?_
  rintro _ K₁ ⟨rfl, less, heap₁⟩
  have indexed₁ : K₁.indexed = K.indexed := by rw [KState.indexed, heap₁]; rfl
  have end₁ : K₁.heap.hAddrEnd = add32 K.heap.hAddrStart (contractSize (sub32 x K.heap.hAddrStart)) := by
    rw [heap₁]
  -- every way to the end leaves the heap as `contract` did, but for one entry
  have stays : ∀ K' : KState, K'.heap = K₁.heap →
      sub32 x K.heap.hAddrStart < sub32 K.heap.hAddrEnd K.heap.hAddrStart ∧
      K'.heap.hAddrEnd = add32 K.heap.hAddrStart (contractSize (sub32 x K.heap.hAddrStart)) ∧
      (∀ a ∈ K'.indexed, a ∈ K.indexed) ∧ ∀ a ∈ K.indexed, a ≠ testHeader → a ∈ K'.indexed := by
    intro K' same
    have indexed : K'.indexed = K.indexed := by rw [← indexed₁, KState.indexed, same]; rfl
    rw [indexed, same, end₁]
    exact ⟨less, rfl, fun _ h => h, fun _ h _ => h⟩
  refine (Program.wp_bind _ _ _ _ _).mpr (wp_read32_any (fun _ => ?_) fun _ _ => trivial)
  rw [Program.wp_ite]
  refine ⟨fun _ => ?_, fun _ => ?_⟩
  · refine Program.wp_bind_of (write32_keeps _ _ _) fun _ K₂ same₂ => ?_
    refine (Program.wp_bind _ _ _ _ _).mpr (wp_read32_any (fun _ => ?_) fun _ _ => trivial)
    exact Program.wp_mono (setFooter_keeps _ _ _) (fun _ K₃ same₃ => stays K₃ (same₃.trans same₂))
      fun _ h => h
  · rw [Program.wp_bind]
    refine wp_searchIndex (fun k at_k => ?_) fun missing => ?_
    · rw [Program.wp_bind, Program.wp_get, Program.wp_ite]
      refine ⟨fun _ => wp_removeIndex at_k fun index erased _ _ => ?_, fun _ => stays K₁ rfl⟩
      have list : KState.indexed (K₁.setIndex index) = K.indexed.eraseIdx k := by
        rw [← indexed₁]
        exact erased
      rw [list]
      refine ⟨less, end₁, fun a mem => List.mem_of_mem_eraseIdx mem, fun a mem other => ?_⟩
      obtain ⟨j, inside, rfl⟩ := List.getElem_of_mem mem
      rw [indexed₁] at at_k
      refine List.mem_eraseIdx_iff_getElem?.mpr ⟨j, ?_, List.getElem?_eq_getElem inside⟩
      rintro rfl
      rw [List.getElem?_eq_getElem inside] at at_k
      exact other (Option.some.inj at_k)
    · rw [Program.wp_bind, Program.wp_get, Program.wp_ite]
      exact ⟨fun inside => absurd inside (Nat.lt_irrefl _), fun _ => stays K₁ rfl⟩

/-- The end of `free` on a hole that ends the heap and has an entry, or gets one. -/
theorem finishFree_listed {x testHeader : Nat} {doAdd : Bool}
    (listed : doAdd = true ∨ x ∈ K.indexed ∧ x ≠ testHeader) :
    Program.wp (finishFree x K.heap.hAddrEnd testHeader doAdd) (fun _ K' =>
      sub32 x K.heap.hAddrStart < sub32 K.heap.hAddrEnd K.heap.hAddrStart ∧
      K'.heap.hAddrEnd = add32 K.heap.hAddrStart (contractSize (sub32 x K.heap.hAddrStart)) ∧
      x ∈ K'.indexed) (fun _ => True) K := by
  rw [finishFree, Program.wp_bind, Program.wp_get, if_pos rfl]
  refine Program.wp_bind_of (shrink_heap x testHeader) ?_
  rintro ⟨⟩ K₁ ⟨less, end₁, -, stays⟩
  rw [Program.wp_ite]
  refine ⟨fun _ => ?_, fun old => ?_⟩
  · refine Program.wp_mono (insertIndex_heap x) ?_ fun _ h => h
    rintro _ K₂ ⟨end₂, mem⟩
    exact ⟨less, end₂.trans end₁, mem⟩
  · obtain ⟨mem, other⟩ := listed.resolve_left old
    exact ⟨less, end₁, stays x mem other⟩

/-- The end of `free` on a hole that is not filed. -/
theorem finishFree_unlisted (x e testHeader : Nat) :
    Program.wp (finishFree x e testHeader false) (fun _ K' =>
      (K'.heap.hAddrEnd = K.heap.hAddrEnd ∨
        ∃ o, o < sub32 K.heap.hAddrEnd K.heap.hAddrStart ∧
          K'.heap.hAddrEnd = add32 K.heap.hAddrStart (contractSize o)) ∧
      ∀ a ∈ K'.indexed, a ∈ K.indexed) (fun _ => True) K := by
  rw [finishFree, Program.wp_bind, Program.wp_get, Program.wp_ite]
  refine ⟨fun _ => ?_, fun _ => ⟨.inl rfl, fun _ h => h⟩⟩
  refine Program.wp_bind_of (shrink_heap x testHeader) ?_
  rintro ⟨⟩ K₁ ⟨less, end₁, old, -⟩
  exact ⟨.inr ⟨_, less, end₁⟩, old⟩

theorem unifyRight_heap (x f : Nat) :
    Program.wp (unifyRight x f) (fun _ K' => K'.heap.hAddrEnd = K.heap.hAddrEnd ∧
      K'.heap.hAddrStart = K.heap.hAddrStart ∧ ∀ a ∈ K'.indexed, a ∈ K.indexed)
      (fun _ => True) K := by
  rw [unifyRight]
  refine (Program.wp_bind _ _ _ _ _).mpr (wp_read32_any (fun _ => ?_) fun _ _ => trivial)
  rw [Program.wp_ite]
  refine ⟨fun _ => ?_, fun _ => ⟨rfl, rfl, fun _ h => h⟩⟩
  refine (Program.wp_bind _ _ _ _ _).mpr (wp_read32_any (fun _ => ?_) fun _ _ => trivial)
  rw [Program.wp_ite]
  refine ⟨fun _ => ?_, fun _ => ⟨rfl, rfl, fun _ h => h⟩⟩
  refine (Program.wp_bind _ _ _ _ _).mpr (wp_read32_any (fun _ => ?_) fun _ _ => trivial)
  refine (Program.wp_bind _ _ _ _ _).mpr (wp_read32_any (fun _ => ?_) fun _ _ => trivial)
  refine Program.wp_bind_of (write32_keeps _ _ _) fun _ K₁ same₁ => ?_
  have indexed₁ : K₁.indexed = K.indexed := by rw [KState.indexed, same₁]; rfl
  have end₁ : K₁.heap.hAddrEnd = K.heap.hAddrEnd := by rw [same₁]
  have start₁ : K₁.heap.hAddrStart = K.heap.hAddrStart := by rw [same₁]
  refine (Program.wp_bind _ _ _ _ _).mpr (wp_read32_any (fun _ => ?_) fun _ _ => trivial)
  rw [Program.wp_bind]
  refine wp_searchIndex (fun k at_k => ?_) fun _ => ?_
  · rw [Program.wp_bind, Program.wp_get, Program.wp_bind, wp_kassert]
    refine ⟨fun _ => ?_, fun _ => trivial⟩
    refine (Program.wp_bind _ _ _ _ _).mpr (wp_removeIndex at_k fun index erased _ _ => ?_)
    refine ⟨end₁, start₁, fun a mem => ?_⟩
    have mem : a ∈ index.toList := mem
    rw [erased, indexed₁] at mem
    exact List.mem_of_mem_eraseIdx mem
  · rw [Program.wp_bind, Program.wp_get, Program.wp_bind, wp_kassert]
    exact ⟨fun inside => absurd inside (Nat.lt_irrefl _), fun _ => trivial⟩

/-- A footer that is found in front of the block is taken for that of a hole. -/
theorem unifyLeft_heap {lo hi header : Nat} (sees : Sees K lo hi K.view) (h1 : lo + 8 ≤ header)
    (h2 : header ≤ hi) (top : hi < 4294967296) (footer : Nat) :
    Program.wp (unifyLeft header footer) (fun r K' => K'.heap = K.heap ∧
      r.2 = (K.leftHole header).isNone) (fun _ => True) K := by
  have front : sub32 header sizeofFooter = header - 8 :=
    sub32_eq (by unfold sizeofFooter; omega) (by omega)
  rw [unifyLeft, front, Program.wp_bind, wp_hfMagic sees (by omega) (by omega), Program.wp_ite]
  refine ⟨fun magic => ?_, fun other => ⟨rfl, ?_⟩⟩
  · rw [Program.wp_bind, wp_hfHeader sees (by omega) (by omega) (by omega),
      show header - 8 + 4 = header - 4 by omega]
    refine (Program.wp_bind _ _ _ _ _).mpr (wp_read32_any (fun _ => ?_) fun _ _ => trivial)
    rw [Program.wp_ite]
    refine ⟨fun hole => ?_, fun other => ⟨rfl, ?_⟩⟩
    · refine (Program.wp_bind _ _ _ _ _).mpr (wp_read32_any (fun _ => ?_) fun _ _ => trivial)
      refine Program.wp_bind_of (write32_keeps _ _ _) fun _ K₁ same₁ => ?_
      refine (Program.wp_bind _ _ _ _ _).mpr (wp_read32_any (fun _ => ?_) fun _ _ => trivial)
      refine Program.wp_bind_of (write32_keeps _ _ _) fun _ K₂ same₂ => ?_
      exact ⟨same₂.trans same₁, by rw [KState.leftHole, if_pos ⟨magic, hole⟩]; rfl⟩
    · rw [KState.leftHole, if_neg fun both => other both.2]
      rfl
  · rw [KState.leftHole, if_neg fun both => other both.1]
    rfl

end Fields

/-! ## Freeing at the end -/

/-- The header of the hole that a freed block at `header` becomes part of. -/
def mergedFrom (pre : List Block) (header : Nat) : Nat :=
  match pre.getLast? with
  | some c => mergedBehind c header
  | none => header

@[simp] theorem mergedFrom_nil (header : Nat) : mergedFrom [] header = header := rfl
@[simp] theorem mergedFrom_concat (before : List Block) (c : Block) (header : Nat) :
    mergedFrom (before ++ [c]) header = mergedBehind c header := by
  simp [mergedFrom]

/-- The heap after a free at its end: the other live blocks lie below the new end and
stayed, and the hole at `x` ends there, or is gone. -/
structure Trimmed (K K' : KState) (bs : List Block) (header x : Nat) : Prop where
  others : ∀ c ∈ bs, c.live ≠ none → c.addr ≠ header → c.addr + c.size ≤ K'.heap.hAddrEnd ∧
    ∀ a, c.addr ≤ a → a < c.addr + c.size → K'.view a = K.view a
  trailing : (∃ z, x + z = K'.heap.hAddrEnd ∧ 20 ≤ z ∧ IsHeader K'.view x 1 z ∧
      IsFooter K'.view (K'.heap.hAddrEnd - 8) x ∧ K'.indexed.count x = 1) ∨
    (K'.heap.hAddrEnd ≤ x ∧ x ∉ K'.indexed)

section Freed

variable {K K' : KState} {pre post : List Block} {header s r : Nat}

theorem mergedFrom_bounds (h : HeapInv K (pre ++ ⟨header, s, some r⟩ :: post)) :
    K.heap.hAddrStart ≤ mergedFrom pre header ∧ mergedFrom pre header ≤ header := by
  have bounds := h.blocks.bounds (b := ⟨header, s, some r⟩) (by simp)
  dsimp only at bounds
  obtain rfl | ⟨before, c, rfl⟩ := List.eq_nil_or_concat pre
  · exact ⟨bounds.1, Nat.le_refl _⟩
  · rw [List.concat_eq_append] at h ⊢
    have bounds' := h.blocks.bounds (b := c) (by simp)
    have whole := h.blocks
    rw [List.append_assoc, List.singleton_append] at whole
    have next : header = c.addr + c.size := whole.cut.2.tiles.1
    rw [mergedFrom_concat, mergedBehind]
    split <;> omega

/-- No word in front of the first block passes for the footer of a hole. -/
def NoFalseFooter (K : KState) (pre : List Block) (header : Nat) : Prop :=
  pre = [] → (K.marked header).leftHole header = none

theorem mergedAt_marked (h : HeapInv K (pre ++ ⟨header, s, some r⟩ :: post))
    (footed : Footed K.view (pre ++ ⟨header, s, some r⟩ :: post))
    (front : NoFalseFooter K pre header) :
    (K.marked header).mergedAt header = mergedFrom pre header ∧
      ∀ l, (K.marked header).leftHole header = some l → l ∈ (K.marked header).indexed ∧
        l + (K.marked header).view.word (l + 8) = header := by
  obtain ⟨inv, -, -⟩ := marked_inv h
  have footed' := marked_footed h footed
  obtain rfl | ⟨before, c, rfl⟩ := List.eq_nil_or_concat pre
  · rw [KState.mergedAt, front rfl]
    exact ⟨rfl, fun l found => by cases found⟩
  · rw [List.concat_eq_append, List.append_assoc, List.singleton_append] at inv footed'
    refine ⟨?_, fun l found => leftHole_sound inv footed' found⟩
    rw [KState.mergedAt, leftHole_of_footed inv footed', List.concat_eq_append, mergedFrom_concat,
      mergedBehind]
    split <;> rfl

/-- A hole with room for its tags below the least size. -/
theorem wp_free_last (h : HeapInv K (pre ++ ⟨header, s, some r⟩ :: post))
    (footed : Footed K.view (pre ++ ⟨header, s, some r⟩ :: post))
    (long : vmHeapMinSize ≤ K.heap.hAddrEnd - K.heap.hAddrStart)
    (last : endOver (header + s) post = K.heap.hAddrEnd) (front : NoFalseFooter K pre header)
    (room : mergedFrom pre header - K.heap.hAddrStart + 20 ≤ vmHeapMinSize) :
    Program.wp (free (header + 12)) (fun _ K' =>
      Trimmed K K' (pre ++ ⟨header, s, some r⟩ :: post) header (mergedFrom pre header))
      (fun _ => True) K := by
  have member : (⟨header, s, some r⟩ : Block) ∈ pre ++ ⟨header, s, some r⟩ :: post := by simp
  obtain ⟨inv, kept, -⟩ := marked_inv h
  obtain ⟨at_x, left⟩ := mergedAt_marked h footed front
  have keeps := marked_keeps h
  have marks : K.marked header = { K with mem := (K.marked header).mem } := K.put32_eq _ _
  have start : (K.marked header).heap = K.heap := by rw [marks]
  have right := rightEnd_of_cut inv
  have size := (inv.blocks.tagged ⟨header, s, none⟩ (by simp)).header.size
  have big := (inv.blocks.tagged ⟨header, s, none⟩ (by simp)).big
  dsimp only at right size big
  have blockEnd : (K.marked header).blockEnd header = header + s := by rw [KState.blockEnd, size]
  have ends : (K.marked header).rightEnd (header + s) = (K.marked header).heap.hAddrEnd := by
    rw [right, start, last]
  have sound : FreeSound Resize.any (K.marked header) header := by
    refine ⟨left, fun _ => ?_, fun _ _ => trivial⟩
    rw [← KState.mergedAt, at_x, start]
    exact ⟨room, long⟩
  refine wp_free_marked h member (Program.wp_mono (wp_coalesce inv sound) ?_ fun _ _ => trivial)
  rintro ⟨⟩ K' ⟨pre', -, inv', reshaped, -, written⟩
  obtain ⟨stop, footer, below⟩ := written.last ends
  rw [at_x] at footer below
  rw [KState.coalesced, at_x] at inv' reshaped
  have hole : (⟨mergedFrom pre header, (K.marked header).finalEnd header - mergedFrom pre header,
      none⟩ : Block) ∈ pre' ++ ⟨mergedFrom pre header,
        (K.marked header).finalEnd header - mergedFrom pre header, none⟩ :: overHole post := by simp
  have tagged := inv'.blocks.tagged _ hole
  have large := tagged.big
  have bounds := inv'.blocks.bounds hole
  obtain ⟨ahead, behind⟩ := inv'.blocks.cut
  dsimp only at large bounds ahead behind
  have nothing := behind.eq_nil (by omega)
  rw [nothing] at inv' reshaped
  refine ⟨fun c mem live other => ?_, .inl ⟨_, ?_, large, tagged.header, ?_, ?_⟩⟩
  · have first := kept c mem other
    have second := reshaped.kept c first.mem live
    have before : c ∈ pre' := by
      rcases List.mem_append.mp second.mem with before | same
      · exact before
      · exact absurd (by rw [List.mem_singleton.mp same]) live
    have limits := ahead.bounds before
    have inside := h.blocks.bounds mem
    have apart := (h.blocks.tiles.eq_or_disjoint mem member).resolve_left fun same => other (by
      rw [same])
    have own := (h.blocks.tagged c mem).big
    dsimp only at apart
    refine ⟨by omega, fun a h1 h2 => ?_⟩
    exact (below a (by rw [start]; omega) (by omega)).trans (keeps a (by omega) (by omega) (by omega))
  · rw [stop]
    omega
  · rw [stop]
    exact footer
  · have listed : mergedFrom pre header ∈ K'.indexed :=
      inv'.index.mem_iff.mpr (mem_holes.mpr ⟨_, List.mem_append_right _ List.mem_cons_self⟩)
    exact List.count_eq_one_of_mem inv'.nodup listed

/-- However far the hole is from the start, it has an entry, and `contract` decides
where the heap ends. -/
theorem wp_free_beyond (h : HeapInv K (pre ++ ⟨header, s, some r⟩ :: post))
    (footed : Footed K.view (pre ++ ⟨header, s, some r⟩ :: post))
    (last : endOver (header + s) post = K.heap.hAddrEnd) (front : NoFalseFooter K pre header) :
    Program.wp (free (header + 12)) (fun _ K' =>
      K'.heap.hAddrEnd = add32 K.heap.hAddrStart
        (contractSize (sub32 (mergedFrom pre header) K.heap.hAddrStart)) ∧
      mergedFrom pre header ∈ K'.indexed) (fun _ => True) K := by
  have member : (⟨header, s, some r⟩ : Block) ∈ pre ++ ⟨header, s, some r⟩ :: post := by simp
  obtain ⟨inv, -, -⟩ := marked_inv h
  obtain ⟨at_x, left⟩ := mergedAt_marked h footed front
  have marks : K.marked header = { K with mem := (K.marked header).mem } := K.put32_eq _ _
  have start : (K.marked header).heap = K.heap := by rw [marks]
  have right := rightEnd_of_cut inv
  have big := (inv.blocks.tagged ⟨header, s, none⟩ (by simp)).big
  dsimp only at right big
  refine wp_free_marked h member (wp_unify inv left (fun _ _ => trivial) fun K₃ pre' unified => ?_)
  have heap₃ : K₃.heap.hAddrStart = K.heap.hAddrStart := unified.reshaped.start.trans (by rw [start])
  have end₃ : (K.marked header).rightEnd (header + s) = K₃.heap.hAddrEnd := by
    rw [unified.end_, right, start, last]
  rw [end₃]
  refine Program.wp_mono (finishFree_listed ?_) ?_ fun _ h => h
  · cases found : (K.marked header).leftHole header with
    | none => exact .inl rfl
    | some l =>
        have inv₃ := unified.inv
        rw [found] at inv₃
        have le : (K.marked header).mergedAt header + (K.marked header).view.word (l + 8) = header := by
          rw [KState.mergedAt, found]
          exact (left l found).2
        have listed : (K.marked header).mergedAt header ∈ [] ++ K₃.indexed :=
          inv₃.index.mem_iff.mpr (by simp)
        exact .inr ⟨listed, by omega⟩
  · rintro _ K' ⟨-, stop, listed⟩
    rw [at_x] at stop listed
    rw [heap₃] at stop
    exact ⟨stop, listed⟩

/-- A false footer in front of the first block: the block gets no entry. -/
theorem wp_free_false (h : HeapInv K (⟨header, s, some r⟩ :: post))
    (long : vmHeapMinSize ≤ K.heap.hAddrEnd - K.heap.hAddrStart) {l : Nat}
    (found : (K.marked header).leftHole header = some l) :
    Program.wp (free (header + 12)) (fun _ K' =>
      header < K'.heap.hAddrEnd ∧ header ∉ K'.indexed) (fun _ => True) K := by
  have member : (⟨header, s, some r⟩ : Block) ∈ ⟨header, s, some r⟩ :: post := List.mem_cons_self
  have whole : HeapInv K ([] ++ ⟨header, s, some r⟩ :: post) := h
  obtain ⟨inv, -, -⟩ := marked_inv whole
  have marks : K.marked header = { K with mem := (K.marked header).mem } := K.put32_eq _ _
  have start : (K.marked header).heap = K.heap := by rw [marks]
  have first : header = K.heap.hAddrStart := h.blocks.tiles.1
  have bounds := h.blocks.bounds member
  have big := (h.blocks.tagged _ member).big
  have low := h.low
  have top := h.top
  have nonempty := h.nonempty
  dsimp only at bounds big
  have unlisted : header ∉ K.indexed := by
    intro listed
    cases congrArg Block.live (h.blocks.eq_of_addr (h.hole_of_indexed listed) member rfl)
  refine wp_free_marked h member ?_
  rw [coalesce]
  refine Program.wp_bind_of (unifyLeft_heap inv.sees (by rw [start]; omega) (by rw [start]; omega)
    (by rw [start]; omega) _) ?_
  rintro ⟨x, doAdd⟩ K₁ ⟨heap₁, added⟩
  rw [found] at added
  obtain rfl : doAdd = false := added
  refine Program.wp_bind_of (unifyRight_heap _ _) ?_
  rintro f K₂ ⟨end₂, start₂, old₂⟩
  refine Program.wp_mono (finishFree_unlisted x (add32 f sizeofFooter) _) ?_ fun _ h => h
  rintro _ K₃ ⟨stop, old₃⟩
  rw [end₂, start₂, heap₁, start] at stop
  refine ⟨?_, fun listed => unlisted ?_⟩
  · rcases stop with stop | ⟨o, less, stop⟩
    · omega
    · have le := contractSize_le o
      have ge := vmHeapMinSize_le_contractSize o
      have minimum : vmHeapMinSize = 0x70000 := rfl
      rw [sub32_eq (by omega) (by omega)] at less
      rw [stop, add32_eq (by omega)]
      omega
  · have listed := old₂ _ (old₃ _ listed)
    rw [KState.indexed, heap₁, start] at listed
    exact listed

/-- A trailing hole that is in order begins far enough below the least size. -/
theorem room_of_trimmed (h : HeapInv K (pre ++ ⟨header, s, some r⟩ :: post))
    (footed : Footed K.view (pre ++ ⟨header, s, some r⟩ :: post))
    (long : vmHeapMinSize ≤ K.heap.hAddrEnd - K.heap.hAddrStart)
    (last : endOver (header + s) post = K.heap.hAddrEnd) (front : NoFalseFooter K pre header)
    (ran : free (header + 12) K = .ok ((), K'))
    (trimmed : Trimmed K K' (pre ++ ⟨header, s, some r⟩ :: post) header (mergedFrom pre header)) :
    mergedFrom pre header - K.heap.hAddrStart + 20 ≤ vmHeapMinSize := by
  obtain ⟨stop, listed⟩ := Program.wp_ok (wp_free_beyond h footed last front) ran
  rcases trimmed.trailing with ⟨z, ends, large, -⟩ | ⟨-, missing⟩
  · obtain ⟨low, high⟩ := mergedFrom_bounds h
    have bounds := h.blocks.bounds (b := ⟨header, s, some r⟩) (by simp)
    have top := h.top
    have le := contractSize_le (mergedFrom pre header - K.heap.hAddrStart)
    dsimp only at bounds
    rw [sub32_eq low (by omega), add32_eq (by omega)] at stop
    omega
  · exact absurd listed missing

/-- `free` at the end of the heap leaves it as it should exactly when nothing in front
of the first block passes for a footer and the hole keeps room for its tags below
`VM_HEAP_MIN_SIZE`. -/
theorem trimmed_iff (h : HeapInv K (pre ++ ⟨header, s, some r⟩ :: post))
    (footed : Footed K.view (pre ++ ⟨header, s, some r⟩ :: post))
    (long : vmHeapMinSize ≤ K.heap.hAddrEnd - K.heap.hAddrStart)
    (last : endOver (header + s) post = K.heap.hAddrEnd)
    (ran : free (header + 12) K = .ok ((), K')) :
    Trimmed K K' (pre ++ ⟨header, s, some r⟩ :: post) header (mergedFrom pre header) ↔
      NoFalseFooter K pre header ∧
        mergedFrom pre header - K.heap.hAddrStart + 20 ≤ vmHeapMinSize := by
  constructor
  · intro trimmed
    by_cases front : NoFalseFooter K pre header
    · exact ⟨front, room_of_trimmed h footed long last front ran trimmed⟩
    · obtain ⟨rfl, found⟩ := Classical.not_imp.mp front
      obtain ⟨l, found⟩ := Option.ne_none_iff_exists'.mp found
      obtain ⟨inside, missing⟩ := Program.wp_ok (wp_free_false h long found) ran
      rw [mergedFrom_nil] at trimmed
      rcases trimmed.trailing with ⟨z, -, -, -, -, one⟩ | ⟨outside, -⟩
      · exact absurd (List.count_pos_iff.mp (by omega)) missing
      · omega
  · rintro ⟨front, room⟩
    have trimmed := Program.wp_ok (wp_free_last h footed long last front room) ran
    exact trimmed

end Freed

/-- The second of two small blocks: the hole behind it goes up to the least size. -/
theorem trimmed_behind_small_block :
    ∃ K K' pre post r, free (0xC0081078 + 12) K = .ok ((), K') ∧
      Trimmed K K' (pre ++ ⟨0xC0081078, 120, some r⟩ :: post) 0xC0081078 (mergedFrom pre 0xC0081078) ∧
      K'.heap.hAddrEnd ≠ K.heap.hAddrEnd := by
  have ran : ((([.alloc 100 false, .alloc 100 false] : List HeapOp).foldlM
      (HeapState.nextSound Resize.any 1) bootHeap).map fun s =>
        decide (tags s.kernel.view s.kernel.heap.hAddrEnd 4 s.kernel.heap.hAddrStart =
            some [(0xC0081000, 0, 120), (0xC0081078, 0, 120), (0xC00810F0, 1, 519952)] ∧
          TagsFooted s.kernel.view [(0xC0081000, 0, 120), (0xC0081078, 0, 120),
            (0xC00810F0, 1, 519952)] ∧
          (s.kernel.heap.hAddrStart, s.kernel.heap.hAddrEnd) = (0xC0081000, 0xC0100000) ∧
          ((free (0xC0081078 + 12) s.kernel).toOption.map fun r => r.2.heap.hAddrEnd) =
            some 0xC00F1000)) = some true := by
    decide +kernel
  obtain ⟨s, taken, shape⟩ := Option.map_eq_some_iff.mp ran
  obtain ⟨read, checked, limits, freed⟩ := of_decide_eq_true shape
  obtain ⟨start, end_⟩ := Prod.mk.inj limits
  obtain ⟨⟨⟨⟩, K'⟩, returns, stop⟩ := Option.map_eq_some_iff.mp freed
  have freed := Program.ok_of_toOption returns
  obtain ⟨bs, inv, footed, listed⟩ := inv_of_run taken read checked
  obtain ⟨b₁, bs, rfl, tag₁, listed⟩ := List.map_eq_cons_iff.mp listed
  obtain ⟨b₂, bs, rfl, tag₂, listed⟩ := List.map_eq_cons_iff.mp listed
  obtain ⟨b₃, bs, rfl, tag₃, listed⟩ := List.map_eq_cons_iff.mp listed
  obtain rfl := List.map_eq_nil_iff.mp listed
  obtain ⟨r₁, rfl⟩ := eq_of_tags_live tag₁
  obtain ⟨r₂, rfl⟩ := eq_of_tags_live tag₂
  obtain rfl := eq_of_tags_hole tag₃
  have inv : HeapInv s.kernel ([⟨0xC0081000, 120, some r₁⟩] ++ ⟨0xC0081078, 120, some r₂⟩ ::
      [⟨0xC00810F0, 519952, none⟩]) := inv
  have last : endOver (0xC0081078 + 120) [⟨0xC00810F0, 519952, none⟩] = s.kernel.heap.hAddrEnd := by
    rw [end_]
    rfl
  refine ⟨s.kernel, K', _, _, r₂, freed, (trimmed_iff inv footed ?_ last freed).mpr ⟨?_, ?_⟩, ?_⟩
  · rw [start, end_]
    decide
  · intro empty
    cases empty
  · rw [start]
    exact (by decide : (0xC0081078 : Nat) - 0xC0081000 + 20 ≤ vmHeapMinSize)
  · rw [end_, stop]
    decide

/-- A small block behind one of 0x71000 bytes: the heap is cut to `VM_HEAP_MIN_SIZE`, inside
the block that stays. -/
theorem contraction_passes_live_block :
    ∃ K K' pre post r, HeapInv K (pre ++ ⟨0xC00F2000, 120, some r⟩ :: post) ∧
      Footed K.view (pre ++ ⟨0xC00F2000, 120, some r⟩ :: post) ∧
      endOver (0xC00F2000 + 120) post = K.heap.hAddrEnd ∧ NoFalseFooter K pre 0xC00F2000 ∧
      free (0xC00F2000 + 12) K = .ok ((), K') ∧
      ¬Trimmed K K' (pre ++ ⟨0xC00F2000, 120, some r⟩ :: post) 0xC00F2000
        (mergedFrom pre 0xC00F2000) := by
  have ran : ((([.alloc (0x71000 - 20) false, .alloc 100 false] : List HeapOp).foldlM
      (HeapState.nextSound Resize.any 1) bootHeap).map fun s =>
        decide (tags s.kernel.view s.kernel.heap.hAddrEnd 4 s.kernel.heap.hAddrStart =
            some [(0xC0081000, 0, 0x71000), (0xC00F2000, 0, 120), (0xC00F2078, 1, 57224)] ∧
          TagsFooted s.kernel.view [(0xC0081000, 0, 0x71000), (0xC00F2000, 0, 120),
            (0xC00F2078, 1, 57224)] ∧
          (s.kernel.heap.hAddrStart, s.kernel.heap.hAddrEnd) = (0xC0081000, 0xC0100000) ∧
          (free (0xC00F2000 + 12) s.kernel).toOption.isSome = true)) = some true := by
    decide +kernel
  obtain ⟨s, taken, shape⟩ := Option.map_eq_some_iff.mp ran
  obtain ⟨read, checked, limits, freed⟩ := of_decide_eq_true shape
  obtain ⟨start, end_⟩ := Prod.mk.inj limits
  obtain ⟨⟨⟨⟩, K'⟩, returns⟩ := Option.isSome_iff_exists.mp freed
  have freed := Program.ok_of_toOption returns
  obtain ⟨bs, inv, footed, listed⟩ := inv_of_run taken read checked
  obtain ⟨b₁, bs, rfl, tag₁, listed⟩ := List.map_eq_cons_iff.mp listed
  obtain ⟨b₂, bs, rfl, tag₂, listed⟩ := List.map_eq_cons_iff.mp listed
  obtain ⟨b₃, bs, rfl, tag₃, listed⟩ := List.map_eq_cons_iff.mp listed
  obtain rfl := List.map_eq_nil_iff.mp listed
  obtain ⟨r₁, rfl⟩ := eq_of_tags_live tag₁
  obtain ⟨r₂, rfl⟩ := eq_of_tags_live tag₂
  obtain rfl := eq_of_tags_hole tag₃
  have inv : HeapInv s.kernel ([⟨0xC0081000, 0x71000, some r₁⟩] ++ ⟨0xC00F2000, 120, some r₂⟩ ::
      [⟨0xC00F2078, 57224, none⟩]) := inv
  have last : endOver (0xC00F2000 + 120) [⟨0xC00F2078, 57224, none⟩] = s.kernel.heap.hAddrEnd := by
    rw [end_]
    rfl
  have front : NoFalseFooter s.kernel [⟨0xC0081000, 0x71000, some r₁⟩] 0xC00F2000 := by
    intro empty
    cases empty
  refine ⟨s.kernel, K', _, _, r₂, inv, footed, last, front, freed, fun trimmed => ?_⟩
  have room := room_of_trimmed inv footed (by rw [start, end_]; decide) last front freed trimmed
  rw [start] at room
  exact absurd room (by decide : ¬((0xC00F2000 : Nat) - 0xC0081000 + 20 ≤ vmHeapMinSize))

end MiniKernel.Kernel
