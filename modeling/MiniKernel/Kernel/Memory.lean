/-
# Kernel.Memory -- the kernel's state, and its memory as the MMU shows it

`KState` is what heap.c, kmalloc.c and paging.c work on: the physical memory,
the page directory, the frame bitset and the heap.  Every access goes through
the page tables; one that hits no present entry is a page fault.

`Sees K lo hi m` is the view a heap operation is verified against.  The pages of
`[lo, hi)` are present and no two of them share a frame (`Backed`), and `m` is
what they hold; then reads and writes inside the range are reads and writes of
`m` (`wp_read32`, `wp_write32`), whatever the frames are.
-/
import MiniKernel.Kernel.Paging
import MiniKernel.Kernel.SortedArray
import MiniKernel.Theory.ByteMemory
import MiniKernel.Theory.Word

namespace MiniKernel.Kernel

open Theory

set_option autoImplicit false

/-- The comparison functions a sorted array is created with. -/
inductive CmpFunc where
  /-- `default_cmp_func` -/
  | default
  /-- `vm_heap_header_cmp` -/
  | vmHeapHeader
  deriving DecidableEq, Repr

/-- `struct vm_heap`; the two flags are compared with 0 only. -/
structure VmHeap where
  hIndex : SortedArray Nat CmpFunc
  hAddrStart : Nat
  hAddrEnd : Nat
  hAddrMax : Nat
  hSu : Bool
  hRo : Bool

/-- The state.  `heapReady` is `kernel_heap != NULL`; `heap` is the structure it
then points to. -/
structure KState where
  /-- The physical memory. -/
  mem : Mem
  /-- Paging is switched on. -/
  paging : Bool
  dir : VmPageDirectory
  bits : Bitset
  heapReady : Bool
  heap : VmHeap
  placementAddress : Nat

abbrev KernelM := Program KState Stop

/-- `kassert(msg, cond)` -/
def kassert (a : KAssert) (cond : Prop) [Decidable cond] : KernelM Unit :=
  if cond then pure () else Program.stop (.panic (.assertion a))

namespace KState

/-- The physical address the MMU finds for `a`. -/
def translate (K : KState) (a : Nat) : Option Nat :=
  if K.paging then
    match K.dir.page (pagePtr a) with
    | some v => if v.pPresent then some (v.pFrame * 0x1000 + a % 0x1000) else none
    | none => none
  else some a

/-- The byte at virtual address `a`, when it is mapped. -/
def peek8 (K : KState) (a : Nat) : Except Stop UInt8 :=
  match K.translate a with
  | some p => .ok (K.mem p)
  | none => .error (.panic (.pageFault a))

/-- The word at virtual address `a`. -/
def peek32 (K : KState) (a : Nat) : Except Stop Nat := do
  let b0 ← K.peek8 a
  let b1 ← K.peek8 (a + 1)
  let b2 ← K.peek8 (a + 2)
  let b3 ← K.peek8 (a + 3)
  .ok (b0.toNat + 256 * b1.toNat + 65536 * b2.toNat + 16777216 * b3.toNat)

/-- Store a byte where `a` is mapped. -/
def put8 (K : KState) (a : Nat) (v : UInt8) : KState :=
  match K.translate a with
  | some p => { K with mem := K.mem.setByte p v }
  | none => K

/-- The memory by virtual address, zero where nothing is mapped. -/
def view (K : KState) : Mem := fun a =>
  match K.translate a with
  | some p => K.mem p
  | none => 0

end KState

def read32 (a : Nat) : KernelM Nat := fun K =>
  match K.peek32 a with
  | .ok v => .ok (v, K)
  | .error e => .error e

def write8 (a : Nat) (v : UInt8) : KernelM Unit := fun K =>
  match K.translate a with
  | some _ => .ok ((), K.put8 a v)
  | none => .error (.panic (.pageFault a))

def write32 (a v : Nat) : KernelM Unit := do
  write8 a (UInt8.ofNat v)
  write8 (a + 1) (UInt8.ofNat (v / 256))
  write8 (a + 2) (UInt8.ofNat (v / 65536))
  write8 (a + 3) (UInt8.ofNat (v / 16777216))

/-- `bzero(a, n)` -/
def bzero : Nat → Nat → KernelM Unit
  | _, 0 => pure ()
  | a, n + 1 => do
      write8 a 0
      bzero (a + 1) n

/-! ## Pages with frames of their own -/

/-- The pages of `[lo, hi)` are present and hold pairwise distinct frames. -/
structure Backed (K : KState) (lo hi : Nat) : Prop where
  on : K.paging = true
  present : ∀ a, lo ≤ a → a < hi → ∃ v, K.dir.page (pagePtr a) = some v ∧ v.pPresent = true
  distinct : ∀ a b v w, lo ≤ a → a < hi → lo ≤ b → b < hi → K.dir.page (pagePtr a) = some v →
    K.dir.page (pagePtr b) = some w → v.pFrame = w.pFrame → pagePtr a = pagePtr b

namespace Backed

variable {K K' : KState} {lo hi lo' hi' : Nat}

theorem mono (h : Backed K lo hi) (hlo : lo ≤ lo') (hhi : hi' ≤ hi) : Backed K lo' hi' where
  on := h.on
  present a h1 h2 := h.present a (by omega) (by omega)
  distinct a b v w h1 h2 h3 h4 := h.distinct a b v w (by omega) (by omega) (by omega) (by omega)

/-- Only the entries of the range matter. -/
theorem congr (h : Backed K lo hi) (paging : K'.paging = K.paging)
    (same : ∀ a, lo ≤ a → a < hi → K'.dir.page (pagePtr a) = K.dir.page (pagePtr a)) :
    Backed K' lo hi where
  on := paging.trans h.on
  present a h1 h2 := by
    rw [same a h1 h2]
    exact h.present a h1 h2
  distinct a b v w h1 h2 h3 h4 hv hw := by
    rw [same a h1 h2] at hv
    rw [same b h3 h4] at hw
    exact h.distinct a b v w h1 h2 h3 h4 hv hw

theorem translate (h : Backed K lo hi) {a : Nat} (h1 : lo ≤ a) (h2 : a < hi) :
    ∃ v, K.dir.page (pagePtr a) = some v ∧
      K.translate a = some (v.pFrame * 0x1000 + a % 0x1000) := by
  obtain ⟨v, entry, present⟩ := h.present a h1 h2
  exact ⟨v, entry, by simp [KState.translate, h.on, entry, present]⟩

theorem pagePtr_inj {a b : Nat} (same : pagePtr a = pagePtr b) : a / 0x1000 = b / 0x1000 := by
  simp only [pagePtr, PagePtr.mk.injEq] at same
  omega

/-- Different addresses of the range are different bytes of memory. -/
theorem translate_inj (h : Backed K lo hi) {a b p : Nat} (h1 : lo ≤ a) (h2 : a < hi) (h3 : lo ≤ b)
    (h4 : b < hi) (ha : K.translate a = some p) (hb : K.translate b = some p) : a = b := by
  obtain ⟨v, entry, at_a⟩ := h.translate h1 h2
  obtain ⟨w, entry', at_b⟩ := h.translate h3 h4
  rw [at_a] at ha
  rw [at_b] at hb
  have sum := Option.some.inj (ha.trans hb.symm)
  have frame : v.pFrame = w.pFrame := by omega
  have page := pagePtr_inj (h.distinct a b v w h1 h2 h3 h4 entry entry' frame)
  omega

end Backed

/-! ## The view of a range -/

/-- `m` is what the range `[lo, hi)` holds. -/
structure Sees (K : KState) (lo hi : Nat) (m : Mem) : Prop where
  backed : Backed K lo hi
  eq : ∀ a, lo ≤ a → a < hi → K.view a = m a

namespace KState

/-- A store changes the memory only. -/
theorem put8_eq (K : KState) (a : Nat) (v : UInt8) :
    K.put8 a v = { K with mem := (K.put8 a v).mem } := by
  unfold put8
  split <;> rfl

@[simp] theorem put8_paging (K : KState) (a : Nat) (v : UInt8) : (K.put8 a v).paging = K.paging := by
  rw [put8_eq]
@[simp] theorem put8_dir (K : KState) (a : Nat) (v : UInt8) : (K.put8 a v).dir = K.dir := by
  rw [put8_eq]
@[simp] theorem put8_translate (K : KState) (a b : Nat) (v : UInt8) :
    (K.put8 a v).translate b = K.translate b := by
  simp [translate]

/-- The state with a word written. -/
def put32 (K : KState) (a v : Nat) : KState :=
  (((K.put8 a (UInt8.ofNat v)).put8 (a + 1) (UInt8.ofNat (v / 256))).put8 (a + 2)
    (UInt8.ofNat (v / 65536))).put8 (a + 3) (UInt8.ofNat (v / 16777216))

theorem put32_eq (K : KState) (a v : Nat) :
    K.put32 a v = { K with mem := (K.put32 a v).mem } := by
  unfold put32
  rw [put8_eq, put8_eq (K.put8 _ _ |>.put8 _ _), put8_eq (K.put8 _ _), put8_eq K]

end KState

namespace Sees

variable {K K' : KState} {lo hi lo' hi' a : Nat} {m m' : Mem}

theorem mono (h : Sees K lo hi m) (hlo : lo ≤ lo') (hhi : hi' ≤ hi) : Sees K lo' hi' m where
  backed := h.backed.mono hlo hhi
  eq a h1 h2 := h.eq a (by omega) (by omega)

/-- The memory outside the range is not seen. -/
theorem of_eq (h : Sees K lo hi m) (same : ∀ a, lo ≤ a → a < hi → m' a = m a) : Sees K lo hi m' where
  backed := h.backed
  eq a h1 h2 := (h.eq a h1 h2).trans (same a h1 h2).symm

/-- A change of the state that touches neither the memory nor the entries of the
range. -/
theorem congr (h : Sees K lo hi m) (mem : K'.mem = K.mem) (paging : K'.paging = K.paging)
    (same : ∀ a, lo ≤ a → a < hi → K'.dir.page (pagePtr a) = K.dir.page (pagePtr a)) :
    Sees K' lo hi m where
  backed := h.backed.congr paging same
  eq a h1 h2 := by
    rw [← h.eq a h1 h2, KState.view, KState.view, KState.translate, KState.translate, mem, paging,
      same a h1 h2]

theorem peek8 (h : Sees K lo hi m) (h1 : lo ≤ a) (h2 : a < hi) : K.peek8 a = .ok (m a) := by
  obtain ⟨v, -, at_a⟩ := h.backed.translate h1 h2
  rw [← h.eq a h1 h2, KState.peek8, KState.view, at_a]

theorem peek32 (h : Sees K lo hi m) (h1 : lo ≤ a) (h2 : a + 4 ≤ hi) :
    K.peek32 a = .ok (m.word a) := by
  simp [KState.peek32, h.peek8 h1 (by omega : a < hi), h.peek8 (by omega : lo ≤ a + 1) (by omega),
    h.peek8 (by omega : lo ≤ a + 2) (by omega), h.peek8 (by omega : lo ≤ a + 3) (by omega), Mem.word,
    bind, Except.bind]

theorem word (h : Sees K lo hi m) (h1 : lo ≤ a) (h2 : a + 4 ≤ hi) : K.view.word a = m.word a :=
  Mem.word_congr fun b _ _ => h.eq b (by omega) (by omega)

theorem put8 (h : Sees K lo hi m) (h1 : lo ≤ a) (h2 : a < hi) (v : UInt8) :
    Sees (K.put8 a v) lo hi (m.setByte a v) where
  backed := h.backed.congr (by simp) (by simp)
  eq b h3 h4 := by
    obtain ⟨x, -, at_a⟩ := h.backed.translate h1 h2
    obtain ⟨y, -, at_b⟩ := h.backed.translate h3 h4
    have before := h.eq b h3 h4
    rw [KState.view, at_b] at before
    dsimp only at before
    rw [KState.view, KState.put8_translate, at_b, KState.put8, at_a]
    simp only [Mem.setByte, before]
    by_cases same : b = a
    · subst same
      rw [at_b] at at_a
      rw [if_pos (Option.some.inj at_a), if_pos rfl]
    · rw [if_neg same, if_neg]
      intro clash
      exact same (h.backed.translate_inj h3 h4 h1 h2 at_b (by rw [at_a, clash]))

theorem put32 (h : Sees K lo hi m) (h1 : lo ≤ a) (h2 : a + 4 ≤ hi) (v : Nat) :
    Sees (K.put32 a v) lo hi (m.setWord a v) := by
  have bytes := (((h.put8 h1 (by omega) (UInt8.ofNat v)).put8 (by omega : lo ≤ a + 1) (by omega)
    (UInt8.ofNat (v / 256))).put8 (by omega : lo ≤ a + 2) (by omega)
    (UInt8.ofNat (v / 65536))).put8 (by omega : lo ≤ a + 3) (by omega) (UInt8.ofNat (v / 16777216))
  refine bytes.of_eq fun b _ _ => ?_
  simp only [Mem.setByte, Mem.setWord]
  rcases Nat.lt_or_ge b a with below | above
  · rw [if_neg (by omega), if_neg (by omega), if_neg (by omega), if_neg (by omega), if_neg (by omega)]
  · obtain ⟨i, rfl⟩ := Nat.exists_eq_add_of_le above
    rw [if_pos above, Nat.add_sub_cancel_left]
    by_cases inside : i < 4
    · rw [if_pos (by omega)]
      interval_cases i <;> simp
    · rw [if_neg (by omega), if_neg (by omega), if_neg (by omega), if_neg (by omega),
        if_neg (by omega)]

end Sees

/-- What is read is a word. -/
theorem peek32_lt {K : KState} {a v : Nat} (read : K.peek32 a = .ok v) : v < 4294967296 := by
  unfold KState.peek32 at read
  simp only [bind, Except.bind] at read
  split at read
  · cases read
  · rename_i b0 _
    split at read
    · cases read
    · rename_i b1 _
      split at read
      · cases read
      · rename_i b2 _
        split at read
        · cases read
        · rename_i b3 _
          obtain rfl := Except.ok.inj read
          have h0 := b0.toNat_lt
          have h1 := b1.toNat_lt
          have h2 := b2.toNat_lt
          have h3 := b3.toNat_lt
          omega

/-! ## Weakest preconditions of the accesses -/

section Rules

variable {K : KState} {lo hi a : Nat} {m : Mem} {E : Stop → Prop}

theorem wp_read32 (h : Sees K lo hi m) (h1 : lo ≤ a) (h2 : a + 4 ≤ hi) {Q : Nat → KState → Prop} :
    Program.wp (read32 a) Q E K ↔ Q (m.word a) K := by
  refine Program.wp_of_ok ?_
  simp [read32, h.peek32 h1 h2]

theorem write8_eq (h : Backed K lo hi) (h1 : lo ≤ a) (h2 : a < hi) (v : UInt8) :
    write8 a v K = .ok ((), K.put8 a v) := by
  obtain ⟨x, -, at_a⟩ := h.translate h1 h2
  rw [write8, at_a]

theorem write32_eq (h : Backed K lo hi) (h1 : lo ≤ a) (h2 : a + 4 ≤ hi) (v : Nat) :
    write32 a v K = .ok ((), K.put32 a v) := by
  have keep : ∀ {K : KState} (b : Nat) (w : UInt8), Backed K lo hi → Backed (K.put8 b w) lo hi :=
    fun b w h => h.congr (by simp) (by simp)
  simp only [write32, bind, StateT.bind, write8_eq h h1 (by omega : a < hi), Except.bind,
    write8_eq (keep _ _ h) (by omega : lo ≤ a + 1) (by omega),
    write8_eq (keep _ _ (keep _ _ h)) (by omega : lo ≤ a + 2) (by omega),
    write8_eq (keep _ _ (keep _ _ (keep _ _ h))) (by omega : lo ≤ a + 3) (by omega)]
  rfl

/-- A write inside the range is a write of what is seen; the rest of the state
stays. -/
theorem wp_write32 (h : Sees K lo hi m) (h1 : lo ≤ a) (h2 : a + 4 ≤ hi) {v : Nat}
    {Q : Unit → KState → Prop}
    (post : ∀ mem, Sees { K with mem := mem } lo hi (m.setWord a v) → Q () { K with mem := mem }) :
    Program.wp (write32 a v) Q E K := by
  refine (Program.wp_of_ok (write32_eq h.backed h1 h2 v)).mpr ?_
  have sees := h.put32 h1 h2 v
  rw [KState.put32_eq] at sees ⊢
  exact post _ sees

@[simp] theorem wp_kassert {c : KAssert} {cond : Prop} [Decidable cond] {Q : Unit → KState → Prop} :
    Program.wp (kassert c cond) Q E K ↔ (cond → Q () K) ∧ (¬cond → E (.panic (.assertion c))) := by
  unfold kassert
  by_cases h : cond <;> simp [h]

/-- `bzero` inside the range. -/
theorem wp_bzero {n : Nat} (h : Sees K lo hi m) (h1 : lo ≤ a) (h2 : a + n ≤ hi)
    {Q : Unit → KState → Prop}
    (post : ∀ mem, Sees { K with mem := mem } lo hi (m.zeroBytes a n) →
      Q () { K with mem := mem }) :
    Program.wp (bzero a n) Q E K := by
  induction n generalizing K a m with
  | zero =>
      refine post K.mem (h.of_eq fun b _ _ => ?_)
      simp only [Mem.zeroBytes]
      split_ifs <;> first | rfl | omega
  | succ n ih =>
      rw [bzero, Program.wp_bind, Program.wp_of_ok (write8_eq h.backed h1 (by omega) 0)]
      refine ih (h.put8 h1 (by omega) 0) (by omega) (by omega) fun mem sees => ?_
      rw [KState.put8_eq] at sees ⊢
      refine post mem (sees.of_eq fun b _ _ => ?_)
      simp only [Mem.zeroBytes, Mem.setByte]
      split_ifs <;> first | rfl | omega

end Rules

end MiniKernel.Kernel
