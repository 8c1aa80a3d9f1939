/-
# Kernel.FlatPaging -- init_paging on the memory before paging

Before paging is on, one memory holds everything that `init_paging` works on: the words of
the frame bitset, the page directory and the page tables.  Here the functions of paging.c and
the placement branch of `_kmalloc` read and write that memory, so that what overlaps in it
overlaps here.

In `Kernel.Frames` the bitset is a value of its own.  `firstFrame_flat` and `setFrame_flat` say
that on the words in memory the two helpers do the same.
-/
import MiniKernel.Kernel.Frames
import MiniKernel.Theory.MemoryBits
import MiniKernel.Theory.Program
import MiniKernel.Theory.Word
import Mathlib.Tactic.Ring

namespace MiniKernel.Kernel.Flat

open Theory

set_option autoImplicit false

/-- The memory, and the global variables of paging.c and kmalloc.c.  The three pointers are
addresses. -/
structure FlatState where
  mem : Mem
  placementAddress : Nat
  frames : Nat
  nframes : Nat
  kernelDirectory : Nat

abbrev FlatM := Program FlatState Stop

def load32 (a : Nat) : FlatM Nat := do
  let s ← get
  pure (s.mem.word a)

def store32 (a v : Nat) : FlatM Unit := modify fun s => { s with mem := s.mem.setWord a v }

/-- `bzero(a, n)` -/
def bzero (a n : Nat) : FlatM Unit := modify fun s => { s with mem := s.mem.zeroBytes a n }

/-! ## The frame bitset -/

/-- `&frames[idx]` -/
def frameWord (s : FlatState) (idx : Nat) : Nat := add32 s.frames (4 * idx)

/-- `set_frame` -/
def setFrame (frameAddr : Nat) : FlatM Unit := do
  let s ← get
  let frame := frameAddr / 0x1000
  let p := frameWord s (indexFromBit frame)
  let w ← load32 p
  store32 p (w ||| 2 ^ offsetFromBit frame)

/-- The inner loop of `first_frame`: `n` bits are left, from `j` on. -/
def firstBit (word : Nat) : Nat → Nat → Option Nat
  | 0, _ => none
  | n + 1, j => if word &&& 2 ^ j = 0 then some j else firstBit word n (j + 1)

/-- The outer loop of `first_frame`: `n` words are left, from `i` on. -/
def firstWord : Nat → Nat → FlatM Nat
  | 0, _ => pure 0xFFFFFFFF
  | n + 1, i => do
      let s ← get
      let w ← load32 (frameWord s i)
      if w = 0xFFFFFFFF then firstWord n (i + 1)
      else
        match firstBit w 32 0 with
        | some j => pure (i * 4 * 8 + j)
        | none => firstWord n (i + 1)

/-- `first_frame` -/
def firstFrame : FlatM Nat := do
  let s ← get
  firstWord (indexFromBit s.nframes) 0

/-! ## struct vm_page -/

/-- The `width` bits from bit `lo` on. -/
def field (w lo width : Nat) : Nat := w / 2 ^ lo % 2 ^ width

/-- The word with another value in these bits. -/
def setField (w lo width v : Nat) : Nat :=
  w % 2 ^ lo + v % 2 ^ width * 2 ^ lo + w / 2 ^ (lo + width) * 2 ^ (lo + width)

def storeField (p lo width v : Nat) : FlatM Unit := do
  let w ← load32 p
  store32 p (setField w lo width v)

def setPPresent (p v : Nat) : FlatM Unit := storeField p 0 1 v
def setPRw (p v : Nat) : FlatM Unit := storeField p 1 1 v
def setPUser (p v : Nat) : FlatM Unit := storeField p 2 1 v
def setPFrame (p v : Nat) : FlatM Unit := storeField p 12 20 v

/-- `alloc_frame`, on the page at `p`. -/
def allocFrame (p : Nat) (isKernel isWriteable : Bool) : FlatM Unit := do
  let w ← load32 p
  if field w 12 20 ≠ 0 then pure ()
  else do
    let idx ← firstFrame
    if idx = 0xFFFFFFFF then Program.stop (.panic .noFreeFrame)
    else do
      setFrame (idx * 0x1000 % 4294967296)
      setPPresent p 1
      setPFrame p idx
      setPRw p (if isWriteable then 1 else 0)
      setPUser p (if isKernel then 0 else 1)

/-! ## Tables -/

/-- `_kmalloc` without a heap: the address, and the physical address. -/
def kmalloc (len : Nat) (aligned zero : Bool) : FlatM (Nat × Nat) := do
  let s ← get
  if aligned ∧ s.placementAddress &&& pageMask ≠ 0 then
    modify fun s => { s with placementAddress := add32 (s.placementAddress &&& pageMask) 0x1000 }
  let s ← get
  let phys := s.placementAddress
  modify fun s => { s with placementAddress := add32 s.placementAddress len }
  let s ← get
  let addr := sub32 s.placementAddress len
  if zero then bzero addr len
  pure (addr, phys)

/-- `&dir->pd_tables[t]`, of the kernel directory. -/
def tableSlot (s : FlatState) (t : Nat) : Nat := add32 s.kernelDirectory (4 * t)

/-- `&dir->pd_tblphys[t]` -/
def physSlot (s : FlatState) (t : Nat) : Nat := add32 s.kernelDirectory (0x1000 + 4 * t)

/-- `get_page(address, create, kernel_directory)`; a null pointer is 0. -/
def getPage (address : Nat) (create : Bool) : FlatM Nat := do
  let s ← get
  let page := address / 0x1000
  let tableIdx := page / 1024
  let table ← load32 (tableSlot s tableIdx)
  if table ≠ 0 then pure (add32 table (4 * (page % 1024)))
  else if create then do
    let (table, tmp) ← kmalloc 0x1000 true true
    store32 (tableSlot s tableIdx) table
    store32 (physSlot s tableIdx) (tmp ||| 0x7)
    let table ← load32 (tableSlot s tableIdx)
    pure (add32 table (4 * (page % 1024)))
  else pure 0

/-! ## init_paging -/

/-- `VM_KERN_HEAP_START` -/
def vmKernHeapStart : Nat := 0xC0000000
/-- `VM_KERN_HEAP_INITIAL_SIZE` -/
def vmKernHeapInitialSize : Nat := 0x100000

/-- `sizeof(struct vm_page_directory)` -/
def sizeofDirectory : Nat := 0x2004
/-- `sizeof(struct vm_heap)` -/
def sizeofHeap : Nat := 36

/-- A loop over the pages of the kernel heap: `n` pages are left, from `i` on. -/
def forHeapPages (body : Nat → FlatM Unit) : Nat → Nat → FlatM Unit
  | 0, _ => pure ()
  | n + 1, i => do
      body i
      forHeapPages body n (i + 0x1000)

/-- The identity mapping, for `fuel` pages at most. -/
def identityLoop : Nat → Nat → FlatM Unit
  | 0, _ => Program.stop .fuel
  | fuel + 1, i => do
      let s ← get
      if i < s.placementAddress then do
        let p ← getPage i true
        allocFrame p false false
        identityLoop fuel (add32 i 0x1000)
      else pure ()

/-- `init_paging`, until paging is switched on. -/
def initPaging (fuel : Nat) : FlatM Unit := do
  modify fun s => { s with nframes := 0x1000000 / 0x1000 }
  let s ← get
  let (frames, _) ← kmalloc (indexFromBit s.nframes) false true
  modify fun s => { s with frames := frames }
  let (dir, _) ← kmalloc sizeofDirectory true true
  modify fun s => { s with kernelDirectory := dir }
  forHeapPages (fun i => do let _ ← getPage i true) (vmKernHeapInitialSize / 0x1000) vmKernHeapStart
  let _ ← kmalloc sizeofHeap false true
  identityLoop fuel 0
  forHeapPages (fun i => do
    let p ← getPage i false
    allocFrame p false false) (vmKernHeapInitialSize / 0x1000) vmKernHeapStart

/-! ## The bitset in memory -/

/-- The bitset that the words in memory are. -/
def bitsetOf (s : FlatState) : Bitset where
  frames i := BitVec.ofNat 32 (s.mem.word (frameWord s i))
  nframes := s.nframes

section Bits

variable {s : FlatState} {w idx n i j f : Nat}

theorem firstBit_flat (word : w < 4294967296) (width : j + n ≤ 32) :
    firstBit w n j = Bitset.firstBit (BitVec.ofNat 32 w) n j := by
  induction n generalizing j with
  | zero => rfl
  | succ n ih =>
      have mask : (BitVec.ofNat 32 w &&& (1#32 <<< j)).toNat = w &&& 2 ^ j := by
        have small : 2 ^ j < 2 ^ 32 := Nat.pow_lt_pow_right (by decide) (by omega)
        rw [BitVec.toNat_and, BitVec.toNat_ofNat, Nat.mod_eq_of_lt word, BitVec.toNat_shiftLeft,
          Nat.shiftLeft_eq, BitVec.toNat_ofNat, Nat.one_mod_two_pow (by decide), Nat.one_mul,
          Nat.mod_eq_of_lt small]
      have same : w &&& 2 ^ j = 0 ↔ BitVec.ofNat 32 w &&& (1#32 <<< j) = 0 := by
        rw [← mask, ← BitVec.toNat_inj]
        rfl
      rw [firstBit, Bitset.firstBit, ih (by omega)]
      by_cases clear : w &&& 2 ^ j = 0
      · rw [if_pos clear, if_pos (same.mp clear)]
      · rw [if_neg clear, if_neg (mt same.mpr clear)]

theorem firstWord_flat :
    firstWord n i s = .ok ((Bitset.firstWord (bitsetOf s).frames n i).getD 0xFFFFFFFF, s) := by
  induction n generalizing i with
  | zero => rfl
  | succ n ih =>
      have word := s.mem.word_lt (frameWord s i)
      have full : s.mem.word (frameWord s i) = 0xFFFFFFFF ↔
          (bitsetOf s).frames i = 0xFFFFFFFF#32 := by
        rw [← BitVec.toNat_inj, bitsetOf, BitVec.toNat_ofNat, Nat.mod_eq_of_lt word]
        rfl
      have step : firstWord (n + 1) i s =
          (if s.mem.word (frameWord s i) = 0xFFFFFFFF then firstWord n (i + 1)
          else
            match firstBit (s.mem.word (frameWord s i)) 32 0 with
            | some j => pure (i * 4 * 8 + j)
            | none => firstWord n (i + 1)) s := rfl
      rw [step, Bitset.firstWord, firstBit_flat word (by omega)]
      by_cases all : s.mem.word (frameWord s i) = 0xFFFFFFFF
      · rw [if_pos all, if_pos (full.mp all)]
        exact ih
      · rw [if_neg all, if_neg (mt full.mpr all)]
        show (match Bitset.firstBit ((bitsetOf s).frames i) 32 0 with
          | some j => pure (i * 4 * 8 + j)
          | none => firstWord n (i + 1) : FlatM Nat) s = _
        cases Bitset.firstBit ((bitsetOf s).frames i) 32 0 with
        | some j => rfl
        | none => exact ih

/-- `first_frame`, on the words in memory. -/
theorem firstFrame_flat : firstFrame s = .ok ((bitsetOf s).firstFrame, s) := firstWord_flat

theorem frameWord_eq (room : s.frames + 512 < 4294967296) (small : i < 128) :
    frameWord s i = s.frames + 4 * i := add32_eq (by omega)

theorem used_bitsetOf (room : s.frames + 512 < 4294967296) (small : f < 4096) :
    (bitsetOf s).used f = s.mem.bit s.frames f := by
  have word := s.mem.word_lt (frameWord s (f / 32))
  rw [Bitset.used, WordSet.mem, bitsetOf, BitVec.getLsbD_ofNat, frameWord_eq room (by omega),
    Mem.testBit_word (Nat.mod_lt _ (by decide)), Mem.bit_word, Nat.div_add_mod]
  simp [Nat.mod_lt]

theorem setFrame_run (a : Nat) :
    setFrame a s = .ok ((), { s with
      mem := s.mem.setWord (frameWord s (indexFromBit (a / 0x1000)))
        (s.mem.word (frameWord s (indexFromBit (a / 0x1000))) |||
          2 ^ offsetFromBit (a / 0x1000)) }) := rfl

/-- `set_frame`, on the words in memory. -/
theorem setFrame_flat (room : s.frames + 512 < 4294967296) (small : f < 4096) :
    setFrame (f * 0x1000 % 4294967296) s =
      .ok ((), { s with mem := s.mem.setBit s.frames f }) := by
  have frame : f * 0x1000 % 4294967296 / 0x1000 = f := by omega
  have bit : offsetFromBit f < 32 := Nat.mod_lt _ (by decide)
  have whole : 32 * indexFromBit f + offsetFromBit f = f := Nat.div_add_mod f 32
  rw [setFrame_run, frame, Mem.setWord_or bit, frameWord_eq room (by unfold indexFromBit; omega),
    Mem.setBit_word, whole]

theorem scanned_bitsetOf (frames : s.nframes = 0x1000) : (bitsetOf s).scanned = 4096 := by
  show indexFromBit s.nframes * 32 = 4096
  rw [frames]
  decide

/-- The first clear bit is the frame that `first_frame` finds. -/
theorem firstFrame_eq (frames : s.nframes = 0x1000) (room : s.frames + 512 < 4294967296)
    (small : n < 4096) (set : ∀ f, f < n → s.mem.bit s.frames f = true)
    (clear : s.mem.bit s.frames n = false) : (bitsetOf s).firstFrame = n := by
  have scanned := scanned_bitsetOf frames
  rcases (bitsetOf s).firstFrame_spec with ⟨lt, free, below⟩ | ⟨-, full⟩
  · rw [scanned] at lt
    rw [used_bitsetOf room lt] at free
    rcases Nat.lt_trichotomy n (bitsetOf s).firstFrame with less | same | less
    · have used := below n less
      rw [used_bitsetOf room small, clear] at used
      cases used
    · exact same.symm
    · rw [set _ less] at free
      cases free
  · have used := full n (by omega)
    rw [used_bitsetOf room small, clear] at used
    cases used

/-- What `first_frame` returns is a frame number or -1. -/
theorem firstFrame_lt (frames : s.nframes = 0x1000) (found : (bitsetOf s).firstFrame ≠ 0xFFFFFFFF) :
    (bitsetOf s).firstFrame < 4096 := by
  rcases (bitsetOf s).firstFrame_spec with ⟨lt, -⟩ | ⟨none, -⟩
  · rw [scanned_bitsetOf frames] at lt
    exact lt
  · exact absurd none found

end Bits

/-! ## The functions as they run -/

section Runs

variable {s : FlatState} {w lo width v p n idx j t address len : Nat}

theorem testBit_setField :
    (setField w lo width v).testBit j =
      if lo ≤ j ∧ j < lo + width then v.testBit (j - lo) else w.testBit j := by
  have low : w % 2 ^ lo < 2 ^ lo := Nat.mod_lt _ (Nat.two_pow_pos lo)
  have middle : v % 2 ^ width < 2 ^ width := Nat.mod_lt _ (Nat.two_pow_pos width)
  have split : setField w lo width v =
      2 ^ lo * (2 ^ width * (w / 2 ^ (lo + width)) + v % 2 ^ width) + w % 2 ^ lo := by
    rw [setField, Nat.pow_add]
    ring
  rw [split, Nat.testBit_two_pow_mul_add _ low, Nat.testBit_two_pow_mul_add _ middle,
    Nat.testBit_mod_two_pow, Nat.testBit_mod_two_pow, Nat.testBit_div_two_pow]
  by_cases below : j < lo
  · rw [if_pos below, if_neg (by omega)]
    simp [below]
  · rw [if_neg below]
    by_cases inside : j - lo < width
    · rw [if_pos inside, if_pos (by omega)]
      simp [inside]
    · rw [if_neg inside, if_neg (by omega), show j - lo - width + (lo + width) = j by omega]

/-- A `vm_page` after the four assignments of `alloc_frame(p, 0, 0)`. -/
def framed (w idx : Nat) : Nat :=
  setField (setField (setField (setField w 0 1 1) 12 20 idx) 1 1 0) 2 1 1

theorem framed_zero (small : n < 4096) : framed 0 n = 4096 * n + 5 := by
  simp only [framed, setField]
  omega

theorem setWord_setWord (m : Mem) (a v v' : Nat) : (m.setWord a v).setWord a v' = m.setWord a v' := by
  funext b
  simp only [Mem.setWord]
  split_ifs <;> rfl

theorem storeField_run :
    storeField p lo width v s =
      .ok ((), { s with mem := s.mem.setWord p (setField (s.mem.word p) lo width v) }) := rfl

theorem setField_lt (word : w < 4294967296) (fits : lo + width ≤ 32) :
    setField w lo width v < 4294967296 := by
  have bound : setField w lo width v < 2 ^ 32 := by
    apply Nat.lt_pow_two_of_testBit
    intro j high
    rw [testBit_setField, if_neg (by omega)]
    have wide : 2 ^ 32 ≤ 2 ^ j := Nat.pow_le_pow_right (by decide) high
    exact Nat.testBit_lt_two_pow (Nat.lt_of_lt_of_le word wide)
  exact bound

/-- Every outcome of `alloc_frame(p, 0, 0)`. -/
theorem allocFrame_cases (frames : s.nframes = 0x1000) (room : s.frames + 512 < 4294967296) (p : Nat) :
    (field (s.mem.word p) 12 20 ≠ 0 ∧ allocFrame p false false s = .ok ((), s)) ∨
    (field (s.mem.word p) 12 20 = 0 ∧ (bitsetOf s).firstFrame < 4096 ∧
      allocFrame p false false s = .ok ((), { s with
        mem := (s.mem.setBit s.frames (bitsetOf s).firstFrame).setWord p
          (framed ((s.mem.setBit s.frames (bitsetOf s).firstFrame).word p)
            (bitsetOf s).firstFrame) })) ∨
    ((bitsetOf s).firstFrame = 0xFFFFFFFF ∧
      allocFrame p false false s = .error (.panic .noFreeFrame)) := by
  have start : allocFrame p false false s =
      (if field (s.mem.word p) 12 20 ≠ 0 then pure ()
      else do
        let idx ← firstFrame
        if idx = 0xFFFFFFFF then Program.stop (.panic .noFreeFrame)
        else do
          setFrame (idx * 0x1000 % 4294967296)
          setPPresent p 1
          setPFrame p idx
          setPRw p 0
          setPUser p 1 : FlatM Unit) s := rfl
  by_cases held : field (s.mem.word p) 12 20 ≠ 0
  · refine .inl ⟨held, ?_⟩
    rw [start, if_pos held]
    rfl
  · rw [start, if_neg held, Program.bind_run_ok firstFrame_flat]
    by_cases none : (bitsetOf s).firstFrame = 0xFFFFFFFF
    · refine .inr (.inr ⟨none, ?_⟩)
      rw [if_pos none]
      rfl
    · have small := firstFrame_lt frames none
      refine .inr (.inl ⟨by simpa using held, small, ?_⟩)
      rw [if_neg none, Program.bind_run_ok (setFrame_flat room small)]
      simp only [setPPresent, setPFrame, setPRw, setPUser, Program.bind_run_ok storeField_run,
        storeField_run, setWord_setWord, framed, Mem.word_setWord_mod]
      have first := fun m : Mem => setField_lt (v := 1) (m.word_lt p) (show 0 + 1 ≤ 32 by decide)
      have second := fun (m : Mem) idx =>
        setField_lt (v := idx) (first m) (show 12 + 20 ≤ 32 by decide)
      have third := fun (m : Mem) idx =>
        setField_lt (v := 0) (second m idx) (show 1 + 1 ≤ 32 by decide)
      rw [Nat.mod_eq_of_lt (first _), Nat.mod_eq_of_lt (second _ _), Nat.mod_eq_of_lt (third _ _)]

/-- The four assignments clear no bit but `p_rw`, on a page without a frame. -/
theorem testBit_framed (low : j < 12) (other : j ≠ 1) (was : w.testBit j = true) :
    (framed w idx).testBit j = true := by
  simp only [framed, testBit_setField]
  by_cases user : j = 2
  · subst user
    rfl
  · rw [if_neg (by omega), if_neg (by omega), if_neg (by omega)]
    by_cases present : j = 0
    · subst present
      rfl
    · rw [if_neg (by omega)]
      exact was

theorem testBit_framed_zero : (framed w idx).testBit 0 = true := by
  simp only [framed, testBit_setField]
  simp

theorem framed_lt (word : w < 4294967296) : framed w idx < 4294967296 :=
  setField_lt (setField_lt (setField_lt (setField_lt word (by decide)) (by decide)) (by decide))
    (by decide)

theorem testBit_of_field (empty : field w 12 20 = 0) (high : 12 ≤ j) (low : j < 32) :
    w.testBit j = false := by
  have bit : (field w 12 20).testBit (j - 12) = w.testBit j := by
    rw [field, Nat.testBit_mod_two_pow, Nat.testBit_div_two_pow, show j - 12 + 12 = j by omega]
    simp
    omega
  rw [← bit, empty, Nat.zero_testBit]

/-- A bit that was set stays set, unless it is `p_rw`; then `p_present` is set. -/
theorem allocFrame_bits {s' : FlatState} {a f : Nat} (frames : s.nframes = 0x1000)
    (room : s.frames + 512 < 4294967296) (ran : allocFrame p false false s = .ok ((), s'))
    (was : s.mem.bit a f = true) :
    s'.mem.bit a f = true ∨ (a + f / 8 = p ∧ f % 8 = 1 ∧ s'.mem.bit p 0 = true) := by
  rcases allocFrame_cases frames room p with ⟨-, same⟩ | ⟨empty, -, gave⟩ | ⟨-, stopped⟩
  · rw [same] at ran
    cases ran
    exact .inl was
  · rw [gave] at ran
    cases ran
    have word : framed ((s.mem.setBit s.frames (bitsetOf s).firstFrame).word p)
        (bitsetOf s).firstFrame < 4294967296 := framed_lt (Mem.word_lt _ p)
    have kept : (s.mem.setBit s.frames (bitsetOf s).firstFrame).bit a f = true :=
      Mem.bit_of_setBit was
    by_cases inside : p ≤ a + f / 8 ∧ a + f / 8 < p + 4
    · obtain ⟨i, here⟩ := Nat.exists_eq_add_of_le inside.1
      have same : ∀ m : Mem, m.bit a f = m.bit p (8 * i + f % 8) := by
        intro m
        rw [Mem.bit, Mem.bit, here, show p + (8 * i + f % 8) / 8 = p + i by omega,
          show (8 * i + f % 8) % 8 = f % 8 by omega]
      rw [same, ← Mem.testBit_word (by omega)] at was kept
      have low : 8 * i + f % 8 < 12 := by
        by_contra high
        rw [testBit_of_field empty (by omega) (by omega)] at was
        cases was
      by_cases writeable : 8 * i + f % 8 = 1
      · refine .inr ⟨by omega, by omega, ?_⟩
        dsimp only
        rw [← Mem.testBit_word (by decide), Mem.word_setWord word]
        exact testBit_framed_zero
      · left
        dsimp only
        rw [same, ← Mem.testBit_word (by omega), Mem.word_setWord word]
        exact testBit_framed low writeable kept
    · left
      dsimp only
      rw [Mem.bit_congr (Mem.setWord_apply_of_disjoint _ _ (by omega)), kept]
  · rw [stopped] at ran
    cases ran

/-- A word that was not zero is not zero afterwards. -/
theorem allocFrame_word {s' : FlatState} {a : Nat} (frames : s.nframes = 0x1000)
    (room : s.frames + 512 < 4294967296) (ran : allocFrame p false false s = .ok ((), s'))
    (was : s.mem.word a ≠ 0) : s'.mem.word a ≠ 0 := by
  obtain ⟨j, low, set⟩ := Mem.word_ne_zero_iff.mp was
  rw [Mem.word_ne_zero_iff]
  rcases allocFrame_bits frames room ran set with kept | ⟨here, -, present⟩
  · exact ⟨j, low, kept⟩
  · refine ⟨8 * (p - a), by omega, ?_⟩
    rw [← present, Mem.bit, Mem.bit, show a + 8 * (p - a) / 8 = p + 0 / 8 by omega,
      show 8 * (p - a) % 8 = 0 % 8 by omega]

/-- Only the memory changes. -/
theorem allocFrame_globals {s' : FlatState} (frames : s.nframes = 0x1000)
    (room : s.frames + 512 < 4294967296) (ran : allocFrame p false false s = .ok ((), s')) :
    ∃ m, s' = { s with mem := m } := by
  rcases allocFrame_cases frames room p with ⟨-, same⟩ | ⟨-, -, gave⟩ | ⟨-, stopped⟩
  · rw [same] at ran
    cases ran
    exact ⟨s.mem, rfl⟩
  · rw [gave] at ran
    cases ran
    exact ⟨_, rfl⟩
  · rw [stopped] at ran
    cases ran

/-- On a page without a frame, it takes the first clear bit and fills the entry. -/
theorem allocFrame_takes (frames : s.nframes = 0x1000) (room : s.frames + 512 < 4294967296)
    (small : n < 4096) (set : ∀ f, f < n → s.mem.bit s.frames f = true)
    (clear : s.mem.bit s.frames n = false) (behind : s.frames + 512 ≤ p)
    (zero : s.mem.word p = 0) :
    allocFrame p false false s =
      .ok ((), { s with mem := (s.mem.setBit s.frames n).setWord p (4096 * n + 5) }) := by
  have first := firstFrame_eq frames room small set clear
  have empty : field (s.mem.word p) 12 20 = 0 := by
    rw [zero]
    rfl
  have same : (s.mem.setBit s.frames n).word p = 0 := by
    rw [Mem.word_setBit_of_disjoint (by omega), zero]
  rcases allocFrame_cases frames room p with ⟨held, -⟩ | ⟨-, -, ran⟩ | ⟨none, -⟩
  · exact absurd empty held
  · rw [first, same, framed_zero small] at ran
    exact ran
  · omega

/-- The page boundary behind `a`; a boundary is behind itself by a page. -/
def nextPage (a : Nat) : Nat := (a / 0x1000 + 1) * 0x1000

/-- An aligned block starts at the next page boundary. -/
theorem kmalloc_aligned (s : FlatState) (len : Nat) (low : 0x1000 ≤ s.placementAddress)
    (fits : s.placementAddress + 0x1000 + len < 4294967296) :
    kmalloc len true true s = .ok ((nextPage s.placementAddress, nextPage s.placementAddress),
      { s with
        mem := s.mem.zeroBytes (nextPage s.placementAddress) len
        placementAddress := nextPage s.placementAddress + len }) := by
  have next : add32 (s.placementAddress &&& pageMask) 0x1000 = nextPage s.placementAddress := by
    rw [land_pageMask (by omega), add32_eq (by omega), nextPage, Nat.add_mul]
  have bound : nextPage s.placementAddress ≤ s.placementAddress + 0x1000 := by
    unfold nextPage
    omega
  have ends : add32 (nextPage s.placementAddress) len = nextPage s.placementAddress + len :=
    add32_eq (by omega)
  have moves : s.placementAddress &&& pageMask ≠ 0 := by
    rw [Ne, land_pageMask_eq_zero (by omega)]
    omega
  have back : sub32 (nextPage s.placementAddress + len) len = nextPage s.placementAddress := by
    rw [sub32_eq (by omega) (by omega)]
    omega
  have runs : Program.wp (kmalloc len true true) (fun r s' =>
      r = (nextPage s.placementAddress, nextPage s.placementAddress) ∧ s' = { s with
        mem := s.mem.zeroBytes (nextPage s.placementAddress) len
        placementAddress := nextPage s.placementAddress + len }) (fun _ => False) s := by
    rw [kmalloc, Program.wp_bind, Program.wp_get]
    simp only [bzero, Program.wp_bind, Program.wp_modify, Program.wp_get, Program.wp_pure,
      Program.wp_ite, next, ends, back]
    simp [moves]
  obtain ⟨r, s', ran, rfl, rfl⟩ := Program.wp_some runs
  exact ran

/-- A block that need not be aligned starts at the placement address. -/
theorem kmalloc_plain (s : FlatState) (len : Nat) (fits : s.placementAddress + len < 4294967296) :
    kmalloc len false true s = .ok ((s.placementAddress, s.placementAddress),
      { s with
        mem := s.mem.zeroBytes s.placementAddress len
        placementAddress := s.placementAddress + len }) := by
  have ends : add32 s.placementAddress len = s.placementAddress + len := add32_eq fits
  have back : sub32 (s.placementAddress + len) len = s.placementAddress := by
    rw [sub32_eq (by omega) fits]
    omega
  have runs : Program.wp (kmalloc len false true) (fun r s' =>
      r = (s.placementAddress, s.placementAddress) ∧ s' = { s with
        mem := s.mem.zeroBytes s.placementAddress len
        placementAddress := s.placementAddress + len }) (fun _ => False) s := by
    rw [kmalloc, Program.wp_bind, Program.wp_get]
    simp only [bzero, Program.wp_bind, Program.wp_modify, Program.wp_get, Program.wp_pure,
      Program.wp_ite, ends, back]
    simp
  obtain ⟨r, s', ran, rfl, rfl⟩ := Program.wp_some runs
  exact ran

theorem tableSlot_eq (low : s.kernelDirectory + 0x2000 < 4294967296) (small : t < 1024) :
    tableSlot s t = s.kernelDirectory + 4 * t := add32_eq (by omega)

theorem physSlot_eq (low : s.kernelDirectory + 0x2000 < 4294967296) (small : t < 1024) :
    physSlot s t = s.kernelDirectory + 0x1000 + 4 * t := by
  rw [physSlot, add32_eq (by omega)]
  omega

/-- `get_page` for a page whose table is there. -/
theorem getPage_present (s : FlatState) (address : Nat) (create : Bool)
    (present : s.mem.word (tableSlot s (address / 0x1000 / 1024)) ≠ 0) :
    getPage address create s =
      .ok (add32 (s.mem.word (tableSlot s (address / 0x1000 / 1024)))
        (4 * (address / 0x1000 % 1024)), s) := by
  have step : getPage address create s =
      (if s.mem.word (tableSlot s (address / 0x1000 / 1024)) ≠ 0 then
        pure (add32 (s.mem.word (tableSlot s (address / 0x1000 / 1024)))
          (4 * (address / 0x1000 % 1024)))
      else if create then do
        let (table, tmp) ← kmalloc 0x1000 true true
        store32 (tableSlot s (address / 0x1000 / 1024)) table
        store32 (physSlot s (address / 0x1000 / 1024)) (tmp ||| 0x7)
        let table ← load32 (tableSlot s (address / 0x1000 / 1024))
        pure (add32 table (4 * (address / 0x1000 % 1024)))
      else pure 0 : FlatM Nat) s := rfl
  rw [step, if_pos present]
  rfl

/-- `get_page` without `create` only looks. -/
theorem getPage_looks (address : Nat) (s : FlatState) :
    ∃ p, getPage address false s = .ok (p, s) := by
  by_cases present : s.mem.word (tableSlot s (address / 0x1000 / 1024)) ≠ 0
  · exact ⟨_, getPage_present s address false present⟩
  · have step : getPage address false s =
        (if s.mem.word (tableSlot s (address / 0x1000 / 1024)) ≠ 0 then
          pure (add32 (s.mem.word (tableSlot s (address / 0x1000 / 1024)))
            (4 * (address / 0x1000 % 1024)))
        else pure 0 : FlatM Nat) s := rfl
    exact ⟨0, by rw [step, if_neg present]; rfl⟩

/-- The memory with a new table at `table` in slot `t`. -/
def withTable (s : FlatState) (t table : Nat) : Mem :=
  ((s.mem.zeroBytes table 0x1000).setWord (tableSlot s t) table).setWord (physSlot s t)
    (table ||| 0x7)

theorem tableSlot_withTable {table : Nat} (low : s.kernelDirectory + 0x2000 < 4294967296)
    (small : t < 1024) (word : table < 4294967296) :
    (withTable s t table).word (tableSlot s t) = table := by
  rw [withTable, Mem.word_setWord_of_disjoint, Mem.word_setWord word]
  rw [tableSlot_eq low small, physSlot_eq low small]
  omega

/-- `get_page` for a page without a table: a new one, at the next page boundary. -/
theorem getPage_creates (s : FlatState) (address : Nat)
    (missing : s.mem.word (tableSlot s (address / 0x1000 / 1024)) = 0)
    (low : 0x1000 ≤ s.placementAddress) (fits : s.placementAddress + 0x2000 < 4294967296)
    (directory : s.kernelDirectory + 0x2000 < 4294967296) (word : address < 4294967296) :
    getPage address true s = .ok
      (nextPage s.placementAddress + 4 * (address / 0x1000 % 1024),
        { s with
          mem := withTable s (address / 0x1000 / 1024) (nextPage s.placementAddress)
          placementAddress := nextPage s.placementAddress + 0x1000 }) := by
  have small : address / 0x1000 / 1024 < 1024 := by omega
  have bound : nextPage s.placementAddress ≤ s.placementAddress + 0x1000 := by
    unfold nextPage
    omega
  have read := tableSlot_withTable directory small
    (show nextPage s.placementAddress < 4294967296 by omega)
  have step : getPage address true s =
      (if s.mem.word (tableSlot s (address / 0x1000 / 1024)) ≠ 0 then
        pure (add32 (s.mem.word (tableSlot s (address / 0x1000 / 1024)))
          (4 * (address / 0x1000 % 1024)))
      else do
        let (table, tmp) ← kmalloc 0x1000 true true
        store32 (tableSlot s (address / 0x1000 / 1024)) table
        store32 (physSlot s (address / 0x1000 / 1024)) (tmp ||| 0x7)
        let table ← load32 (tableSlot s (address / 0x1000 / 1024))
        pure (add32 table (4 * (address / 0x1000 % 1024))) : FlatM Nat) s := rfl
  rw [step, if_neg (by simpa using missing),
    Program.bind_run_ok (kmalloc_aligned s 0x1000 low (by omega))]
  show Except.ok (add32 ((withTable s (address / 0x1000 / 1024) (nextPage s.placementAddress)).word
    (tableSlot s (address / 0x1000 / 1024))) (4 * (address / 0x1000 % 1024)), _) = _
  rw [read, add32_eq (by omega)]
  rfl

end Runs

end MiniKernel.Kernel.Flat
