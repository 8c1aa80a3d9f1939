/-
# Kernel.Dispatch -- which handler a delivered interrupt reaches

`deliver` follows an interrupt from the base of its gate, through the code that
the linker placed there, to the call of the C handler; a base at a later
instruction of a stub runs the rest of that stub.  A base inside an instruction
is not followed: what the processor decodes there depends on the encoding.

The loops of `init_idt` install `isr0 + i` and `irq0 + i - 32`, one byte further
for each vector, while a stub is several bytes long.  Only the first gate of
either loop points at its stub (`enters_iff`), and exactly those two vectors
reach the function registered for them (`dispatched_iff`).
-/
import MiniKernel.Kernel.Interrupts
import Mathlib.Algebra.BigOperators.Group.Finset.Basic
import Mathlib.Algebra.Order.BigOperators.Group.Finset

namespace MiniKernel.Kernel

set_option autoImplicit false

/-- Where the linker put the stubs.  `bytes v i` is the encoded length of
instruction `i` of the stub of `v`; the stubs of either group follow each other,
and `irq0` comes after `isr31` as in the file. -/
structure Layout where
  isr0 : Nat
  irq0 : Nat
  bytes : Nat → Nat → Nat
  bytes_pos : ∀ v i, 0 < bytes v i
  isr_before_irq :
    isr0 + ∑ v ∈ Finset.range 32, ∑ i ∈ Finset.range (stub v).length, bytes v i ≤ irq0
  fits : irq0 + ∑ v ∈ Finset.range 16, ∑ i ∈ Finset.range (stub (32 + v)).length, bytes (32 + v) i
    ≤ 4294967296

namespace Layout

variable (l : Layout)

/-- The number of bytes the stub of `v` takes. -/
def stubSize (v : Nat) : Nat := ∑ i ∈ Finset.range (stub v).length, l.bytes v i

/-- The address of the stub of `v`. -/
def stubAddress (v : Nat) : Nat :=
  if v < 32 then l.isr0 + ∑ w ∈ Finset.range v, l.stubSize w
  else l.irq0 + ∑ w ∈ Finset.range (v - 32), l.stubSize (32 + w)

/-- The address of instruction `i` of the stub of `v`. -/
def instrAddress (v i : Nat) : Nat := l.stubAddress v + ∑ j ∈ Finset.range i, l.bytes v j

/-- The code from address `a` on, when an instruction of a stub starts there; none inside an
instruction, where the processor decodes its later bytes. -/
def codeAt (a : Nat) : Option (List Instr) :=
  (List.range 48).findSome? fun v =>
    (List.range (stub v).length).findSome? fun i =>
      if l.instrAddress v i = a then some ((stub v).drop i ++ commonStub (stubHandler v)) else none

theorem stubSize_ge (v : Nat) : 3 ≤ l.stubSize v := by
  calc 3 ≤ (stub v).length := stub_length_ge v
    _ = ∑ i ∈ Finset.range (stub v).length, 1 := by simp
    _ ≤ l.stubSize v := Finset.sum_le_sum fun i _ => l.bytes_pos v i

/-- The next stub begins where a stub ends, but for the gap before `irq0`. -/
theorem stubAddress_succ (v : Nat) : l.stubAddress v + l.stubSize v ≤ l.stubAddress (v + 1) := by
  unfold stubAddress
  rcases Nat.lt_trichotomy (v + 1) 32 with low | last | high
  · rw [if_pos (by omega), if_pos low, Finset.sum_range_succ]
    omega
  · obtain rfl : v = 31 := by omega
    have gap := l.isr_before_irq
    rw [Finset.sum_range_succ] at gap
    simpa [stubSize, Nat.add_assoc] using gap
  · rw [if_neg (by omega), if_neg (by omega), Nat.sub_add_comm (by omega), Finset.sum_range_succ,
      show 32 + (v - 32) = v by omega]
    omega

theorem stubAddress_mono {v w : Nat} (h : v < w) :
    l.stubAddress v + l.stubSize v ≤ l.stubAddress w := by
  induction w with
  | zero => omega
  | succ w ih =>
      have last := l.stubAddress_succ w
      rcases Nat.lt_succ_iff_lt_or_eq.mp h with before | rfl
      · have := ih before
        omega
      · exact last

/-- An instruction of a stub begins inside the stub. -/
theorem instrAddress_lt {v i : Nat} (h : i < (stub v).length) :
    l.instrAddress v i < l.stubAddress v + l.stubSize v := by
  have part : ∑ j ∈ Finset.range (i + 1), l.bytes v j ≤ l.stubSize v :=
    Finset.sum_le_sum_of_subset (Finset.range_subset_range.mpr h)
  have pos := l.bytes_pos v i
  rw [Finset.sum_range_succ] at part
  unfold instrAddress
  omega

theorem instrAddress_eq_stubAddress {v w i : Nat} (h : i < (stub w).length)
    (same : l.instrAddress w i = l.stubAddress v) : w = v ∧ i = 0 := by
  have inside := l.instrAddress_lt h
  have start : l.stubAddress w ≤ l.instrAddress w i := Nat.le_add_right _ _
  rcases Nat.lt_trichotomy w v with before | rfl | after
  · have := l.stubAddress_mono before
    omega
  · refine ⟨rfl, ?_⟩
    by_contra nonzero
    have first : l.bytes w 0 ≤ ∑ j ∈ Finset.range i, l.bytes w j :=
      Finset.single_le_sum (f := l.bytes w) (fun _ _ => Nat.zero_le _) (by simp; omega)
    have pos := l.bytes_pos w 0
    unfold instrAddress at same
    omega
  · have := l.stubAddress_mono after
    have := l.stubSize_ge v
    omega

/-- The code at the start of a stub is the stub. -/
theorem codeAt_stubAddress {v : Nat} (h : v < 48) :
    l.codeAt (l.stubAddress v) = some (stub v ++ commonStub (stubHandler v)) := by
  have found : l.codeAt (l.stubAddress v) ≠ none := by
    unfold codeAt
    rw [Ne, List.findSome?_eq_none_iff]
    intro none
    have here := none v (List.mem_range.mpr h)
    rw [List.findSome?_eq_none_iff] at here
    have len : 0 < (stub v).length := Nat.lt_of_lt_of_le (by decide) (stub_length_ge v)
    have first := here 0 (List.mem_range.mpr len)
    simp [instrAddress] at first
  obtain ⟨code, at_start⟩ := Option.ne_none_iff_exists'.mp found
  rw [at_start]
  unfold codeAt at at_start
  obtain ⟨w, -, inner⟩ := List.exists_of_findSome?_eq_some at_start
  obtain ⟨i, mem, hit⟩ := List.exists_of_findSome?_eq_some inner
  split_ifs at hit with same
  obtain ⟨rfl, rfl⟩ := l.instrAddress_eq_stubAddress (List.mem_range.mp mem) same
  rw [← Option.some.inj hit, List.drop_zero]

theorem stubAddress_fits {v : Nat} (h : v < 48) : l.stubAddress v + l.stubSize v ≤ 4294967296 := by
  have all : l.stubAddress 48 ≤ 4294967296 := by
    simpa [stubAddress, stubSize] using l.fits
  have := l.stubAddress_mono h
  omega

/-- Every stub is several bytes long. -/
theorem stubs_long (k w : Nat) : 3 * w ≤ ∑ u ∈ Finset.range w, l.stubSize (k + u) := by
  calc 3 * w = ∑ u ∈ Finset.range w, 3 := by simp [Nat.mul_comm]
    _ ≤ _ := Finset.sum_le_sum fun u _ => l.stubSize_ge (k + u)

end Layout

/-! ## Delivery -/

/-- A delivery of `v`, up to the call of the C handler: the handler's label, the
state with the pointer to the saved registers on top of the stack, and the rest
of the stub. -/
def deliver (l : Layout) (v : Nat) (errCode : Word32) (c : Cpu) : Option (Label × Cpu × List Instr) :=
  (l.codeAt (initIdt (BitVec.ofNat 32 l.isr0) (BitVec.ofNat 32 l.irq0) v).base.toNat).bind fun code =>
    Cpu.runToCall code (enterGate v errCode c)

/-- Which gates point at their stub. -/
theorem enters_iff (l : Layout) {v : Nat} (h : v < 48) :
    (initIdt (BitVec.ofNat 32 l.isr0) (BitVec.ofNat 32 l.irq0) v).base.toNat = l.stubAddress v ↔
      v = 0 ∨ v = 32 := by
  have fits := l.stubAddress_fits h
  have some_byte := l.stubSize_ge v
  rw [base_initIdt _ _ h]
  unfold Layout.stubAddress at fits ⊢
  by_cases low : v < 32
  · have long := l.stubs_long 0 v
    simp only [Nat.zero_add] at long
    rw [if_pos low] at fits
    rw [if_pos low, if_pos low, BitVec.toNat_add, BitVec.toNat_ofNat, BitVec.toNat_ofNat]
    constructor
    · intro same
      omega
    · rintro (rfl | rfl)
      · simp at fits ⊢
        omega
      · omega
  · have long := l.stubs_long 32 (v - 32)
    rw [if_neg low] at fits
    rw [if_neg low, if_neg low, BitVec.toNat_add, BitVec.toNat_ofNat, BitVec.toNat_ofNat]
    constructor
    · intro same
      omega
    · rintro (rfl | rfl)
      · omega
      · simp at fits ⊢
        omega

section Dispatch

variable {H : Type}

/-- What has to come of a delivery of `v` for the calls made: the gate points at
the stub of `v`, the C handler receives `v`, and what runs is the function last
registered for `v`; a vector below 32 with none panics. -/
structure Dispatched (l : Layout) (calls : List (BitVec 8 × Option H)) (v : Nat)
    (errCode : Word32) (c : Cpu) : Prop where
  enters : (initIdt (BitVec.ofNat 32 l.isr0) (BitVec.ofNat 32 l.irq0) v).base.toNat =
    l.stubAddress v
  handled : ∃ called rest, deliver l v errCode c = some (stubHandler v, called, rest) ∧
    (Registers.at called.mem called.top).intNo.toNat = v ∧
    (callHandler (handlersAfter calls) (stubHandler v)
        (Registers.at called.mem called.top).intNo).map Handled.ran =
      if v < 32 ∧ lastRegistered calls v = none then .error .unhandledInterrupt
      else .ok (lastRegistered calls v)

/-- A delivery that enters the stub of `v` does what it has to. -/
theorem dispatched_of_enters {l : Layout} (calls : List (BitVec 8 × Option H)) {v : Nat}
    (errCode : Word32) (c : Cpu) (h : v < 48)
    (enters : (initIdt (BitVec.ofNat 32 l.isr0) (BitVec.ofNat 32 l.irq0) v).base.toNat =
      l.stubAddress v) : Dispatched l calls v errCode c := by
  obtain ⟨called, run, intNo⟩ := stub_int_no v (enterGate v errCode c)
  refine ⟨enters, called, (commonStub (stubHandler v)).drop 11, ?_, ?_, ?_⟩
  · rw [deliver, enters, l.codeAt_stubAddress h, Option.bind_some, run]
  · rw [intNo, BitVec.toNat_ofNat]
    omega
  · have number : (BitVec.ofNat 32 v).toNat = v := by
      rw [BitVec.toNat_ofNat]
      omega
    rw [intNo]
    unfold callHandler idtHandler irqHandler stubHandler
    rw [number, handlersAfter_apply]
    cases last : lastRegistered calls v with
    | none => by_cases low : v < 32 <;> simp [low, Except.map]
    | some f => by_cases low : v < 32 <;> simp [low, Except.map]

/-- **Interrupt dispatch.**  Whatever the layout and the registrations, exactly
the vectors 0 and 32 are dispatched through their own stub. -/
theorem dispatched_iff (l : Layout) (calls : List (BitVec 8 × Option H)) (v : Fin 48)
    (errCode : Word32) (c : Cpu) : Dispatched l calls v errCode c ↔ v = 0 ∨ v = 32 := by
  have vectors : v = 0 ∨ v = 32 ↔ (v : Nat) = 0 ∨ (v : Nat) = 32 := by
    rw [Fin.ext_iff, Fin.ext_iff]
    rfl
  rw [vectors, ← enters_iff l v.isLt]
  exact ⟨fun ok => ok.enters, dispatched_of_enters calls errCode c v.isLt⟩

/-- One byte for `cli`, two for a push, five for a near jump.  nasm makes the jumps
of the last stubs, close to the common stub, two bytes long. -/
def nasmBytes (v i : Nat) : Nat :=
  match (stub v).getD i .cli with
  | .pushImm _ => 2
  | .jmp _ => 5
  | _ => 1

theorem nasmBytes_pos (v i : Nat) : 0 < nasmBytes v i := by
  unfold nasmBytes
  split <;> decide

/-- The stubs, all with near jumps, in a kernel linked at 2 MiB. -/
def nasmLayout : Layout where
  isr0 := 0x200100
  irq0 := 0x200400
  bytes := nasmBytes
  bytes_pos := nasmBytes_pos
  isr_before_irq := by decide +kernel
  fits := by decide +kernel

/-- A processor in kernel code with interrupts on. -/
def kernelCpu : Cpu :=
  { gpr := fun _ => 0x300000, seg := fun _ => 0x10, cs := 0x08, eip := 0x200800, eflags := 0x202
    mem := fun _ => 0 }

/-- The gate of vector 1 points behind the `cli` of `isr0`: the handler is told
vector 0. -/
theorem vector_one_misses :
    ¬Dispatched nasmLayout [(1, some "debug")] 1 0 kernelCpu ∧
      ∃ called rest, deliver nasmLayout 1 0 kernelCpu = some (.idtHandler, called, rest) ∧
        (Registers.at called.mem called.top).intNo = 0 := by
  constructor
  · intro ok
    exact absurd ok.enters (by decide +kernel)
  · refine ⟨_, _, rfl, ?_⟩
    decide +kernel

end Dispatch

end MiniKernel.Kernel
