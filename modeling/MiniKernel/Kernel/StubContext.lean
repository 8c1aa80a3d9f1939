/-
# Kernel.StubContext -- what the stubs save and give back

The CPU pushes a frame, the stub of the vector completes it to a `registers_t`, the
handler runs, and the second half of the common stub takes everything off the stack
again (`commonStub_return`).

interrupt.s expands `ISR_ERRCODE` for six vectors, and the CPU pushes an error code
for ten.  For the other four the dummy code of the stub makes the frame one word
longer than the cleanup takes off: `iret` comes out one word too low, with the error
code for the return address (`context_kept_iff`).
-/
import MiniKernel.Kernel.Dispatch

namespace MiniKernel.Kernel

set_option autoImplicit false

/-! ## The way back -/

/-- The general registers as `pusha` saved them. -/
def Registers.saved (regs : Registers) : Reg → Word32
  | .eax => regs.eax
  | .ecx => regs.ecx
  | .edx => regs.edx
  | .ebx => regs.ebx
  | .esp => regs.esp
  | .ebp => regs.ebp
  | .esi => regs.esi
  | .edi => regs.edi

/-- The processor after everything above `p` was taken off the stack. -/
structure Reloaded (regs : Registers) (p : Word32) (c : Cpu) : Prop where
  gpr : ∀ r, r ≠ .esp → c.gpr r = regs.saved r
  esp : c.gpr .esp = p + 56
  seg : ∀ s, c.seg s = regs.ds.setWidth 16
  cs : c.cs = regs.cs.setWidth 16
  eip : c.eip = regs.eip
  eflags : c.eflags = regs.eflags

/-- The second half of the common stub: all that it restores comes from the
`registers_t` that the argument of the handler pointed to. -/
theorem commonStub_return (h : Label) (c : Cpu) :
    Reloaded (Registers.at c.mem (c.gpr .esp + 4)) (c.gpr .esp + 4)
      (Cpu.execBlock ((commonStub h).drop 11) c) := by
  constructor
  case gpr =>
    intro r other
    cases r
    case esp => exact absurd rfl other
    all_goals
      simp [commonStub, Cpu.execBlock, Cpu.exec, Cpu.popReg, Cpu.drop, Cpu.top, Registers.at,
        Registers.saved, BitVec.add_assoc]
  case seg =>
    intro s
    cases s <;>
      simp [commonStub, Cpu.execBlock, Cpu.exec, Cpu.popReg, Cpu.drop, Cpu.top, Registers.at,
        Function.update]
  all_goals
    simp [commonStub, Cpu.execBlock, Cpu.exec, Cpu.popReg, Cpu.drop, Cpu.top, Registers.at,
      BitVec.add_assoc]

/-! ## The frame -/

/-- The code that belongs in the frame of `v`. -/
def frameCode (v : Nat) (errCode : Word32) : Word32 :=
  if v ∈ cpuErrorCodeVectors then errCode else 0

/-- The vectors for which the CPU and the stub both push a code. -/
def doubleCodeVectors : List Nat := [17, 21, 29, 30]

theorem mem_isrErrcodeVectors {v : Nat} :
    v ∈ isrErrcodeVectors ↔ v ∈ cpuErrorCodeVectors ∧ v ∉ doubleCodeVectors := by
  simp only [isrErrcodeVectors, cpuErrorCodeVectors, doubleCodeVectors, List.mem_cons,
    List.not_mem_nil, or_false]
  omega

/-- The stack when the common stub is entered: the vector, the code and the frame of
the interrupted code, when only one of the CPU and the stub pushed a code. -/
structure Framed (v : Nat) (errCode : Word32) (c entered : Cpu) : Prop where
  gpr : ∀ r, r ≠ .esp → entered.gpr r = c.gpr r
  esp : entered.gpr .esp = c.gpr .esp - 20
  seg : entered.seg = c.seg
  intNo : Mem32.load entered.mem (entered.gpr .esp) = BitVec.ofNat 32 v
  errCode : Mem32.load entered.mem (entered.gpr .esp + 4) = frameCode v errCode
  eip : Mem32.load entered.mem (entered.gpr .esp + 8) = c.eip
  cs : Mem32.load entered.mem (entered.gpr .esp + 12) = c.cs.setWidth 32
  eflags : Mem32.load entered.mem (entered.gpr .esp + 16) = c.eflags

section Frame

variable {v : Nat} {errCode : Word32} {c : Cpu}

/-- Both stub shapes push the vector; one pushes a dummy code first. -/
theorem execBlock_stub (v : Nat) (c : Cpu) :
    Cpu.execBlock (stub v) c =
      if v ∈ isrErrcodeVectors then (Cpu.exec .cli c).pushWord (BitVec.ofNat 32 v)
      else ((Cpu.exec .cli c).pushWord 0).pushWord (BitVec.ofNat 32 v) := by
  have low : v ∈ isrErrcodeVectors → v < 32 := by
    simp only [isrErrcodeVectors, List.mem_cons, List.not_mem_nil, or_false]
    omega
  unfold stub
  by_cases coded : v ∈ isrErrcodeVectors
  · rw [if_pos (low coded), if_pos coded, if_pos coded]
    rfl
  · rw [if_neg coded, if_neg coded]
    split <;> rfl

/-- One code on the stack. -/
theorem framed_of_single (single : v ∉ doubleCodeVectors) :
    Framed v errCode c (Cpu.execBlock (stub v) (enterGate v errCode c)) := by
  have same : v ∈ isrErrcodeVectors ↔ v ∈ cpuErrorCodeVectors := by
    rw [mem_isrErrcodeVectors]
    exact and_iff_left single
  rw [execBlock_stub]
  unfold enterGate
  by_cases coded : v ∈ cpuErrorCodeVectors
  · rw [if_pos (same.mpr coded)]
    constructor
    case gpr =>
      intro r other
      simp [Cpu.exec, coded, other]
    all_goals
      simp (disch := decide) [Cpu.exec, frameCode, coded, Mem32.load_store_offset,
        BitVec.sub_eq_add_neg, BitVec.add_assoc]
  · rw [if_neg fun listed => coded (same.mp listed)]
    constructor
    case gpr =>
      intro r other
      simp [Cpu.exec, coded, other]
    all_goals
      simp (disch := decide) [Cpu.exec, frameCode, coded, Mem32.load_store_offset,
        BitVec.sub_eq_add_neg, BitVec.add_assoc]

/-- Two codes on the stack. -/
theorem esp_of_double (double : v ∈ doubleCodeVectors) :
    (Cpu.execBlock (stub v) (enterGate v errCode c)).gpr .esp = c.gpr .esp - 24 := by
  have coded : v ∈ cpuErrorCodeVectors := by
    simp only [doubleCodeVectors, cpuErrorCodeVectors, List.mem_cons, List.not_mem_nil,
      or_false] at double ⊢
    omega
  have dummy : v ∉ isrErrcodeVectors := fun listed => (mem_isrErrcodeVectors.mp listed).2 double
  rw [execBlock_stub, if_neg dummy]
  simp [enterGate, Cpu.exec, coded, BitVec.sub_eq_add_neg, BitVec.add_assoc]

end Frame

/-! ## The context -/

/-- The handler comes back to the stub with `*regs` as it was. -/
structure LeavesRegs (called returned : Cpu) : Prop where
  esp : returned.gpr .esp = called.gpr .esp
  regs : Registers.at returned.mem called.top = Registers.at called.mem called.top

/-- The fields of the `registers_t` at `p` are what their names say. -/
structure NamesContext (v : Nat) (errCode : Word32) (c : Cpu) (p : Word32) (regs : Registers) :
    Prop where
  intNo : regs.intNo = BitVec.ofNat 32 v
  errCode : regs.errCode = frameCode v errCode
  eip : regs.eip = c.eip
  cs : regs.cs = c.cs.setWidth 32
  eflags : regs.eflags = c.eflags
  ds : regs.ds.setWidth 16 = c.seg .ds
  saved : ∀ r, r ≠ .esp → regs.saved r = c.gpr r
  /-- `pusha` saves the stack pointer it finds: that of the vector. -/
  esp : regs.esp = p + 36

/-- The interrupted context is back. -/
structure ContextBack (c after : Cpu) : Prop where
  gpr : ∀ r, after.gpr r = c.gpr r
  seg : ∀ s, after.seg s = c.seg s
  cs : after.cs = c.cs
  eip : after.eip = c.eip
  eflags : after.eflags = c.eflags

/-- What the stub of `v` owes the code it interrupts and the handler it calls. -/
def ContextKept (v : Nat) (errCode : Word32) (c called after : Cpu) : Prop :=
  NamesContext v errCode c called.top (Registers.at called.mem called.top) ∧ ContextBack c after

/-- The low half is what it was set to. -/
theorem setWidth_setLow (v : Word32) (low : BitVec 16) : (Cpu.setLow v low).setWidth 16 = low := by
  unfold Cpu.setLow
  ext i small
  simp

/-- A `registers_t` that names the context brings it back. -/
theorem NamesContext.back {v : Nat} {errCode p : Word32} {c after : Cpu} {regs : Registers}
    (named : NamesContext v errCode c p regs) (reloaded : Reloaded regs p after)
    (flat : ∀ s, c.seg s = c.seg .ds) (level : p + 56 = c.gpr .esp) : ContextBack c after := by
  constructor
  case gpr =>
    intro r
    by_cases stack : r = .esp
    · rw [stack, reloaded.esp, level]
    · rw [reloaded.gpr r stack, named.saved r stack]
  case seg =>
    intro s
    rw [reloaded.seg s, named.ds, flat s]
  case cs =>
    rw [reloaded.cs, named.cs]
    simp
  case eip => rw [reloaded.eip, named.eip]
  case eflags => rw [reloaded.eflags, named.eflags]

/-- The common stub completes the frame to a `registers_t` that names the context. -/
theorem Framed.names {v : Nat} {errCode p : Word32} {c entered : Cpu} {regs : Registers}
    (frame : Framed v errCode c entered) (level : p = entered.gpr .esp - 36)
    (saved : regs = {
      ds := Cpu.setLow (entered.gpr .eax) (entered.seg .ds)
      edi := entered.gpr .edi, esi := entered.gpr .esi, ebp := entered.gpr .ebp
      esp := entered.gpr .esp, ebx := entered.gpr .ebx, edx := entered.gpr .edx
      ecx := entered.gpr .ecx, eax := entered.gpr .eax
      intNo := Mem32.load entered.mem (entered.gpr .esp)
      errCode := Mem32.load entered.mem (entered.gpr .esp + 4)
      eip := Mem32.load entered.mem (entered.gpr .esp + 8)
      cs := Mem32.load entered.mem (entered.gpr .esp + 12)
      eflags := Mem32.load entered.mem (entered.gpr .esp + 16) }) :
    NamesContext v errCode c p regs := by
  rw [saved]
  constructor
  case saved =>
    intro r other
    cases r
    case esp => exact absurd rfl other
    all_goals exact frame.gpr _ (by decide)
  case esp =>
    show entered.gpr .esp = p + 36
    rw [level]
    bv_omega
  case ds =>
    show (Cpu.setLow _ (entered.seg .ds)).setWidth 16 = c.seg .ds
    rw [setWidth_setLow, frame.seg]
  case intNo => exact frame.intNo
  case errCode => exact frame.errCode
  case eip => exact frame.eip
  case cs => exact frame.cs
  case eflags => exact frame.eflags

/-- **Interrupt context.**  From the frame the CPU pushes, through the stub and a
handler that leaves its `registers_t` alone, the interrupted context comes back
exactly for the vectors that get one error code. -/
theorem context_kept_iff (v : Fin 48) (errCode : Word32) (c : Cpu)
    (flat : ∀ s, c.seg s = c.seg .ds) :
    ∃ called rest, Cpu.runToCall (stub v ++ commonStub (stubHandler v)) (enterGate v errCode c) =
        some (stubHandler v, called, rest) ∧
      ∀ returned, LeavesRegs called returned →
        (ContextKept v errCode c called (Cpu.execBlock rest returned) ↔
          (v : Nat) ∉ doubleCodeVectors) := by
  obtain ⟨called, run, top, esp, regs⟩ := commonStub_call (stubHandler v)
    (Cpu.execBlock (stub v) (enterGate v errCode c))
  refine ⟨called, _, by rw [Cpu.runToCall_append (call_notMem_stub v), run], fun returned leaves => ?_⟩
  have back := commonStub_return (stubHandler v) returned
  have argument : returned.gpr .esp + 4 = called.top := by
    rw [leaves.esp, esp, top]
    bv_omega
  rw [argument, leaves.regs] at back
  constructor
  · -- a second code leaves the stack pointer four bytes below where it was
    intro kept double
    have low : (Cpu.execBlock (stub v) (enterGate v errCode c)).gpr .esp = c.gpr .esp - 24 :=
      esp_of_double double
    have away := kept.2.gpr .esp
    rw [back.esp, top, low] at away
    bv_omega
  · intro single
    have frame : Framed v errCode c (Cpu.execBlock (stub v) (enterGate v errCode c)) :=
      framed_of_single single
    have named : NamesContext v errCode c called.top (Registers.at called.mem called.top) :=
      frame.names top regs
    refine ⟨named, named.back back flat ?_⟩
    rw [top, frame.esp]
    bv_omega

/-- The divide error of a processor in kernel code, with a handler that does nothing. -/
theorem divide_error_keeps_context :
    ∃ called rest, Cpu.runToCall (stub 0 ++ commonStub .idtHandler) (enterGate 0 0 kernelCpu) =
        some (.idtHandler, called, rest) ∧
      ContextKept 0 0 kernelCpu called (Cpu.execBlock rest called) := by
  obtain ⟨called, rest, run, kept⟩ := context_kept_iff 0 0 kernelCpu fun _ => rfl
  exact ⟨called, rest, run, (kept called ⟨rfl, rfl⟩).mpr (by decide)⟩

/-- The alignment check comes back one word too low, at the address that was its
error code. -/
theorem alignment_check_loses_context :
    ∃ called rest, Cpu.runToCall (stub 17 ++ commonStub .idtHandler) (enterGate 17 0 kernelCpu) =
        some (.idtHandler, called, rest) ∧
      LeavesRegs called called ∧ ¬ContextKept 17 0 kernelCpu called (Cpu.execBlock rest called) ∧
      (Cpu.execBlock rest called).eip = 0 ∧
      (Cpu.execBlock rest called).gpr .esp = kernelCpu.gpr .esp - 4 := by
  refine ⟨_, _, rfl, ⟨rfl, rfl⟩, ?_, by decide +kernel, by decide +kernel⟩
  intro kept
  exact absurd (kept.2.gpr .esp) (by decide +kernel)

end MiniKernel.Kernel
