/-
# Kernel.TimerFrame -- the frame of a timer interrupt and the way back from it

Between the interrupt and the call of `irq_handler` sixty bytes are pushed and nothing else
is written (`timerFrame`): the frame of the CPU, what the stub adds, and the pointer to it.
A handler that comes back with these bytes and the stack above them as they were gives the
interrupted code its registers and its stack (`continues_of_return`).
-/
import MiniKernel.Kernel.StubContext

namespace MiniKernel.Kernel

open Theory

set_option autoImplicit false

/-! ## Pushes -/

/-- From `c` to `c'` the stack grew by `n` bytes, and nothing else was written. -/
structure Pushed (n : Nat) (c c' : Cpu) : Prop where
  esp : (c'.gpr .esp).toNat + n = (c.gpr .esp).toNat
  mem : ∀ a, a < (c'.gpr .esp).toNat ∨ (c.gpr .esp).toNat ≤ a → c'.mem a = c.mem a

namespace Pushed

variable {n : Nat} {c c' c'' : Cpu}

theorem refl (c : Cpu) : Pushed 0 c c := ⟨rfl, fun _ _ => rfl⟩

theorem congr (h : Pushed n c c') (esp : c''.gpr .esp = c'.gpr .esp) (mem : c''.mem = c'.mem) :
    Pushed n c c'' := by
  constructor
  · rw [esp]
    exact h.esp
  · rw [esp, mem]
    exact h.mem

theorem push (h : Pushed n c c') (room : n + 4 ≤ (c.gpr .esp).toNat) (v : Word32) :
    Pushed (n + 4) c (c'.pushWord v) := by
  have level := h.esp
  have below : (c'.gpr .esp - 4).toNat = (c'.gpr .esp).toNat - 4 := by bv_omega
  constructor
  · rw [Cpu.pushWord_esp]
    omega
  · intro a out
    rw [Cpu.pushWord_esp] at out
    rw [Cpu.pushWord_mem, Mem32.store_apply_of_far (by omega), h.mem a (by omega)]

theorem pusha (h : Pushed n c c') (room : n + 32 ≤ (c.gpr .esp).toNat) :
    Pushed (n + 32) c (Cpu.exec .pusha c') := by
  have eax := h.push (by omega) (c'.gpr .eax)
  have ecx := eax.push (by omega) (c'.gpr .ecx)
  have edx := ecx.push (by omega) (c'.gpr .edx)
  have ebx := edx.push (by omega) (c'.gpr .ebx)
  have esp := ebx.push (by omega) (c'.gpr .esp)
  have ebp := esp.push (by omega) (c'.gpr .ebp)
  have esi := ebp.push (by omega) (c'.gpr .esi)
  exact esi.push (by omega) (c'.gpr .edi)

theorem movAxDs (h : Pushed n c c') : Pushed n c (Cpu.exec .movAxDs c') := h.congr rfl rfl

theorem movAxImm (h : Pushed n c c') (v : BitVec 16) : Pushed n c (Cpu.exec (.movAxImm v) c') :=
  h.congr rfl rfl

theorem movSeg (h : Pushed n c c') (s : SegReg) (r : Reg) :
    Pushed n c (Cpu.exec (.movSeg s r) c') := h.congr rfl rfl

theorem trans {k : Nat} (first : Pushed n c c') (second : Pushed k c' c'') :
    Pushed (n + k) c c'' := by
  have level := first.esp
  have level' := second.esp
  refine ⟨by omega, fun a out => ?_⟩
  rw [second.mem a (by omega), first.mem a (by omega)]

end Pushed

/-- The frame of a vector without an error code. -/
theorem pushed_enter {c : Cpu} (room : 60 ≤ (c.gpr .esp).toNat) :
    Pushed 20 c (Cpu.execBlock (stub 32) (enterGate 32 0 c)) := by
  have eflags := (Pushed.refl c).push (by omega) c.eflags
  have cs := eflags.push (by omega) (c.cs.setWidth 32)
  have eip := cs.push (by omega) c.eip
  have masked : Pushed 12 c (Cpu.exec .cli (enterGate 32 0 c)) := eip.congr rfl rfl
  have code := masked.push (by omega) 0
  have vector := code.push (by omega) (BitVec.ofNat 32 32)
  rw [execBlock_stub, if_neg (by decide)]
  exact vector

theorem runToCall_commonStub (h : Label) (c : Cpu) :
    Cpu.runToCall (commonStub h) c =
      some (h, Cpu.execBlock ((commonStub h).take 10) c, (commonStub h).drop 11) := rfl

theorem pushed_commonStub (h : Label) {c : Cpu} (room : 40 ≤ (c.gpr .esp).toNat) :
    Pushed 40 c (Cpu.execBlock ((commonStub h).take 10) c) := by
  simp only [commonStub, List.take_succ_cons, List.take_zero, Cpu.execBlock, List.foldl_cons,
    List.foldl_nil]
  have saved := (Pushed.refl c).pusha (by omega)
  have segment := saved.movAxDs.push (by omega) ((Cpu.exec .movAxDs (Cpu.exec .pusha c)).gpr .eax)
  have loaded := ((((((segment.movAxImm 0x10).movSeg .ds .eax).movSeg .es .eax).movSeg .fs
    .eax).movSeg .gs .eax).movSeg .ss .eax)
  exact loaded.push (by omega) _

/-! ## The timer interrupt -/

/-- The state in which the stub of the timer calls `irq_handler`. -/
def timerCalled (c : Cpu) : Cpu :=
  Cpu.execBlock ((commonStub .irqHandler).take 10) (Cpu.execBlock (stub 32) (enterGate 32 0 c))

/-- What the stub does when `irq_handler` has returned. -/
def timerReturn (c : Cpu) : Cpu := Cpu.execBlock ((commonStub .irqHandler).drop 11) c

theorem runToCall_timer (c : Cpu) :
    Cpu.runToCall (stub 32 ++ commonStub .irqHandler) (enterGate 32 0 c) =
      some (.irqHandler, timerCalled c, (commonStub .irqHandler).drop 11) := by
  rw [Cpu.runToCall_append (call_notMem_stub 32)]
  rfl

/-- What the handler is called with: the frame of the context below the stack pointer. -/
structure TimerFrame (c called : Cpu) : Prop where
  pushed : Pushed 60 c called
  named : NamesContext 32 0 c (called.gpr .esp + 4) (Registers.at called.mem (called.gpr .esp + 4))

theorem timerFrame {c : Cpu} (room : 60 ≤ (c.gpr .esp).toNat) : TimerFrame c (timerCalled c) := by
  have entered := pushed_enter room
  have level := entered.esp
  have frame : Framed 32 0 c (Cpu.execBlock (stub 32) (enterGate 32 0 c)) :=
    framed_of_single (by decide)
  unfold timerCalled
  generalize Cpu.execBlock (stub 32) (enterGate 32 0 c) = e at *
  refine ⟨entered.trans (pushed_commonStub _ (by omega)), ?_⟩
  obtain ⟨called, run, top, esp, regs⟩ := commonStub_call .irqHandler e
  obtain rfl : Cpu.execBlock ((commonStub .irqHandler).take 10) e = called := by
    rw [runToCall_commonStub] at run
    exact (Prod.mk.inj (Prod.mk.inj (Option.some.inj run)).2).1
  have argument : (Cpu.execBlock ((commonStub .irqHandler).take 10) e).gpr .esp + 4 =
      (Cpu.execBlock ((commonStub .irqHandler).take 10) e).top := by
    rw [esp, top]
    bv_omega
  rw [argument]
  exact frame.names top regs

/-- The stub masks interrupts, and nothing up to the call of the handler changes that. -/
theorem timerCalled_masked (c : Cpu) : (timerCalled c).interruptsOn = false := by
  have flags : (timerCalled c).eflags =
      (c.eflags &&& ~~~(0x300 : Word32)) &&& ~~~Cpu.interruptFlag := by
    unfold timerCalled
    rw [execBlock_stub, if_neg (by decide)]
    simp [commonStub, enterGate, Cpu.execBlock, Cpu.exec]
  unfold Cpu.interruptsOn
  rw [flags]
  simp [Cpu.interruptFlag]

theorem Registers.at_congr {m m' : Mem} {p : Word32} (fits : p.toNat + 56 ≤ 4294967296)
    (same : ∀ a, p.toNat ≤ a → a < p.toNat + 56 → m' a = m a) :
    Registers.at m' p = Registers.at m p := by
  have word : ∀ k : Word32, k.toNat + 4 ≤ 56 → Mem32.load m' (p + k) = Mem32.load m (p + k) := by
    intro k small
    have level : (p + k).toNat = p.toNat + k.toNat := by bv_omega
    exact Mem32.load_congr fun a h1 h2 => same a (by omega) (by omega)
  have first : Mem32.load m' p = Mem32.load m p :=
    Mem32.load_congr fun a h1 h2 => same a (by omega) (by omega)
  unfold Registers.at
  rw [first, word 4 (by decide), word 8 (by decide), word 12 (by decide), word 16 (by decide),
    word 20 (by decide), word 24 (by decide), word 28 (by decide), word 32 (by decide),
    word 36 (by decide), word 40 (by decide), word 44 (by decide), word 48 (by decide),
    word 52 (by decide)]

/-- The way out of the stub writes nothing. -/
theorem timerReturn_mem (c : Cpu) : (timerReturn c).mem = c.mem := by
  simp [timerReturn, commonStub, Cpu.execBlock, Cpu.exec, Cpu.popReg, Cpu.drop]

/-- What a thread goes on with is as it was: registers, `eip`, `eflags`, and the stack up to `top`. -/
structure Continues (top : Nat) (c after : Cpu) : Prop where
  gpr : ∀ r, after.gpr r = c.gpr r
  eip : after.eip = c.eip
  eflags : after.eflags = c.eflags
  stack : ∀ a, (c.gpr .esp).toNat ≤ a → a < top → after.mem a = c.mem a

/-- A handler that returns with the frame and the stack above it as they were brings the
context back. -/
theorem continues_of_return {c called back : Cpu} {top : Nat} (frame : TimerFrame c called)
    (below : (c.gpr .esp).toNat ≤ top) (esp : back.gpr .esp = called.gpr .esp)
    (kept : ∀ a, (called.gpr .esp).toNat ≤ a → a < top → back.mem a = called.mem a) :
    Continues top c (timerReturn back) := by
  have level := frame.pushed.esp
  have argument : (called.gpr .esp + 4).toNat = (called.gpr .esp).toNat + 4 := by bv_omega
  have reloaded := commonStub_return .irqHandler back
  rw [esp, Registers.at_congr (m := called.mem) (by omega)
    fun a h1 h2 => kept a (by omega) (by omega)] at reloaded
  constructor
  case gpr =>
    intro r
    by_cases stack : r = .esp
    · have out : (timerReturn back).gpr .esp = called.gpr .esp + 4 + 56 := reloaded.esp
      rw [stack, out]
      bv_omega
    · have out : (timerReturn back).gpr r = _ := reloaded.gpr r stack
      rw [out, frame.named.saved r stack]
  case eip =>
    have out : (timerReturn back).eip = _ := reloaded.eip
    rw [out, frame.named.eip]
  case eflags =>
    have out : (timerReturn back).eflags = _ := reloaded.eflags
    rw [out, frame.named.eflags]
  case stack =>
    intro a h1 h2
    rw [timerReturn_mem, kept a (by omega) h2]
    exact frame.pushed.mem a (.inr h1)

end MiniKernel.Kernel
