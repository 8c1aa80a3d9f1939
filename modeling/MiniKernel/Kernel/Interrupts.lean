/-
# Kernel.Interrupts -- descriptor_tables.c and the stubs of interrupt.s

`init_idt` fills 48 gates, the CPU jumps to the base of a gate, a stub pushes
its vector and saves the registers, and the C handler looks the vector up in
`interrupt_handlers`.

Three facts sum the pieces up for what follows: the base a gate was set to is
the base the CPU jumps to (`base_initIdt`), the stub of a vector calls its
handler with that vector as `int_no` (`stub_int_no`), and the table holds what
was registered last (`handlersAfter_apply`).
-/
import MiniKernel.Kernel.Cpu
import MiniKernel.Kernel.Panic
import Mathlib.Data.List.Induction

namespace MiniKernel.Kernel

set_option autoImplicit false

/-! ## The stubs -/

/-- `ISR_NOERRCODE n` -/
def isrNoErrcode (n : Word32) : List Instr :=
  [.cli, .pushImm 0, .pushImm n, .jmp .isrCommonStub]

/-- `ISR_ERRCODE n` -/
def isrErrcode (n : Word32) : List Instr := [.cli, .pushImm n, .jmp .isrCommonStub]

/-- `IRQ i, n` -/
def irqStub (n : Word32) : List Instr := [.cli, .pushImm 0, .pushImm n, .jmp .irqCommonStub]

/-- What `isr_common_stub` and `irq_common_stub` do around the call of their C
handler. -/
def commonStub (handler : Label) : List Instr :=
  [.pusha, .movAxDs, .push .eax, .movAxImm 0x10, .movSeg .ds .eax, .movSeg .es .eax,
    .movSeg .fs .eax, .movSeg .gs .eax, .movSeg .ss .eax, .push .esp, .call handler, .addEsp 4,
    .pop .ebx, .movSeg .ds .ebx, .movSeg .es .ebx, .movSeg .fs .ebx, .movSeg .gs .ebx,
    .movSeg .ss .ebx, .popa, .addEsp 8, .iret]

/-- The vectors that interrupt.s expands `ISR_ERRCODE` for. -/
def isrErrcodeVectors : List Nat := [8, 10, 11, 12, 13, 14]

/-- `isr0` to `isr31`, then `irq0` to `irq15` under their vectors 32 to 47. -/
def stub (v : Nat) : List Instr :=
  if v < 32 then
    if v ∈ isrErrcodeVectors then isrErrcode (BitVec.ofNat 32 v) else isrNoErrcode (BitVec.ofNat 32 v)
  else irqStub (BitVec.ofNat 32 v)

/-- The C handler that the stub of `v` calls. -/
def stubHandler (v : Nat) : Label := if v < 32 then .idtHandler else .irqHandler

theorem stub_length_ge (v : Nat) : 3 ≤ (stub v).length := by
  unfold stub
  split_ifs <;> simp [isrErrcode, isrNoErrcode, irqStub]

theorem call_notMem_stub (v : Nat) (l : Label) : Instr.call l ∉ stub v := by
  unfold stub
  split_ifs <;> simp [isrErrcode, isrNoErrcode, irqStub]

/-! ## The saved registers -/

/-- `registers_t`, as far as the CPU pushes it without a privilege change. -/
structure Registers where
  ds : Word32
  edi : Word32
  esi : Word32
  ebp : Word32
  esp : Word32
  ebx : Word32
  edx : Word32
  ecx : Word32
  eax : Word32
  intNo : Word32
  errCode : Word32
  eip : Word32
  cs : Word32
  eflags : Word32

/-- The structure that a `registers_t *` points to. -/
def Registers.at (m : Theory.Mem) (p : Word32) : Registers where
  ds := Mem32.load m p
  edi := Mem32.load m (p + 4)
  esi := Mem32.load m (p + 8)
  ebp := Mem32.load m (p + 12)
  esp := Mem32.load m (p + 16)
  ebx := Mem32.load m (p + 20)
  edx := Mem32.load m (p + 24)
  ecx := Mem32.load m (p + 28)
  eax := Mem32.load m (p + 32)
  intNo := Mem32.load m (p + 36)
  errCode := Mem32.load m (p + 40)
  eip := Mem32.load m (p + 44)
  cs := Mem32.load m (p + 48)
  eflags := Mem32.load m (p + 52)

/-- The common stub calls the handler with a pointer to the registers it was
entered with; the words above them are the ones on its stack. -/
theorem commonStub_call (h : Label) (c : Cpu) :
    ∃ called, Cpu.runToCall (commonStub h) c = some (h, called, (commonStub h).drop 11) ∧
      called.top = c.gpr .esp - 36 ∧ called.gpr .esp = c.gpr .esp - 40 ∧
      Registers.at called.mem called.top =
        { ds := Cpu.setLow (c.gpr .eax) (c.seg .ds)
          edi := c.gpr .edi, esi := c.gpr .esi, ebp := c.gpr .ebp, esp := c.gpr .esp
          ebx := c.gpr .ebx, edx := c.gpr .edx, ecx := c.gpr .ecx, eax := c.gpr .eax
          intNo := Mem32.load c.mem (c.gpr .esp)
          errCode := Mem32.load c.mem (c.gpr .esp + 4)
          eip := Mem32.load c.mem (c.gpr .esp + 8)
          cs := Mem32.load c.mem (c.gpr .esp + 12)
          eflags := Mem32.load c.mem (c.gpr .esp + 16) } := by
  refine ⟨_, rfl, ?_, ?_, ?_⟩
  · simp [Cpu.exec, Cpu.top, BitVec.sub_eq_add_neg, BitVec.add_assoc]
  · simp [Cpu.exec, BitVec.sub_eq_add_neg, BitVec.add_assoc]
  · simp only [Cpu.exec, Cpu.top, Registers.at]
    simp (disch := decide) [Mem32.load_store_offset, Mem32.load_store_base, BitVec.sub_eq_add_neg,
      BitVec.add_assoc]

/-- The stub of `v` calls its handler with `int_no = v`. -/
theorem stub_int_no (v : Nat) (c : Cpu) :
    ∃ called, Cpu.runToCall (stub v ++ commonStub (stubHandler v)) c =
        some (stubHandler v, called, (commonStub (stubHandler v)).drop 11) ∧
      (Registers.at called.mem called.top).intNo = BitVec.ofNat 32 v := by
  obtain ⟨called, run, -, -, regs⟩ := commonStub_call (stubHandler v) (Cpu.execBlock (stub v) c)
  refine ⟨called, by rw [Cpu.runToCall_append (call_notMem_stub v), run], ?_⟩
  rw [regs]
  unfold stub
  split_ifs <;> simp [isrErrcode, isrNoErrcode, irqStub, Cpu.execBlock, Cpu.exec]

/-- The exceptions for which the CPU pushes an error code. -/
def cpuErrorCodeVectors : List Nat := [8, 10, 11, 12, 13, 14, 17, 21, 29, 30]

/-- What the CPU does before it jumps through the interrupt gate of `v`. -/
def enterGate (v : Nat) (errCode : Word32) (c : Cpu) : Cpu :=
  let framed := ((c.pushWord c.eflags).pushWord (c.cs.setWidth 32)).pushWord c.eip
  let coded := if v ∈ cpuErrorCodeVectors then framed.pushWord errCode else framed
  { coded with eflags := c.eflags &&& ~~~(0x300 : Word32) }

/-! ## The interrupt descriptor table -/

/-- `idt_entry_t` -/
structure IdtEntry where
  baseLo : BitVec 16
  sel : BitVec 16
  always0 : BitVec 8
  flags : BitVec 8
  baseHi : BitVec 16
  deriving DecidableEq

/-- An entry that `memset` zeroed. -/
def IdtEntry.zero : IdtEntry := ⟨0, 0, 0, 0, 0⟩

/-- The address that the CPU puts together from the two halves. -/
def IdtEntry.base (e : IdtEntry) : Word32 := e.baseHi ++ e.baseLo

/-- `idt_set_gate` -/
def idtSetGate (idt : Nat → IdtEntry) (num : BitVec 8) (base : Word32) (sel : BitVec 16)
    (flags : BitVec 8) : Nat → IdtEntry :=
  Function.update idt num.toNat
    { baseLo := (base &&& 0xFFFF).setWidth 16
      baseHi := ((base >>> 16) &&& 0xFFFF).setWidth 16
      sel, always0 := 0, flags }

/-- The two installation loops of `init_idt`. -/
def initIdt (isr0 irq0 : Word32) : Nat → IdtEntry :=
  let isrs := (List.range 32).foldl
    (fun idt i => idtSetGate idt (BitVec.ofNat 8 i) (isr0 + BitVec.ofNat 32 i) 0x08 0x8E)
    (fun _ => IdtEntry.zero)
  (List.range' 32 16).foldl
    (fun idt i => idtSetGate idt (BitVec.ofNat 8 i) (irq0 + BitVec.ofNat 32 i - 32) 0x08 0x8E) isrs

theorem append_halves (base : Word32) :
    ((base >>> 16) &&& 0xFFFF).setWidth 16 ++ (base &&& 0xFFFF).setWidth 16 = base := by
  apply BitVec.eq_of_toNat_eq
  have low : ∀ n : Nat, n &&& 65535 = n % 65536 := fun n => Nat.and_two_pow_sub_one_eq_mod n 16
  rw [BitVec.toNat_append, ← Nat.shiftLeft_add_eq_or_of_lt (BitVec.isLt _)]
  simp [Nat.shiftLeft_eq, Nat.shiftRight_eq_div_pow, low]
  omega

/-- The CPU reassembles the address that `idt_set_gate` split. -/
theorem base_idtSetGate (idt : Nat → IdtEntry) (num : BitVec 8) (base : Word32) (sel : BitVec 16)
    (flags : BitVec 8) (v : Nat) :
    (idtSetGate idt num base sel flags v).base = if v = num.toNat then base else (idt v).base := by
  by_cases h : v = num.toNat
  · rw [if_pos h, idtSetGate, h, Function.update_self, IdtEntry.base, append_halves]
  · rw [if_neg h, idtSetGate, Function.update_of_ne h]

/-- A loop that installs one gate for each vector of a list. -/
theorem base_install (addr : Nat → Word32) (sel : BitVec 16) (flags : BitVec 8) (v : Nat)
    (vectors : List Nat) (small : ∀ i ∈ vectors, i < 256) (idt : Nat → IdtEntry) :
    (vectors.foldl (fun idt i => idtSetGate idt (BitVec.ofNat 8 i) (addr i) sel flags) idt v).base =
      if v ∈ vectors then addr v else (idt v).base := by
  induction vectors using List.reverseRecOn with
  | nil => rfl
  | append_singleton vectors i ih =>
      have fits : i % 256 = i := Nat.mod_eq_of_lt (small i (by simp))
      rw [List.foldl_append, List.foldl_cons, List.foldl_nil, base_idtSetGate,
        ih fun j mem => small j (List.mem_append_left _ mem), BitVec.toNat_ofNat]
      by_cases same : v = i
      · simp [same, fits]
      · simp [same, fits]

/-- The gate bases `init_idt` installs. -/
theorem base_initIdt (isr0 irq0 : Word32) {v : Nat} (h : v < 48) :
    (initIdt isr0 irq0 v).base =
      if v < 32 then isr0 + BitVec.ofNat 32 v else irq0 + BitVec.ofNat 32 (v - 32) := by
  rw [initIdt, base_install (fun i => irq0 + BitVec.ofNat 32 i - 32) _ _ _ _
      (by simp [List.mem_range']; omega),
    base_install (fun i => isr0 + BitVec.ofNat 32 i) _ _ _ _ (by simp; omega)]
  simp only [List.mem_range, List.mem_range'_1]
  by_cases low : v < 32
  · rw [if_neg (by omega), if_pos low, if_pos low]
  · rw [if_pos (by omega), if_neg low]
    bv_omega

/-! ## The handler table -/

section Handlers

variable {H : Type}

/-- `register_interrupt_handler`; `none` is a null function pointer. -/
def registerInterruptHandler (handlers : Nat → Option H) (n : BitVec 8) (h : Option H) :
    Nat → Option H :=
  Function.update handlers n.toNat h

/-- `interrupt_handlers` after `init_idt` zeroed it and the calls were made. -/
def handlersAfter (calls : List (BitVec 8 × Option H)) : Nat → Option H :=
  calls.foldl (fun handlers call => registerInterruptHandler handlers call.1 call.2) fun _ => none

/-- What a C handler does: the port writes it makes and the function it runs. -/
structure Handled (H : Type) where
  outb : List (BitVec 16 × BitVec 8)
  ran : Option H

/-- `idt_handler` -/
def idtHandler (handlers : Nat → Option H) (intNo : Word32) : Except Panic (Handled H) :=
  match handlers intNo.toNat with
  | some h => .ok ⟨[], some h⟩
  | none => .error .unhandledInterrupt

/-- `irq_handler` -/
def irqHandler (handlers : Nat → Option H) (intNo : Word32) : Except Panic (Handled H) :=
  let eoi := (if 40 ≤ intNo.toNat then [(0xA0, 0x20)] else []) ++ [(0x20, 0x20)]
  match handlers intNo.toNat with
  | some h => .ok ⟨eoi, some h⟩
  | none => .ok ⟨eoi, none⟩

/-- The C handler with label `f`. -/
def callHandler (handlers : Nat → Option H) (f : Label) (intNo : Word32) :
    Except Panic (Handled H) :=
  if f = .irqHandler then irqHandler handlers intNo else idtHandler handlers intNo

/-- The handler last registered for `v`, if it is not null. -/
def lastRegistered (calls : List (BitVec 8 × Option H)) (v : Nat) : Option H :=
  (calls.reverse.find? fun call => call.1.toNat = v).bind Prod.snd

theorem handlersAfter_apply (calls : List (BitVec 8 × Option H)) (v : Nat) :
    handlersAfter calls v = lastRegistered calls v := by
  induction calls using List.reverseRecOn with
  | nil => rfl
  | append_singleton calls call ih =>
      have last : handlersAfter (calls ++ [call]) =
          registerInterruptHandler (handlersAfter calls) call.1 call.2 := by
        simp [handlersAfter]
      rw [last, registerInterruptHandler, Function.update_apply, ih, lastRegistered,
        lastRegistered, List.reverse_append]
      by_cases same : call.1.toNat = v
      · simp [same]
      · simp [same, Ne.symm same]

end Handlers

end MiniKernel.Kernel
