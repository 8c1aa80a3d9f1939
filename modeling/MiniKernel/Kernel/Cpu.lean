/-
# Kernel.Cpu -- the registers, the memory and the instructions of the assembly files

The instructions are those that interrupt.s and thread_asm.s use, on 32-bit
registers and a byte memory.  A block of code is a list of instructions:
`runToCall` executes one up to its next `call`, since what is called is compiled
C whose instructions the sources do not show.  A `jmp` changes nothing, because
a block that contains one goes on with the code at its target.

Words on the stack are reached through `load` and `store`; two words do not
overlap when their distance is at least four either way round
(`load_store_of_apart`), which is what `bv_omega` decides for two offsets from
one stack pointer.
-/
import MiniKernel.Theory.ByteMemory
import Mathlib.Logic.Function.Basic

namespace MiniKernel.Kernel

open Theory

set_option autoImplicit false

/-- A register, an address or a word of memory. -/
abbrev Word32 := BitVec 32

/-- The general registers. -/
inductive Reg where
  | eax | ecx | edx | ebx | esp | ebp | esi | edi
  deriving DecidableEq, Repr

/-- The segment registers the stubs reload. -/
inductive SegReg where
  | ds | es | fs | gs | ss
  deriving DecidableEq, Repr

/-- The assembly labels that are jumped to or called. -/
inductive Label where
  | isrCommonStub | irqCommonStub | idtHandler | irqHandler
  deriving DecidableEq, Repr

inductive Instr where
  | cli
  | pushImm (v : Word32)
  | push (r : Reg)
  | pop (r : Reg)
  | pushf
  | popf
  | pusha
  | popa
  /-- `mov ax, ds` -/
  | movAxDs
  /-- `mov ax, imm` -/
  | movAxImm (v : BitVec 16)
  /-- `mov s, r`, from the low half of `r`. -/
  | movSeg (s : SegReg) (r : Reg)
  /-- `mov r, [a]` -/
  | loadAbs (r : Reg) (a : Word32)
  /-- `mov [a], r` -/
  | storeAbs (a : Word32) (r : Reg)
  /-- `mov r, [base + off]` -/
  | load (r base : Reg) (off : Word32)
  /-- `mov [base + off], r` -/
  | store (base : Reg) (off : Word32) (r : Reg)
  | addEsp (n : Word32)
  | ret
  | iret
  | jmp (l : Label)
  | call (l : Label)
  deriving DecidableEq

namespace Mem32

/-- The word at `a`. -/
def load (m : Mem) (a : Word32) : Word32 := BitVec.ofNat 32 (m.word a.toNat)

/-- Write the word `v` at `a`. -/
def store (m : Mem) (a v : Word32) : Mem := m.setWord a.toNat v.toNat

/-- Two words that do not overlap. -/
def Apart (a b : Word32) : Prop := 4 ≤ (a - b).toNat ∧ 4 ≤ (b - a).toNat

@[simp] theorem load_store (m : Mem) (a v : Word32) : load (store m a v) a = v := by
  unfold load store
  rw [Mem.word_setWord v.isLt, BitVec.ofNat_toNat, BitVec.setWidth_eq]

theorem load_store_of_apart {m : Mem} {a b v : Word32} (apart : Apart a b) :
    load (store m a v) b = load m b := by
  obtain ⟨hab, hba⟩ := apart
  unfold load store
  rw [Mem.word_setWord_of_disjoint]
  bv_omega

/-- Words at two offsets from one base. -/
theorem load_store_offset {m : Mem} {s v x y : Word32} (hxy : 4 ≤ (y - x).toNat)
    (hyx : 4 ≤ (x - y).toNat) : load (store m (s + x) v) (s + y) = load m (s + y) := by
  apply load_store_of_apart
  unfold Apart
  constructor <;> bv_omega

theorem load_store_base {m : Mem} {s v x : Word32} (hxy : 4 ≤ (-x).toNat) (hyx : 4 ≤ x.toNat) :
    load (store m (s + x) v) s = load m s := by
  apply load_store_of_apart
  unfold Apart
  constructor <;> bv_omega

theorem load_store_of_far {m : Mem} {a b v : Word32}
    (far : a.toNat + 4 ≤ b.toNat ∨ b.toNat + 4 ≤ a.toNat) :
    load (store m a v) b = load m b := by
  unfold load store
  rw [Mem.word_setWord_of_disjoint (by omega)]

theorem store_apply_of_far {m : Mem} {a v : Word32} {x : Nat}
    (far : x < a.toNat ∨ a.toNat + 4 ≤ x) :
    store m a v x = m x :=
  Mem.setWord_apply_of_disjoint m _ far

theorem load_congr {m m' : Mem} {a : Word32}
    (same : ∀ x, a.toNat ≤ x → x < a.toNat + 4 → m' x = m x) :
    load m' a = load m a := by
  unfold load
  rw [Mem.word_congr same]

theorem load_store_below {m : Mem} {a v : Word32} : load (store m (a - 4#32) v) a = load m a := by
  rw [BitVec.sub_eq_add_neg]
  exact load_store_base (by decide) (by decide)

end Mem32

open Mem32

/-- The state of the processor and its memory. -/
structure Cpu where
  gpr : Reg → Word32
  seg : SegReg → BitVec 16
  cs : BitVec 16
  eip : Word32
  eflags : Word32
  mem : Mem

namespace Cpu

/-- The interrupt flag of `eflags`. -/
def interruptFlag : Word32 := 0x200

def interruptsOn (c : Cpu) : Bool := c.eflags.getLsbD 9

def setReg (c : Cpu) (r : Reg) (v : Word32) : Cpu := { c with gpr := Function.update c.gpr r v }

def pushWord (c : Cpu) (v : Word32) : Cpu :=
  { c with
    gpr := Function.update c.gpr .esp (c.gpr .esp - 4)
    mem := store c.mem (c.gpr .esp - 4) v }

/-- The word on top of the stack. -/
def top (c : Cpu) : Word32 := Mem32.load c.mem (c.gpr .esp)

/-- Drop the top of the stack. -/
def drop (c : Cpu) : Cpu := c.setReg .esp (c.gpr .esp + 4)

/-- `pop r` -/
def popReg (c : Cpu) (r : Reg) : Cpu := c.drop.setReg r c.top

/-- Replace the low half of a register. -/
def setLow (v : Word32) (low : BitVec 16) : Word32 :=
  (v &&& 0xFFFF0000) ||| low.setWidth 32

/-- One instruction. -/
def exec : Instr → Cpu → Cpu
  | .cli, c => { c with eflags := c.eflags &&& ~~~interruptFlag }
  | .pushImm v, c => c.pushWord v
  | .push r, c => c.pushWord (c.gpr r)
  | .pop r, c => c.popReg r
  | .pushf, c => c.pushWord c.eflags
  | .popf, c => { c.drop with eflags := c.top }
  | .pusha, c =>
      (((((((c.pushWord (c.gpr .eax)).pushWord (c.gpr .ecx)).pushWord (c.gpr .edx)).pushWord
        (c.gpr .ebx)).pushWord (c.gpr .esp)).pushWord (c.gpr .ebp)).pushWord
        (c.gpr .esi)).pushWord (c.gpr .edi)
  | .popa, c =>
      (((((((c.popReg .edi).popReg .esi).popReg .ebp).drop).popReg .ebx).popReg .edx).popReg
        .ecx).popReg .eax
  | .movAxDs, c => c.setReg .eax (setLow (c.gpr .eax) (c.seg .ds))
  | .movAxImm v, c => c.setReg .eax (setLow (c.gpr .eax) v)
  | .movSeg s r, c => { c with seg := Function.update c.seg s ((c.gpr r).setWidth 16) }
  | .loadAbs r a, c => c.setReg r (Mem32.load c.mem a)
  | .storeAbs a r, c => { c with mem := Mem32.store c.mem a (c.gpr r) }
  | .load r base off, c => c.setReg r (Mem32.load c.mem (c.gpr base + off))
  | .store base off r, c => { c with mem := Mem32.store c.mem (c.gpr base + off) (c.gpr r) }
  | .addEsp n, c => c.setReg .esp (c.gpr .esp + n)
  | .ret, c => { c.drop with eip := c.top }
  | .iret, c =>
      let afterEip := c.drop
      let afterCs := afterEip.drop
      { afterCs.drop with
        eip := c.top
        cs := afterEip.top.setWidth 16
        eflags := afterCs.top }
  | .jmp _, c => c
  | .call _, c => c

/-- A block without calls. -/
def execBlock (code : List Instr) (c : Cpu) : Cpu := code.foldl (fun c i => exec i c) c

/-- Execute a block up to its first `call`: the called label, the state in
which it is called, and what is left of the block. -/
def runToCall : List Instr → Cpu → Option (Label × Cpu × List Instr)
  | [], _ => none
  | .call l :: rest, c => some (l, c, rest)
  | i :: rest, c => runToCall rest (exec i c)

/-- A block without calls in front of another. -/
theorem runToCall_append {code rest : List Instr} {c : Cpu} (quiet : ∀ l, Instr.call l ∉ code) :
    runToCall (code ++ rest) c = runToCall rest (execBlock code c) := by
  induction code generalizing c with
  | nil => rfl
  | cons i code ih =>
      have tail := ih (c := exec i c) fun l mem => quiet l (List.mem_cons_of_mem _ mem)
      cases i <;> first | exact tail | exact absurd List.mem_cons_self (quiet _)

/-! ## Frame lemmas -/

@[simp] theorem setReg_gpr (c : Cpu) (r : Reg) (v : Word32) :
    (c.setReg r v).gpr = Function.update c.gpr r v := rfl
@[simp] theorem setReg_mem (c : Cpu) (r : Reg) (v : Word32) : (c.setReg r v).mem = c.mem := rfl
@[simp] theorem setReg_seg (c : Cpu) (r : Reg) (v : Word32) : (c.setReg r v).seg = c.seg := rfl
@[simp] theorem setReg_cs (c : Cpu) (r : Reg) (v : Word32) : (c.setReg r v).cs = c.cs := rfl
@[simp] theorem setReg_eip (c : Cpu) (r : Reg) (v : Word32) : (c.setReg r v).eip = c.eip := rfl
@[simp] theorem setReg_eflags (c : Cpu) (r : Reg) (v : Word32) :
    (c.setReg r v).eflags = c.eflags := rfl

@[simp] theorem pushWord_esp (c : Cpu) (v : Word32) :
    (c.pushWord v).gpr .esp = c.gpr .esp - 4 := by simp [pushWord]
@[simp] theorem pushWord_gpr_of_ne (c : Cpu) (v : Word32) {r : Reg} (h : r ≠ .esp) :
    (c.pushWord v).gpr r = c.gpr r := by simp [pushWord, h]
@[simp] theorem pushWord_mem (c : Cpu) (v : Word32) :
    (c.pushWord v).mem = store c.mem (c.gpr .esp - 4) v := rfl
@[simp] theorem pushWord_seg (c : Cpu) (v : Word32) : (c.pushWord v).seg = c.seg := rfl
@[simp] theorem pushWord_cs (c : Cpu) (v : Word32) : (c.pushWord v).cs = c.cs := rfl
@[simp] theorem pushWord_eip (c : Cpu) (v : Word32) : (c.pushWord v).eip = c.eip := rfl
@[simp] theorem pushWord_eflags (c : Cpu) (v : Word32) : (c.pushWord v).eflags = c.eflags := rfl

end Cpu

end MiniKernel.Kernel
