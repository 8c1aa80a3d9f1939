/-
# Kernel.SwitchThread -- thread_asm.s and the first frame of a thread

`switch_thread` has two halves.  The first fills the `thread_t` of the current thread
and makes the other node the current one (`saved_of_saveThread`); the second loads what
the `thread_t` of that node holds, and the `ret` that follows takes its address from the
stack it finds there (`loadThread_spec`).  Each half is followed on the memory it is given, so that the two
need not belong to one call.

`create_thread` builds the stack and the `thread_t` that the second half takes a new
thread from (`created_of_createThread`).
-/
import MiniKernel.Kernel.StubContext
import Mathlib.Data.BitVec

namespace MiniKernel.Kernel

open Theory

set_option autoImplicit false

/-! ## thread_asm.s -/

/-- `switch_thread`, up to the load of the new stack pointer. -/
def saveThread (currentThread : Word32) : List Instr :=
  [.loadAbs .eax currentThread, .load .eax .eax 0, .store .eax 0 .esp, .store .eax 4 .ebp,
    .store .eax 8 .ebx, .store .eax 12 .esi, .store .eax 16 .edi, .pushf, .pop .ecx,
    .store .eax 20 .ecx, .load .eax .esp 4, .storeAbs currentThread .eax, .load .eax .eax 0]

/-- The rest of `switch_thread`, up to its `ret`: with `popf` interrupts may be on again. -/
def loadThread : List Instr :=
  [.load .esp .eax 0, .load .ebp .eax 4, .load .ebx .eax 8, .load .esi .eax 12,
    .load .edi .eax 16, .load .eax .eax 20, .push .eax, .popf]

/-- `switch_thread` without its `ret`. -/
def switchThread (currentThread : Word32) : List Instr := saveThread currentThread ++ loadThread

/-- `thread_t`, without its number. -/
structure ThreadT where
  esp : Word32
  ebp : Word32
  ebx : Word32
  esi : Word32
  edi : Word32
  eflags : Word32

/-- The structure that a `thread_t *` points to. -/
def ThreadT.at (m : Mem) (p : Word32) : ThreadT where
  esp := Mem32.load m p
  ebp := Mem32.load m (p + 4)
  ebx := Mem32.load m (p + 8)
  esi := Mem32.load m (p + 12)
  edi := Mem32.load m (p + 16)
  eflags := Mem32.load m (p + 20)

/-- The registers that `switch_thread` saves. -/
def ThreadT.of (c : Cpu) : ThreadT where
  esp := c.gpr .esp
  ebp := c.gpr .ebp
  ebx := c.gpr .ebx
  esi := c.gpr .esi
  edi := c.gpr .edi
  eflags := c.eflags

/-- The second half takes everything from the `thread_t`. -/
structure Loaded (t : ThreadT) (c after : Cpu) : Prop where
  esp : after.gpr .esp = t.esp
  ebp : after.gpr .ebp = t.ebp
  ebx : after.gpr .ebx = t.ebx
  esi : after.gpr .esi = t.esi
  edi : after.gpr .edi = t.edi
  eflags : after.eflags = t.eflags
  /-- The return address is on the stack that was left. -/
  top : after.top = Mem32.load c.mem t.esp
  mem : after.mem = Mem32.store c.mem (t.esp - 4) t.eflags
  seg : after.seg = c.seg
  cs : after.cs = c.cs

/-! ## The two halves -/

theorem loadThread_spec (c : Cpu) :
    Loaded (ThreadT.at c.mem (c.gpr .eax)) c (Cpu.execBlock loadThread c) := by
  constructor
  all_goals
    simp [loadThread, Cpu.execBlock, Cpu.exec, Cpu.drop, Cpu.top, ThreadT.at,
      Mem32.load_store_below]

/-- What the first half writes lies apart: the `thread_t` at `record`, `current_thread` and
the word below the stack pointer. -/
structure SaveRoom (currentThread record esp : Word32) : Prop where
  fitsRecord : record.toNat + 24 ≤ 4294967296
  fitsStack : 4 ≤ esp.toNat ∧ esp.toNat + 8 ≤ 4294967296
  recordStack : record.toNat + 24 ≤ esp.toNat - 4 ∨ esp.toNat + 8 ≤ record.toNat
  currentStack : currentThread.toNat + 4 ≤ esp.toNat - 4 ∨ esp.toNat + 8 ≤ currentThread.toNat
  currentRecord : currentThread.toNat + 4 ≤ record.toNat ∨
    record.toNat + 24 ≤ currentThread.toNat

/-- The bytes that the first half writes. -/
def Saves (currentThread record esp : Word32) (a : Nat) : Prop :=
  record.toNat ≤ a ∧ a < record.toNat + 24 ∨ esp.toNat - 4 ≤ a ∧ a < esp.toNat ∨
    currentThread.toNat ≤ a ∧ a < currentThread.toNat + 4

/-- The first half of `switch_thread`, called with a pointer to a node. -/
structure Saved (currentThread record node : Word32) (c after : Cpu) : Prop where
  thread : ThreadT.at after.mem record = ThreadT.of c
  current : Mem32.load after.mem currentThread = node
  eax : after.gpr .eax = Mem32.load after.mem node
  mem : ∀ a, ¬Saves currentThread record (c.gpr .esp) a → after.mem a = c.mem a
  seg : after.seg = c.seg
  cs : after.cs = c.cs

/-- The memory that the first half leaves. -/
def savedMem (currentThread record node : Word32) (c : Cpu) : Mem :=
  let m := Mem32.store c.mem record (c.gpr .esp)
  let m := Mem32.store m (record + 4) (c.gpr .ebp)
  let m := Mem32.store m (record + 8) (c.gpr .ebx)
  let m := Mem32.store m (record + 12) (c.gpr .esi)
  let m := Mem32.store m (record + 16) (c.gpr .edi)
  let m := Mem32.store m (c.gpr .esp - 4) c.eflags
  let m := Mem32.store m (record + 20) c.eflags
  Mem32.store m currentThread node

section Halves

variable {currentThread record node : Word32} {c : Cpu}

/-- The first half, as one write after the other. -/
theorem saveThread_mem (room : SaveRoom currentThread record (c.gpr .esp))
    (own : Mem32.load c.mem (Mem32.load c.mem currentThread) = record)
    (argument : Mem32.load c.mem (c.gpr .esp + 4) = node) :
    (Cpu.execBlock (saveThread currentThread) c).mem = savedMem currentThread record node c := by
  obtain ⟨fitsRecord, fitsStack, recordStack, currentStack, currentRecord⟩ := room
  have h4 : (record + 4#32).toNat = record.toNat + 4 := by bv_omega
  have h8 : (record + 8#32).toNat = record.toNat + 8 := by bv_omega
  have h12 : (record + 12#32).toNat = record.toNat + 12 := by bv_omega
  have h16 : (record + 16#32).toNat = record.toNat + 16 := by bv_omega
  have h20 : (record + 20#32).toNat = record.toNat + 20 := by bv_omega
  have below : (c.gpr .esp - 4#32).toNat = (c.gpr .esp).toNat - 4 := by bv_omega
  have above : (c.gpr .esp + 4#32).toNat = (c.gpr .esp).toNat + 4 := by bv_omega
  have argument : Mem32.load c.mem (c.gpr .esp + 4#32) = node := argument
  simp [saveThread, savedMem, Cpu.execBlock, Cpu.exec, Cpu.popReg, Cpu.drop, Cpu.top, own]
  simp (disch := omega) only [Mem32.load_store_of_far, argument]

theorem saved_of_saveThread (room : SaveRoom currentThread record (c.gpr .esp))
    (own : Mem32.load c.mem (Mem32.load c.mem currentThread) = record)
    (argument : Mem32.load c.mem (c.gpr .esp + 4) = node) :
    Saved currentThread record node c (Cpu.execBlock (saveThread currentThread) c) := by
  have mem := saveThread_mem room own argument
  obtain ⟨fitsRecord, fitsStack, recordStack, currentStack, currentRecord⟩ := room
  have h4 : (record + 4).toNat = record.toNat + 4 := by bv_omega
  have h8 : (record + 8).toNat = record.toNat + 8 := by bv_omega
  have h12 : (record + 12).toNat = record.toNat + 12 := by bv_omega
  have h16 : (record + 16).toNat = record.toNat + 16 := by bv_omega
  have h20 : (record + 20).toNat = record.toNat + 20 := by bv_omega
  have below : (c.gpr .esp - 4).toNat = (c.gpr .esp).toNat - 4 := by bv_omega
  constructor
  case thread =>
    rw [mem, ThreadT.at, ThreadT.of, savedMem]
    simp (disch := omega) only [Mem32.load_store_of_far, Mem32.load_store]
  case current =>
    rw [mem, savedMem]
    exact Mem32.load_store _ _ _
  case mem =>
    intro a out
    unfold Saves at out
    rw [mem, savedMem]
    simp (disch := omega) only [Mem32.store_apply_of_far]
  case eax =>
    have last : (Cpu.execBlock (saveThread currentThread) c).gpr .eax =
        Mem32.load (Cpu.execBlock (saveThread currentThread) c).mem
          (Mem32.load (Cpu.execBlock (saveThread currentThread) c).mem currentThread) := by
      simp [saveThread, Cpu.execBlock, Cpu.exec, Cpu.popReg, Cpu.drop, Cpu.top]
    rw [last, mem]
    simp only [savedMem, Mem32.load_store]
  all_goals
    simp [saveThread, Cpu.execBlock, Cpu.exec, Cpu.popReg, Cpu.drop, Cpu.top]

end Halves

/-! ## create_thread -/

/-- The memory that `create_thread` leaves, with the `thread_t` it got from `kmalloc`. -/
def createThread (threadExit : Word32) (m : Mem) (thread : Word32) (id : Word32)
    (fn arg stack : Word32) : Mem :=
  -- memset(thread, 0, sizeof(thread_t))
  let m := m.zeroBytes thread.toNat 28
  let m := Mem32.store m (thread + 24) id
  let m := Mem32.store m (stack - 4) arg
  let m := Mem32.store m (stack - 8) threadExit
  let m := Mem32.store m (stack - 12) fn
  let m := Mem32.store m thread (stack - 12)
  let m := Mem32.store m (thread + 4) 0
  Mem32.store m (thread + 20) 0x200

/-- A thread that has not run: its registers, and the three words on its stack. -/
structure Created (threadExit : Word32) (m : Mem) (thread fn arg stack : Word32) : Prop where
  thread : ThreadT.at m thread =
    { esp := stack - 12, ebp := 0, ebx := 0, esi := 0, edi := 0, eflags := 0x200 }
  fn : Mem32.load m (stack - 12) = fn
  exit : Mem32.load m (stack - 8) = threadExit
  arg : Mem32.load m (stack - 4) = arg

theorem load_zeroBytes {m : Mem} {a : Nat} {b : Word32}
    (inside : a ≤ b.toNat ∧ b.toNat + 4 ≤ a + 28) : Mem32.load (m.zeroBytes a 28) b = 0 := by
  have zero : ∀ i, i < 4 → m.zeroBytes a 28 (b.toNat + i) = 0 := by
    intro i less
    unfold Mem.zeroBytes
    rw [if_pos (by omega), if_pos (by omega)]
  have first := zero 0 (by omega)
  rw [Nat.add_zero] at first
  unfold Mem32.load Mem.word
  rw [first, zero 1 (by omega), zero 2 (by omega), zero 3 (by omega)]
  rfl

section Create

variable {threadExit thread id fn arg stack : Word32} {m : Mem}

theorem created_of_createThread (fits : thread.toNat + 28 ≤ 4294967296) (room : 12 ≤ stack.toNat)
    (apart : thread.toNat + 28 ≤ stack.toNat - 12 ∨ stack.toNat ≤ thread.toNat) :
    Created threadExit (createThread threadExit m thread id fn arg stack) thread fn arg stack := by
  have h4 : (thread + 4).toNat = thread.toNat + 4 := by bv_omega
  have h8 : (thread + 8).toNat = thread.toNat + 8 := by bv_omega
  have h12 : (thread + 12).toNat = thread.toNat + 12 := by bv_omega
  have h16 : (thread + 16).toNat = thread.toNat + 16 := by bv_omega
  have h20 : (thread + 20).toNat = thread.toNat + 20 := by bv_omega
  have h24 : (thread + 24).toNat = thread.toNat + 24 := by bv_omega
  have s4 : (stack - 4).toNat = stack.toNat - 4 := by bv_omega
  have s8 : (stack - 8).toNat = stack.toNat - 8 := by bv_omega
  have s12 : (stack - 12).toNat = stack.toNat - 12 := by bv_omega
  constructor
  case thread =>
    unfold ThreadT.at createThread
    simp (disch := omega) only [Mem32.load_store_of_far, Mem32.load_store, load_zeroBytes]
  all_goals
    unfold createThread
    simp (disch := omega) only [Mem32.load_store_of_far, Mem32.load_store]

/-- `create_thread` writes the `thread_t` and the top of the stack. -/
theorem createThread_apply (fits : thread.toNat + 28 ≤ 4294967296) (room : 12 ≤ stack.toNat)
    {a : Nat} (record : a < thread.toNat ∨ thread.toNat + 28 ≤ a)
    (outside : a < stack.toNat - 12 ∨ stack.toNat ≤ a) :
    createThread threadExit m thread id fn arg stack a = m a := by
  have h4 : (thread + 4).toNat = thread.toNat + 4 := by bv_omega
  have h20 : (thread + 20).toNat = thread.toNat + 20 := by bv_omega
  have h24 : (thread + 24).toNat = thread.toNat + 24 := by bv_omega
  have s4 : (stack - 4).toNat = stack.toNat - 4 := by bv_omega
  have s8 : (stack - 8).toNat = stack.toNat - 8 := by bv_omega
  have s12 : (stack - 12).toNat = stack.toNat - 12 := by bv_omega
  unfold createThread
  simp (disch := omega) only [Mem32.store_apply_of_far]
  unfold Mem.zeroBytes
  split_ifs <;> first | rfl | omega

end Create

end MiniKernel.Kernel
