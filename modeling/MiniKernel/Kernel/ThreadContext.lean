/-
# Kernel.ThreadContext -- a preempted thread gets its context back

The context of a thread that was preempted is in two places: the frame that the CPU and the
stub pushed on its stack, and the `thread_t` that `switch_thread` filled.  `Suspended` says
that both are there, with the stack in between as the C code left it.  While other threads
run nothing is written to either (`Suspended.congr`), so the second half of a later
`switch_thread`, the rest of the C code and the rest of the stub find them.

The compiled `irq_handler`, `timer_callback` and `schedule` are relations between the state
at the call, at the call of `switch_thread` and at the return; `Cdecl` says what is assumed of
them.  `preemption_transparent` is the result for every run.
-/
import MiniKernel.Kernel.SwitchThread
import MiniKernel.Kernel.TimerFrame
import MiniKernel.Theory.Transition

namespace MiniKernel.Kernel

open Theory

set_option autoImplicit false

/-! ## Threads in memory -/

/-- Where the threads are: their `thread_t` records and their stacks, which do not overlap,
and the variable `current_thread`. -/
structure ThreadLayout (T : Type) where
  currentThread : Word32
  record : T → Word32
  /-- The lowest byte of a stack. -/
  low : T → Nat
  /-- The end of a stack, which `create_thread` is given. -/
  top : T → Word32
  fits : ∀ t, (record t).toNat + 28 ≤ 4294967296
  stackStack : ∀ t u, t ≠ u → (top t).toNat ≤ low u ∨ (top u).toNat ≤ low t
  recordRecord : ∀ t u, t ≠ u →
    (record t).toNat + 28 ≤ (record u).toNat ∨ (record u).toNat + 28 ≤ (record t).toNat
  recordStack : ∀ t u, (record t).toNat + 28 ≤ low u ∨ (top u).toNat ≤ (record t).toNat
  currentRecord : ∀ t, currentThread.toNat + 4 ≤ (record t).toNat ∨
    (record t).toNat + 28 ≤ currentThread.toNat
  currentStack : ∀ t, currentThread.toNat + 4 ≤ low t ∨ (top t).toNat ≤ currentThread.toNat

namespace ThreadLayout

variable {T : Type} (L : ThreadLayout T)

/-- The bytes of a thread: its record and its stack. -/
def Area (t : T) (a : Nat) : Prop :=
  (L.record t).toNat ≤ a ∧ a < (L.record t).toNat + 28 ∨ L.low t ≤ a ∧ a < (L.top t).toNat

/-- The stack pointer is within the stack of `t`. -/
def OnStack (t : T) (c : Cpu) : Prop :=
  L.low t ≤ (c.gpr .esp).toNat ∧ (c.gpr .esp).toNat ≤ (L.top t).toNat

/-- A node of the thread list for `t`, outside the memory of the threads. -/
structure Node (m : Mem) (node : Word32) (t : T) : Prop where
  thread : Mem32.load m node = L.record t
  outside : ∀ a, node.toNat ≤ a → a < node.toNat + 4 → ∀ u, ¬L.Area u a
  apart : node.toNat + 4 ≤ L.currentThread.toNat ∨ L.currentThread.toNat + 4 ≤ node.toNat

/-- `current_thread` points to a node of `t`. -/
def Current (m : Mem) (t : T) : Prop := L.Node m (Mem32.load m L.currentThread) t

/-- A call made on the stack of `t` leaves alone what is not its own: the memory of the
threads, but for the stack below the call, and whose turn it is. -/
def Leaves (t : T) (c : Cpu) (m m' : Mem) : Prop :=
  (∀ u a, L.Area u a → ¬(L.low t ≤ a ∧ a < (c.gpr .esp).toNat) → m' a = m a) ∧
    ∀ u, L.Current m u → L.Current m' u

end ThreadLayout

/-! ## The compiled code -/

/-- The compiled C code of a timer interrupt. -/
structure Compiled where
  /-- From the call of `irq_handler` to the call of `switch_thread`. -/
  descend : Cpu → Cpu → Prop
  /-- From the return of `switch_thread` to the return of `irq_handler`. -/
  ascend : Cpu → Cpu → Prop
  /-- `irq_handler`, when `schedule` finds no other thread. -/
  straight : Cpu → Cpu → Prop
  /-- The return address of the call of `switch_thread`. -/
  behindSwitch : Word32
  /-- The address of the `ret` of `switch_thread`. -/
  switchRet : Word32

/-- The registers that a cdecl function keeps. -/
def SameSaved (c c' : Cpu) : Prop :=
  c'.gpr .ebp = c.gpr .ebp ∧ c'.gpr .ebx = c.gpr .ebx ∧ c'.gpr .esi = c.gpr .esi ∧
    c'.gpr .edi = c.gpr .edi

section Assumptions

variable {T : Type} (L : ThreadLayout T) (C : Compiled)

/-- `switch_thread` is called on the stack the interrupt found, below the frame, with the
interrupts still off. -/
structure Descended (t : T) (called s : Cpu) : Prop where
  room : L.low t + 4 ≤ (s.gpr .esp).toNat
  below : (s.gpr .esp).toNat + 8 ≤ (called.gpr .esp).toNat
  back : Mem32.load s.mem (s.gpr .esp) = C.behindSwitch
  flag : s.interruptsOn = called.interruptsOn
  leaves : L.Leaves t called called.mem s.mem

/-- What `switch_thread` owes its caller: the stack pointer, the saved registers and the
stack of the call. -/
structure SwitchReturned (called s r : Cpu) : Prop where
  esp : r.gpr .esp = s.gpr .esp + 4
  saved : SameSaved s r
  stack : ∀ a, (s.gpr .esp).toNat + 4 ≤ a → a < (called.gpr .esp).toNat → r.mem a = s.mem a

/-- The handler is back on the stack that it was called on. -/
structure HandlerReturned (t : T) (called : Cpu) (m : Mem) (back : Cpu) : Prop where
  esp : back.gpr .esp = called.gpr .esp
  saved : SameSaved called back
  leaves : L.Leaves t called m back.mem

/-- What is assumed of the compiled code. -/
structure Cdecl : Prop where
  descend : ∀ {t : T} {called s : Cpu}, L.OnStack t called → C.descend called s →
    Descended L C t called s
  ascend : ∀ {t : T} {called s r back : Cpu}, L.OnStack t called → C.descend called s →
    SwitchReturned called s r → C.ascend r back → HandlerReturned L t called r.mem back
  straight : ∀ {t : T} {called back : Cpu}, L.OnStack t called → C.straight called back →
    HandlerReturned L t called called.mem back

end Assumptions

/-! ## Runs -/

/-- Where a thread that does not run will go on. -/
inductive Status where
  /-- It runs, or `create_thread` has not made it ready. -/
  | none
  | created (fn arg : Word32)
  | preempted (context : Cpu)

/-- The processor, the thread it runs, and where the others will go on. -/
structure Threading (T : Type) where
  cpu : Cpu
  running : T
  status : T → Status

inductive SwitchEvent where
  /-- The running thread executes instructions. -/
  | exec
  /-- It makes the thread that it created ready. -/
  | ready
  | timer
  deriving DecidableEq

/-- The statuses when the running thread is interrupted. -/
def Threading.paused {T : Type} [DecidableEq T] (s : Threading T) : T → Status :=
  Function.update s.status s.running (.preempted s.cpu)

/-- A timer interrupt may come, and the stack has room for its frame. -/
structure Interruptible {T : Type} (L : ThreadLayout T) (t : T) (c : Cpu) : Prop where
  on : c.interruptsOn = true
  room : L.low t + 60 ≤ (c.gpr .esp).toNat
  below : (c.gpr .esp).toNat ≤ (L.top t).toNat

/-- How the processor goes on from the `ret` of `switch_thread`: with the rest of an interrupt
that came before, or in a thread that has not run.  That thread may be interrupted at the
`ret` already. -/
inductive Resumed (C : Compiled) (p : Cpu) : Cpu → Prop where
  | rest {back : Cpu} (address : (Cpu.exec .ret p).eip = C.behindSwitch)
      (ran : C.ascend (Cpu.exec .ret p) back) : Resumed C p (timerReturn back)
  | start (address : (Cpu.exec .ret p).eip ≠ C.behindSwitch) : Resumed C p (Cpu.exec .ret p)
  | boundary (on : p.interruptsOn = true) : Resumed C p { p with eip := C.switchRet }

section Runs

variable {T : Type} [DecidableEq T]

/-- One step. -/
inductive SwitchStep (L : ThreadLayout T) (C : Compiled) (threadExit : Word32) :
    Threading T → SwitchEvent → Threading T → Prop where
  | exec {s : Threading T} {c : Cpu}
      (others : ∀ u a, u ≠ s.running → s.status u ≠ .none → L.Area u a → c.mem a = s.cpu.mem a)
      (current : L.Current c.mem s.running) :
      SwitchStep L C threadExit s .exec { s with cpu := c }
  | ready {s : Threading T} {c : Cpu} {t : T} {m : Mem} {id fn arg : Word32}
      (others : ∀ u a, u ≠ s.running → s.status u ≠ .none → L.Area u a → c.mem a = s.cpu.mem a)
      (current : L.Current c.mem s.running) (fresh : t ≠ s.running) (absent : s.status t = .none)
      (room : L.low t + 16 ≤ (L.top t).toNat) (function : fn ≠ C.behindSwitch)
      -- what the stores of `create_thread` leave, over whatever was there before
      (made : ∀ a, L.Area t a →
        c.mem a = createThread threadExit m (L.record t) id fn arg (L.top t) a) :
      SwitchStep L C threadExit s .ready
        { s with cpu := c, status := Function.update s.status t (.created fn arg) }
  | straight {s : Threading T} {back : Cpu} (may : Interruptible L s.running s.cpu)
      (ran : C.straight (timerCalled s.cpu) back) :
      SwitchStep L C threadExit s .timer { s with cpu := timerReturn back }
  -- the node is the one that `schedule` took from the ready queue
  | switch {s : Threading T} {called after : Cpu} {t : T} (may : Interruptible L s.running s.cpu)
      (down : C.descend (timerCalled s.cpu) called)
      (node : L.Node called.mem (Mem32.load called.mem (called.gpr .esp + 4)) t)
      (waiting : s.paused t ≠ .none)
      (up : Resumed C (Cpu.execBlock (switchThread L.currentThread) called) after) :
      SwitchStep L C threadExit s .timer
        { cpu := after, running := t, status := Function.update s.paused t .none }

/-- The first instruction of a thread. -/
structure Starts (threadExit fn arg : Word32) (c : Cpu) : Prop where
  eip : c.eip = fn
  exit : c.top = threadExit
  arg : Mem32.load c.mem (c.gpr .esp + 4) = arg
  ebp : c.gpr .ebp = 0
  eflags : c.eflags = 0x200

/-- What a thread finds when it goes on. -/
def Resumption (C : Compiled) (threadExit : Word32) (top : Nat) (c : Cpu) : Status → Prop
  | .none => False
  | .created fn arg =>
      Starts threadExit fn arg c ∨
        c.eip = C.switchRet ∧ Starts threadExit fn arg (Cpu.exec .ret c)
  | .preempted context => Continues top context c

end Runs

/-! ## What stays with a thread that waits -/

theorem ThreadT.at_congr {m m' : Mem} {p : Word32} (fits : p.toNat + 28 ≤ 4294967296)
    (same : ∀ a, p.toNat ≤ a → a < p.toNat + 28 → m' a = m a) :
    ThreadT.at m' p = ThreadT.at m p := by
  have word : ∀ k : Word32, k.toNat + 4 ≤ 28 → Mem32.load m' (p + k) = Mem32.load m (p + k) := by
    intro k small
    have level : (p + k).toNat = p.toNat + k.toNat := by bv_omega
    exact Mem32.load_congr fun a h1 h2 => same a (by omega) (by omega)
  have first : Mem32.load m' p = Mem32.load m p :=
    Mem32.load_congr fun a h1 h2 => same a (by omega) (by omega)
  unfold ThreadT.at
  rw [first, word 4 (by decide), word 8 (by decide), word 12 (by decide), word 16 (by decide),
    word 20 (by decide)]

namespace ThreadLayout

variable {T : Type} {L : ThreadLayout T} {t u : T} {m m' : Mem} {a : Nat}

theorem area_record (h : (L.record t).toNat ≤ a ∧ a < (L.record t).toNat + 28) : L.Area t a :=
  .inl h

theorem area_stack (h : L.low t ≤ a ∧ a < (L.top t).toNat) : L.Area t a := .inr h

theorem area_disjoint (first : L.Area t a) (second : L.Area u a) : t = u := by
  by_contra other
  have records := L.recordRecord t u other
  have apart := L.stackStack t u other
  have mixed := L.recordStack t u
  have mixed' := L.recordStack u t
  unfold Area at first second
  omega

/-- The variable `current_thread` is outside the memory of the threads. -/
theorem currentThread_outside (h : L.currentThread.toNat ≤ a ∧ a < L.currentThread.toNat + 4)
    (t : T) : ¬L.Area t a := by
  have record := L.currentRecord t
  have stack := L.currentStack t
  unfold Area
  omega

theorem Node.congr {node : Word32} (h : L.Node m node t)
    (same : ∀ a, node.toNat ≤ a → a < node.toNat + 4 → m' a = m a) : L.Node m' node t := by
  refine ⟨?_, h.outside, h.apart⟩
  rw [Mem32.load_congr same]
  exact h.thread

/-- Whose turn it is does not depend on the memory of the threads. -/
theorem Current.congr (h : L.Current m t) (same : ∀ a, (∀ u, ¬L.Area u a) → m' a = m a) :
    L.Current m' t := by
  have variable_kept : Mem32.load m' L.currentThread = Mem32.load m L.currentThread :=
    Mem32.load_congr fun a h1 h2 => same a (L.currentThread_outside ⟨h1, h2⟩)
  unfold Current
  rw [variable_kept]
  exact Node.congr h fun a h1 h2 => same a (Node.outside h a h1 h2)

end ThreadLayout

section Kept

variable {T : Type} (L : ThreadLayout T) (C : Compiled) (threadExit : Word32)

/-- Thread `t` was interrupted in the context `c` and switched away from in the state `s`. -/
structure Held (m : Mem) (t : T) (c s : Cpu) : Prop where
  may : Interruptible L t c
  down : C.descend (timerCalled c) s
  record : ThreadT.at m (L.record t) = ThreadT.of s
  stack : ∀ a, (s.gpr .esp).toNat ≤ a → a < (L.top t).toNat → m a = s.mem a

def Suspended (m : Mem) (t : T) (c : Cpu) : Prop := ∃ s, Held L C m t c s

/-- What memory keeps for a thread that waits. -/
def KeptFor (m : Mem) (t : T) : Status → Prop
  | .none => True
  | .created fn arg =>
      fn ≠ C.behindSwitch ∧ L.low t + 16 ≤ (L.top t).toNat ∧
        Created threadExit m (L.record t) fn arg (L.top t)
  | .preempted c => Suspended L C m t c

variable {L C threadExit} {m m' : Mem} {t : T}

theorem Interruptible.onStack {c : Cpu} (may : Interruptible L t c) :
    L.OnStack t (timerCalled c) := by
  have room := may.room
  have below := may.below
  have level := (timerFrame (c := c) (by omega)).pushed.esp
  unfold ThreadLayout.OnStack
  omega

theorem Held.congr {c s : Cpu} (cdecl : Cdecl L C) (h : Held L C m t c s)
    (same : ∀ a, L.Area t a → m' a = m a) : Held L C m' t c s := by
  have room := (cdecl.descend h.may.onStack h.down).room
  refine ⟨h.may, h.down, ?_, fun a h1 h2 => ?_⟩
  · rw [ThreadT.at_congr (L.fits t) fun a h1 h2 => same a (L.area_record ⟨h1, h2⟩)]
    exact h.record
  · rw [same a (L.area_stack ⟨by omega, h2⟩)]
    exact h.stack a h1 h2

theorem Suspended.congr {c : Cpu} (cdecl : Cdecl L C) (h : Suspended L C m t c)
    (same : ∀ a, L.Area t a → m' a = m a) : Suspended L C m' t c := by
  obtain ⟨s, held⟩ := h
  exact ⟨s, held.congr cdecl same⟩

theorem Created.congr {thread fn arg stack : Word32} (h : Created threadExit m thread fn arg stack)
    (fits : thread.toNat + 28 ≤ 4294967296) (room : 12 ≤ stack.toNat)
    (record : ∀ a, thread.toNat ≤ a → a < thread.toNat + 28 → m' a = m a)
    (words : ∀ a, stack.toNat - 12 ≤ a → a < stack.toNat → m' a = m a) :
    Created threadExit m' thread fn arg stack := by
  have word : ∀ k : Word32, 4 ≤ k.toNat → k.toNat ≤ 12 →
      Mem32.load m' (stack - k) = Mem32.load m (stack - k) := by
    intro k h1 h2
    have level : (stack - k).toNat = stack.toNat - k.toNat := by bv_omega
    exact Mem32.load_congr fun a h3 h4 => words a (by omega) (by omega)
  constructor
  · rw [ThreadT.at_congr fits record]
    exact h.thread
  · rw [word 12 (by decide) (by decide)]
    exact h.fn
  · rw [word 8 (by decide) (by decide)]
    exact h.exit
  · rw [word 4 (by decide) (by decide)]
    exact h.arg

/-- What is kept for a thread is in its own memory. -/
theorem KeptFor.congr {status : Status} (cdecl : Cdecl L C) (h : KeptFor L C threadExit m t status)
    (same : ∀ a, L.Area t a → m' a = m a) : KeptFor L C threadExit m' t status := by
  cases status with
  | none => trivial
  | created fn arg =>
      obtain ⟨function, room, created⟩ := h
      refine ⟨function, room, created.congr (L.fits t) (by omega) ?_ ?_⟩
      · exact fun a h1 h2 => same a (L.area_record ⟨h1, h2⟩)
      · exact fun a h1 h2 => same a (L.area_stack ⟨by omega, h2⟩)
  | preempted c => exact Suspended.congr cdecl h same

end Kept

/-! ## Switching away -/

section Switch

variable {T : Type} {L : ThreadLayout T} {C : Compiled} {threadExit : Word32} {t u : T}
  {c s : Cpu}

/-- The frame of an interrupt is all that was written when the handler is called. -/
theorem Interruptible.called_mem {a : Nat} (may : Interruptible L u c)
    (outside : ¬(L.low u ≤ a ∧ a < (c.gpr .esp).toNat)) : (timerCalled c).mem a = c.mem a := by
  have room := may.room
  have pushed := (timerFrame (c := c) (by omega)).pushed
  have level := pushed.esp
  exact pushed.mem a (by omega)

theorem Interruptible.called_current (may : Interruptible L u c) (own : L.Current c.mem t) :
    L.Current (timerCalled c).mem t := by
  have below := may.below
  refine own.congr fun a outside => may.called_mem fun inside => ?_
  exact outside u (L.area_stack ⟨inside.1, by omega⟩)

/-- The first half of `switch_thread` on the stack of `u`, with a node of `t`. -/
structure SwitchedAway (L : ThreadLayout T) (C : Compiled) (u t : T) (c s mid : Cpu) : Prop where
  others : ∀ v a, v ≠ u → L.Area v a → mid.mem a = c.mem a
  held : Held L C mid.mem u c s
  current : L.Current mid.mem t
  eax : mid.gpr .eax = L.record t

theorem saveRoom (d : Descended L C u (timerCalled c) s) (may : Interruptible L u c) :
    SaveRoom L.currentThread (L.record u) (s.gpr .esp) := by
  have fits := L.fits u
  have room := d.room
  have below := d.below
  have on_stack := may.onStack.2
  have record := L.recordStack u u
  have stack := L.currentStack u
  have variable_apart := L.currentRecord u
  constructor <;> omega

theorem switchedAway (cdecl : Cdecl L C) (may : Interruptible L u c) (own : L.Current c.mem u)
    (down : C.descend (timerCalled c) s)
    (node : L.Node s.mem (Mem32.load s.mem (s.gpr .esp + 4)) t) :
    SwitchedAway L C u t c s (Cpu.execBlock (saveThread L.currentThread) s) := by
  have d := cdecl.descend may.onStack down
  have room := saveRoom d may
  have below := d.below
  have on_stack := may.onStack.2
  have saved := saved_of_saveThread room (d.leaves.2 u (may.called_current own)).thread rfl
  -- all that is written is the record, a word of the stack and the variable
  have written : ∀ a, Saves L.currentThread (L.record u) (s.gpr .esp) a →
      L.Area u a ∨ L.currentThread.toNat ≤ a ∧ a < L.currentThread.toNat + 4 := by
    have low := d.room
    unfold Saves ThreadLayout.Area
    intro a h
    omega
  refine ⟨fun v a other area => ?_, ⟨may, down, saved.thread, fun a h1 h2 => ?_⟩, ?_, ?_⟩
  · have apart : ¬L.Area u a := fun mine => other (L.area_disjoint area mine)
    have above := may.below
    rw [saved.mem a fun h => (written a h).elim apart fun h => L.currentThread_outside h v area,
      d.leaves.1 v a area fun h => apart (L.area_stack ⟨h.1, by omega⟩),
      may.called_mem fun h => apart (L.area_stack ⟨h.1, by omega⟩)]
  · apply saved.mem a
    have low := d.room
    have record := L.recordStack u u
    have stack := L.currentStack u
    unfold Saves
    omega
  · show L.Node _ (Mem32.load _ L.currentThread) t
    rw [saved.current]
    refine node.congr fun a h1 h2 => saved.mem a fun h => ?_
    have apart := node.apart
    rcases written a h with mine | own_word
    · exact node.outside a h1 h2 u mine
    · omega
  · have apart := node.apart
    rw [saved.eax, ← node.thread]
    refine Mem32.load_congr fun a h1 h2 => saved.mem a fun h => ?_
    rcases written a h with mine | own_word
    · exact node.outside a h1 h2 u mine
    · omega

end Switch

/-! ## Going on -/

section Resume

variable {T : Type} {L : ThreadLayout T} {C : Compiled} {threadExit : Word32} {t : T}
  {mid after : Cpu}

/-- The thread `t` is on the processor again, and the other threads are where they were. -/
structure GoesOn (L : ThreadLayout T) (C : Compiled) (threadExit : Word32) (t : T) (status : Status)
    (m : Mem) (after : Cpu) : Prop where
  resumption : Resumption C threadExit (L.top t).toNat after status
  others : ∀ v a, v ≠ t → L.Area v a → after.mem a = m a
  current : L.Current after.mem t

/-- The second half of `switch_thread` writes one word, on the stack that it goes to. -/
theorem loaded_mem {status : ThreadT} {p : Cpu} (loaded : Loaded status mid p)
    (room : L.low t + 4 ≤ status.esp.toNat) {a : Nat}
    (outside : ¬(L.low t ≤ a ∧ a < status.esp.toNat)) : p.mem a = mid.mem a := by
  have level : (status.esp - 4).toNat = status.esp.toNat - 4 := by bv_omega
  rw [loaded.mem]
  exact Mem32.store_apply_of_far (by omega)

/-- A thread that was preempted goes through the rest of the C code and of the stub. -/
theorem preempted_goesOn {c : Cpu} (cdecl : Cdecl L C) (kept : Suspended L C mid.mem t c)
    (current : L.Current mid.mem t) (eax : mid.gpr .eax = L.record t)
    (up : Resumed C (Cpu.execBlock loadThread mid) after) :
    GoesOn L C threadExit t (.preempted c) mid.mem after := by
  obtain ⟨s, held⟩ := kept
  have on_stack := held.may.onStack
  have d := cdecl.descend on_stack held.down
  have room := d.room
  have below := d.below
  have loaded := loadThread_spec mid
  rw [eax, held.record] at loaded
  generalize Cpu.execBlock loadThread mid = p at *
  have esp : (ThreadT.of s).esp = s.gpr .esp := rfl
  have wrote : ∀ a, ¬(L.low t ≤ a ∧ a < (s.gpr .esp).toNat) → p.mem a = mid.mem a :=
    fun a => loaded_mem loaded room
  have address : p.top = C.behindSwitch := by
    rw [loaded.top, ← d.back]
    rw [esp]
    exact Mem32.load_congr fun a h1 h2 => held.stack a h1 (by have := on_stack.2; omega)
  have masked : p.interruptsOn = false := by
    show p.eflags.getLsbD 9 = false
    rw [loaded.eflags, ← timerCalled_masked c, ← d.flag]
    rfl
  cases up with
  | boundary on =>
      rw [masked] at on
      cases on
  | start other => exact absurd address other
  | @rest back _ ran =>
      have returned : SwitchReturned (timerCalled c) s (Cpu.exec .ret p) := by
        refine ⟨?_, ⟨loaded.ebp, loaded.ebx, loaded.esi, loaded.edi⟩, fun a h1 h2 => ?_⟩
        · show (p.drop).gpr .esp = _
          simp [Cpu.drop, loaded.esp, ThreadT.of]
        · show p.mem a = s.mem a
          rw [wrote a (by omega)]
          exact held.stack a (by omega) (by have := on_stack.2; omega)
      have handler := cdecl.ascend on_stack held.down returned ran
      have mem : ∀ v a, L.Area v a →
          ¬(L.low t ≤ a ∧ a < ((timerCalled c).gpr .esp).toNat) → back.mem a = mid.mem a := by
        intro v a area outside
        rw [handler.leaves.1 v a area outside]
        exact wrote a (by omega)
      refine ⟨?_, fun v a other area => ?_, ?_⟩
      · refine continues_of_return (timerFrame (by have := held.may.room; omega)) held.may.below
          handler.esp fun a h1 h2 => ?_
        have area : L.Area t a := L.area_stack ⟨by omega, h2⟩
        rw [mem t a area (by omega), held.stack a (by omega) h2, d.leaves.1 t a area (by omega)]
      · rw [timerReturn_mem]
        refine mem v a area fun inside => other (L.area_disjoint area (L.area_stack ⟨inside.1, ?_⟩))
        have := on_stack.2
        omega
      · rw [timerReturn_mem]
        refine handler.leaves.2 t (current.congr fun a outside => wrote a fun inside => ?_)
        exact outside t (L.area_stack ⟨inside.1, by have := on_stack.2; omega⟩)

/-- A new thread finds the words of `create_thread` on its stack. -/
theorem starts_of_created {fn arg : Word32} (room : L.low t + 16 ≤ (L.top t).toNat)
    (created : Created threadExit mid.mem (L.record t) fn arg (L.top t)) {p : Cpu}
    (loaded : Loaded (ThreadT.at mid.mem (L.record t)) mid p) :
    Starts threadExit fn arg (Cpu.exec .ret p) := by
  rw [created.thread] at loaded
  have l8 : (L.top t - 8).toNat = (L.top t).toNat - 8 := by bv_omega
  have l4 : (L.top t - 4).toNat = (L.top t).toNat - 4 := by bv_omega
  have l16 : (L.top t - 12 - 4).toNat = (L.top t).toNat - 16 := by bv_omega
  have esp : (Cpu.exec .ret p).gpr .esp = L.top t - 8 := by
    show p.drop.gpr .esp = _
    simp only [Cpu.drop, Cpu.setReg_gpr, Function.update_self, loaded.esp]
    bv_omega
  have mem : (Cpu.exec .ret p).mem = Mem32.store mid.mem (L.top t - 12 - 4) 0x200 := loaded.mem
  constructor
  case eip =>
    show p.top = fn
    rw [loaded.top, created.fn]
  case exit =>
    show Mem32.load _ _ = threadExit
    rw [esp, mem, Mem32.load_store_of_far (by omega), created.exit]
  case arg =>
    rw [esp, mem, show L.top t - 8 + 4 = L.top t - 4 by bv_omega,
      Mem32.load_store_of_far (by omega), created.arg]
  case ebp => exact loaded.ebp
  case eflags => exact loaded.eflags

/-- A thread that has not run starts, or is interrupted at the `ret` that starts it. -/
theorem created_goesOn {fn arg : Word32} (function : fn ≠ C.behindSwitch)
    (room : L.low t + 16 ≤ (L.top t).toNat)
    (created : Created threadExit mid.mem (L.record t) fn arg (L.top t))
    (current : L.Current mid.mem t) (eax : mid.gpr .eax = L.record t)
    (up : Resumed C (Cpu.execBlock loadThread mid) after) :
    GoesOn L C threadExit t (.created fn arg) mid.mem after := by
  have loaded := loadThread_spec mid
  rw [eax] at loaded
  generalize Cpu.execBlock loadThread mid = p at *
  have starts := starts_of_created room created loaded
  rw [created.thread] at loaded
  have level : (L.top t - 12).toNat = (L.top t).toNat - 12 := by bv_omega
  have wrote : ∀ a, ¬(L.low t ≤ a ∧ a < (L.top t - 12).toNat) → p.mem a = mid.mem a :=
    fun a => loaded_mem loaded (by show _ ≤ (L.top t - 12).toNat; omega)
  have others : ∀ v a, v ≠ t → L.Area v a → p.mem a = mid.mem a := by
    intro v a other area
    refine wrote a fun inside => other (L.area_disjoint area (L.area_stack ⟨inside.1, ?_⟩))
    omega
  have current_kept : L.Current p.mem t :=
    current.congr fun a outside => wrote a fun inside =>
      outside t (L.area_stack ⟨inside.1, by omega⟩)
  cases up with
  | rest address =>
      rw [starts.eip] at address
      exact absurd address function
  | start => exact ⟨.inl starts, others, current_kept⟩
  | boundary => exact ⟨.inr ⟨rfl, starts.eip, starts.exit, starts.arg, starts.ebp, starts.eflags⟩,
      others, current_kept⟩

theorem goesOn {status : Status} (cdecl : Cdecl L C) (kept : KeptFor L C threadExit mid.mem t status)
    (waiting : status ≠ .none) (current : L.Current mid.mem t) (eax : mid.gpr .eax = L.record t)
    (up : Resumed C (Cpu.execBlock loadThread mid) after) :
    GoesOn L C threadExit t status mid.mem after := by
  cases status with
  | none => exact absurd rfl waiting
  | created fn arg => exact created_goesOn kept.1 kept.2.1 kept.2.2 current eax up
  | preempted c => exact preempted_goesOn cdecl kept current eax up

end Resume

/-! ## Every run -/

section Every

variable {T : Type} [DecidableEq T] {L : ThreadLayout T} {C : Compiled} {threadExit : Word32}
  {s₀ s s' : Threading T} {event : SwitchEvent}

/-- The running thread is the current one, and memory keeps the others. -/
structure ThreadsKept (L : ThreadLayout T) (C : Compiled) (threadExit : Word32) (s : Threading T) :
    Prop where
  current : L.Current s.cpu.mem s.running
  kept : ∀ t, t ≠ s.running → KeptFor L C threadExit s.cpu.mem t (s.status t)

omit [DecidableEq T] in
/-- A memory that agrees on the threads that wait keeps them. -/
theorem ThreadsKept.exec {c : Cpu} (cdecl : Cdecl L C) (h : ThreadsKept L C threadExit s)
    (others : ∀ u a, u ≠ s.running → s.status u ≠ .none → L.Area u a → c.mem a = s.cpu.mem a)
    (current : L.Current c.mem s.running) :
    ThreadsKept L C threadExit { s with cpu := c } := by
  refine ⟨current, fun t other => ?_⟩
  show KeptFor L C threadExit c.mem t (s.status t)
  by_cases absent : s.status t = .none
  · rw [absent]
    trivial
  · exact (h.kept t other).congr cdecl fun a area => others t a other absent area

omit [DecidableEq T] in
/-- The thread that `create_thread` was called for has its stack and its record. -/
theorem kept_of_made {m m' : Mem} {t : T} {id fn arg : Word32}
    (room : L.low t + 16 ≤ (L.top t).toNat) (function : fn ≠ C.behindSwitch)
    (made : ∀ a, L.Area t a →
      m' a = createThread threadExit m (L.record t) id fn arg (L.top t) a) :
    KeptFor L C threadExit m' t (.created fn arg) := by
  have fits := L.fits t
  have apart := L.recordStack t t
  have created : Created threadExit
      (createThread threadExit m (L.record t) id fn arg (L.top t)) (L.record t) fn arg (L.top t) :=
    created_of_createThread fits (by omega) (by omega)
  refine ⟨function, room, created.congr fits (by omega) ?_ ?_⟩
  · exact fun a h1 h2 => made a (L.area_record ⟨h1, h2⟩)
  · exact fun a h1 h2 => made a (L.area_stack ⟨by omega, h2⟩)

/-- Interrupted and switched away from: now all threads are kept, and `t` goes on. -/
theorem ThreadsKept.switch {called after : Cpu} {t : T} (cdecl : Cdecl L C)
    (h : ThreadsKept L C threadExit s) (may : Interruptible L s.running s.cpu)
    (down : C.descend (timerCalled s.cpu) called)
    (node : L.Node called.mem (Mem32.load called.mem (called.gpr .esp + 4)) t)
    (waiting : s.paused t ≠ .none)
    (up : Resumed C (Cpu.execBlock (switchThread L.currentThread) called) after) :
    Resumption C threadExit (L.top t).toNat after (s.paused t) ∧
      ThreadsKept L C threadExit
        { cpu := after, running := t, status := Function.update s.paused t .none } := by
  have away := switchedAway cdecl may h.current down node
  unfold switchThread at up
  rw [Cpu.execBlock, List.foldl_append] at up
  change Resumed C (Cpu.execBlock loadThread (Cpu.execBlock (saveThread L.currentThread) called))
    after at up
  generalize Cpu.execBlock (saveThread L.currentThread) called = mid at *
  have paused : ∀ v, KeptFor L C threadExit mid.mem v (s.paused v) := by
    intro v
    unfold Threading.paused
    by_cases own : v = s.running
    · subst own
      rw [Function.update_self]
      exact ⟨called, away.held⟩
    · rw [Function.update_of_ne own]
      exact (h.kept v own).congr cdecl fun a area => away.others v a own area
  have on := goesOn cdecl (paused t) waiting away.current away.eax up
  refine ⟨on.resumption, on.current, fun v other => ?_⟩
  show KeptFor L C threadExit after.mem v (Function.update s.paused t .none v)
  rw [Function.update_of_ne other]
  exact (paused v).congr cdecl fun a area => on.others v a other area

omit [DecidableEq T] in
/-- Interrupted with nobody to switch to. -/
theorem ThreadsKept.straight {back : Cpu} (cdecl : Cdecl L C) (h : ThreadsKept L C threadExit s)
    (may : Interruptible L s.running s.cpu) (ran : C.straight (timerCalled s.cpu) back) :
    Continues (L.top s.running).toNat s.cpu (timerReturn back) ∧
      ThreadsKept L C threadExit { s with cpu := timerReturn back } := by
  have on_stack := may.onStack
  have returned := cdecl.straight on_stack ran
  have above := on_stack.2
  constructor
  · refine continues_of_return (timerFrame (by have := may.room; omega)) may.below returned.esp
      fun a h1 h2 => ?_
    exact returned.leaves.1 s.running a (L.area_stack ⟨by have := on_stack.1; omega, h2⟩) (by omega)
  · refine h.exec cdecl (fun u a other waits area => ?_) ?_
    · have apart : ¬L.Area s.running a := fun mine => other (L.area_disjoint area mine)
      have below := may.below
      rw [timerReturn_mem,
        returned.leaves.1 u a area fun inside => apart (L.area_stack ⟨inside.1, by omega⟩),
        may.called_mem fun inside => apart (L.area_stack ⟨inside.1, by omega⟩)]
    · rw [timerReturn_mem]
      exact returned.leaves.2 _ (may.called_current h.current)

/-- One step: the threads stay kept, and after a timer interrupt the one that runs finds what
it may expect. -/
theorem ThreadsKept.step (cdecl : Cdecl L C) (h : ThreadsKept L C threadExit s)
    (taken : SwitchStep L C threadExit s event s') :
    ThreadsKept L C threadExit s' ∧ (event = .timer →
      Resumption C threadExit (L.top s'.running).toNat s'.cpu (s.paused s'.running)) := by
  cases taken with
  | exec others current => exact ⟨h.exec cdecl others current, fun timer => nomatch timer⟩
  | @ready c t m id fn arg others current fresh absent room function made =>
      have rest := h.exec cdecl others current
      refine ⟨⟨current, fun v other => ?_⟩, fun timer => nomatch timer⟩
      show KeptFor L C threadExit c.mem v (Function.update s.status t (.created fn arg) v)
      by_cases new : v = t
      · subst new
        rw [Function.update_self]
        exact kept_of_made room function made
      · rw [Function.update_of_ne new]
        exact rest.kept v other
  | straight may ran =>
      obtain ⟨continues, rest⟩ := h.straight cdecl may ran
      refine ⟨rest, fun _ => ?_⟩
      show Resumption C threadExit _ _ (s.paused s.running)
      unfold Threading.paused
      rw [Function.update_self]
      exact continues
  | switch may down node waiting up =>
      obtain ⟨resumption, rest⟩ := h.switch cdecl may down node waiting up
      exact ⟨rest, fun _ => resumption⟩

/-- **Preemption.**  In every run from a state with one thread, the thread that a timer
interrupt ends in goes on where it was interrupted, or starts at its function. -/
theorem preemption_transparent (cdecl : Cdecl L C) (alone : ∀ t, s₀.status t = .none)
    (current : L.Current s₀.cpu.mem s₀.running)
    (reached : Reachable (SwitchStep L C threadExit) s₀ s)
    (taken : SwitchStep L C threadExit s .timer s') :
    Resumption C threadExit (L.top s'.running).toNat s'.cpu (s.paused s'.running) := by
  have start : ThreadsKept L C threadExit s₀ := by
    refine ⟨current, fun t _ => ?_⟩
    rw [alone t]
    trivial
  have kept := reached.invariant start fun _ _ _ h _ step => (h.step cdecl step).1
  exact (kept.step cdecl taken).2 rfl

end Every

/-! ## Two threads -/

/-- A handler that does nothing but call `switch_thread`, with any node. -/
def directCall {T : Type} (L : ThreadLayout T) (behindSwitch switchRet : Word32) : Compiled where
  descend called s :=
    (∀ t, L.OnStack t called → L.low t + 12 ≤ (called.gpr .esp).toNat) ∧
      ∃ node, s = (called.pushWord node).pushWord behindSwitch
  ascend r back := back = r.setReg .esp (r.gpr .esp + 4)
  straight called back := back = called
  behindSwitch := behindSwitch
  switchRet := switchRet

theorem directCall_cdecl {T : Type} (L : ThreadLayout T) (behindSwitch switchRet : Word32) :
    Cdecl L (directCall L behindSwitch switchRet) := by
  constructor
  case descend =>
    rintro t called s on_stack ⟨room, node, rfl⟩
    have low := room t on_stack
    have top := on_stack.2
    have first : (called.gpr .esp - 4).toNat = (called.gpr .esp).toNat - 4 := by bv_omega
    have second : (called.gpr .esp - 4 - 4).toNat = (called.gpr .esp).toNat - 8 := by bv_omega
    have written : ∀ a, ¬(L.low t ≤ a ∧ a < (called.gpr .esp).toNat) →
        ((called.pushWord node).pushWord behindSwitch).mem a = called.mem a := by
      intro a outside
      rw [Cpu.pushWord_mem, Cpu.pushWord_esp, Cpu.pushWord_mem,
        Mem32.store_apply_of_far (by omega), Mem32.store_apply_of_far (by omega)]
    refine ⟨?_, ?_, ?_, rfl, fun u a _ outside => written a outside, fun u own => ?_⟩
    · rw [Cpu.pushWord_esp, Cpu.pushWord_esp, second]
      omega
    · rw [Cpu.pushWord_esp, Cpu.pushWord_esp, second]
      omega
    · simp [directCall]
    · refine own.congr fun a outside => written a fun inside => ?_
      exact outside t (L.area_stack ⟨inside.1, by omega⟩)
  case ascend =>
    rintro t called s r back on_stack ⟨room, node, rfl⟩ returned rfl
    refine ⟨?_, ?_, fun _ _ _ _ => rfl, fun _ own => own⟩
    · have esp := returned.esp
      rw [Cpu.pushWord_esp, Cpu.pushWord_esp] at esp
      simp [esp]
    · obtain ⟨ebp, ebx, esi, edi⟩ := returned.saved
      exact ⟨by simpa using ebp, by simpa using ebx, by simpa using esi, by simpa using edi⟩
  case straight =>
    rintro t called back on_stack rfl
    exact ⟨rfl, ⟨rfl, rfl, rfl, rfl⟩, fun _ _ _ _ => rfl, fun _ own => own⟩

/-- Two threads of four kilobytes. -/
def twoThreads : ThreadLayout Bool where
  currentThread := 0x500
  record t := if t then 0x2000 else 0x1000
  low t := if t then 0x5000 else 0x3000
  top t := if t then 0x6000 else 0x4000
  fits := by decide
  stackStack := by decide
  recordRecord := by decide
  recordStack := by decide
  currentRecord := by decide
  currentStack := by decide

/-- The thread at `0x1000`, alone, with the nodes of both. -/
def oneThread : Threading Bool where
  cpu :=
    { kernelCpu with
      gpr := Function.update kernelCpu.gpr .esp 0x3F00
      eflags := 0x202
      mem := Mem32.store (Mem32.store (Mem32.store (fun _ => 0) 0x500 0x600) 0x600 0x1000) 0x610
        0x2000 }
  running := false
  status _ := .none

def twoCode : Compiled := directCall twoThreads 0x101000 0x102000

/-- `create_thread` for the thread at `0x2000`. -/
def bothThreads : Threading Bool where
  cpu :=
    { oneThread.cpu with
      mem := createThread 0x103000 oneThread.cpu.mem 0x2000 1 0x104000 0x567 0x6000 }
  running := false
  status := Function.update oneThread.status true (.created 0x104000 0x567)

/-- `switch_thread`, called with `node` by the handler of the timer. -/
def timerSwitch (node : Word32) (c : Cpu) : Cpu :=
  Cpu.exec .ret (Cpu.execBlock (switchThread twoThreads.currentThread)
    (((timerCalled c).pushWord node).pushWord twoCode.behindSwitch))

def firstTick : Threading Bool where
  cpu := timerSwitch 0x610 bothThreads.cpu
  running := true
  status := Function.update bothThreads.paused true .none

def secondTick : Threading Bool where
  cpu := timerReturn ((timerSwitch 0x600 firstTick.cpu).setReg .esp
    ((timerSwitch 0x600 firstTick.cpu).gpr .esp + 4))
  running := false
  status := Function.update firstTick.paused false .none

/-- A word below the records is not in the memory of a thread. -/
theorem twoThreads_node {m : Mem} {node : Word32} {t : Bool}
    (thread : Mem32.load m node = twoThreads.record t) (low : 0x504 ≤ node.toNat)
    (high : node.toNat + 4 ≤ 0x1000) : twoThreads.Node m node t := by
  refine ⟨thread, fun a h1 h2 u => ?_, .inr low⟩
  unfold ThreadLayout.Area twoThreads
  cases u <;> simp <;> omega

theorem timerSwitch_descend (node : Word32) {c : Cpu}
    (room : ∀ t, twoThreads.OnStack t (timerCalled c) →
      twoThreads.low t + 12 ≤ ((timerCalled c).gpr .esp).toNat) :
    twoCode.descend (timerCalled c)
      (((timerCalled c).pushWord node).pushWord twoCode.behindSwitch) := ⟨room, node, rfl⟩

theorem both_ready : SwitchStep twoThreads twoCode 0x103000 oneThread .ready bothThreads := by
  refine .ready (m := oneThread.cpu.mem) (fun u a _ waits => absurd rfl waits) ?_ (by decide) rfl
    (by decide) (by decide) fun a _ => rfl
  exact twoThreads_node (by decide +kernel) (by decide +kernel) (by decide +kernel)

theorem first_tick : SwitchStep twoThreads twoCode 0x103000 bothThreads .timer firstTick := by
  refine .switch ⟨by decide +kernel, by decide +kernel, by decide +kernel⟩
    (timerSwitch_descend 0x610 fun t on_stack => ?_) ?_ ?_ (.start ?_)
  · cases t <;> revert on_stack <;> unfold ThreadLayout.OnStack <;> decide +kernel
  · exact twoThreads_node (by decide +kernel) (by decide +kernel) (by decide +kernel)
  · exact fun same => nomatch same
  · decide +kernel

theorem second_tick : SwitchStep twoThreads twoCode 0x103000 firstTick .timer secondTick := by
  refine .switch ⟨by decide +kernel, by decide +kernel, by decide +kernel⟩
    (timerSwitch_descend 0x600 fun t on_stack => ?_) ?_ ?_ (.rest ?_ rfl)
  · cases t <;> revert on_stack <;> unfold ThreadLayout.OnStack <;> decide +kernel
  · exact twoThreads_node (by decide +kernel) (by decide +kernel) (by decide +kernel)
  · exact fun same => nomatch same
  · decide +kernel

/-- The first tick starts the new thread, and the second one gives the old one what it had
before the first. -/
theorem ticks_resume :
    Resumption twoCode 0x103000 0x6000 firstTick.cpu (.created 0x104000 0x567) ∧
      Continues 0x4000 bothThreads.cpu secondTick.cpu := by
  have cdecl : Cdecl twoThreads twoCode := directCall_cdecl _ _ _
  have current : twoThreads.Current oneThread.cpu.mem false :=
    twoThreads_node (by decide +kernel) (by decide +kernel) (by decide +kernel)
  have ready : Reachable (SwitchStep twoThreads twoCode 0x103000) oneThread bothThreads :=
    .single trivial both_ready
  constructor
  · exact preemption_transparent cdecl (fun _ => rfl) current ready first_tick
  · exact preemption_transparent cdecl (fun _ => rfl) current (ready.tail trivial first_tick)
      second_tick

end MiniKernel.Kernel
