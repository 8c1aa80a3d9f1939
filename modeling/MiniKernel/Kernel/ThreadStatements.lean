/-
# Kernel.ThreadStatements -- thread_is_ready, one C statement at a time

Every thread executes the statements of `thread_is_ready` (the first one those
of `init_scheduler`), and a timer tick runs `schedule` between any two of them.
A thread is known by its `thread_t`; it goes on where it stopped when a node of
it becomes the current node, through whichever node that is.

`Intact` is what has to hold of every state, `ResumesAtHome` names the ticks that
send no thread on through a second node.  `fire` computes a step.
-/
import MiniKernel.Kernel.Scheduler
import MiniKernel.Theory.Transition

namespace MiniKernel.Kernel

open Theory

set_option autoImplicit false

variable {T : Type}

/-- The statement a thread executes next.  `home` is the node that was current
when the call tested `ready_queue`; the code has no such variable. -/
inductive Pc (T : Type) where
  | idle
  /-- `current_thread = kmalloc(...)` in `init_scheduler(initial)` -/
  | initAlloc (initial : T)
  /-- `current_thread->thread = initial_thread` -/
  | initThread (initial : T)
  /-- `current_thread->next = 0` -/
  | initNext
  /-- `ready_queue = 0` -/
  | initQueue
  /-- `item = kmalloc(...)` in `thread_is_ready(t)` -/
  | alloc (t : T)
  /-- `item->thread = t` -/
  | setThread (t : T) (item : Nat)
  /-- `item->next = 0` -/
  | setNext (item : Nat)
  /-- `if (!ready_queue)` -/
  | testQueue (item : Nat)
  /-- `ready_queue = item` -/
  | setQueue (item : Nat) (home : Option Nat)
  /-- `iterator = ready_queue` -/
  | setIterator (item : Nat) (home : Option Nat)
  /-- `while (iterator->next)` -/
  | testNext (item : Nat) (iterator home : Option Nat)
  /-- `iterator = iterator->next` -/
  | advance (item : Nat) (iterator home : Option Nat)
  /-- `iterator->next = item` -/
  | link (item : Nat) (iterator home : Option Nat)

namespace Pc

/-- The node a call in progress will link. -/
def item : Pc T → Option Nat
  | .setThread _ item | .setNext item | .testQueue item | .setQueue item _
  | .setIterator item _ | .testNext item _ _ | .advance item _ _ | .link item _ _ => some item
  | _ => none

/-- The same node, once its `next` was cleared. -/
def cleared : Pc T → Option Nat
  | .testQueue item | .setQueue item _ | .setIterator item _ | .testNext item _ _
  | .advance item _ _ | .link item _ _ => some item
  | _ => none

/-- The current node at the time of the queue test, for a call that is past it. -/
def home : Pc T → Option Nat
  | .setQueue _ home | .setIterator _ home | .testNext _ _ home | .advance _ _ home
  | .link _ _ home => home
  | _ => none

theorem item_of_cleared {p : Pc T} {i : Nat} (h : p.cleared = some i) : p.item = some i := by
  cases p <;> first | exact h | cases h

end Pc

/-- The scheduler's memory, the running thread and where every thread stands.
`allocated` are the nodes `kmalloc` returned, `linked` the initial node and the
nodes whose linking statement was executed, in that order. -/
structure Threads (T : Type) extends SchedMem T where
  running : T
  pc : T → Pc T
  allocated : List Nat
  linked : List Nat

inductive ThreadEvent (T : Type) where
  /-- The timer runs `schedule`. -/
  | tick
  /-- The running thread calls `thread_is_ready(t)`. -/
  | call (t : T)
  /-- The running thread executes a statement; `node` is what `kmalloc` would
  return. -/
  | stmt (node : Nat)

namespace Threads

variable [DecidableEq T]

/-- The initial thread calls `init_scheduler`. -/
def boot (initial garbage : T) : Threads T where
  thread := fun _ => garbage
  next := fun _ => none
  readyQueue := none
  currentThread := none
  running := initial
  pc := Function.update (fun _ => .idle) initial (.initAlloc initial)
  allocated := []
  linked := []

def goto (s : Threads T) (p : Pc T) : Threads T :=
  { s with pc := Function.update s.pc s.running p }

/-- The statement of the running thread. -/
def exec (s : Threads T) (node : Nat) : Except Stop (Threads T) :=
  match s.pc s.running with
  | .idle => .ok s
  | .initAlloc initial =>
      .ok (goto { s with
        currentThread := some node
        allocated := node :: s.allocated
        linked := s.linked ++ [node] } (.initThread initial))
  | .initThread initial =>
      match s.currentThread with
      | none => .error .nullDeref
      | some c => .ok (goto { s with thread := Function.update s.thread c initial } .initNext)
  | .initNext =>
      match s.currentThread with
      | none => .error .nullDeref
      | some c => .ok (goto { s with next := Function.update s.next c none } .initQueue)
  | .initQueue => .ok (goto { s with readyQueue := none } .idle)
  | .alloc t => .ok (goto { s with allocated := node :: s.allocated } (.setThread t node))
  | .setThread t item =>
      .ok (goto { s with thread := Function.update s.thread item t } (.setNext item))
  | .setNext item => .ok (goto { s with next := Function.update s.next item none } (.testQueue item))
  | .testQueue item =>
      if s.readyQueue = none then .ok (s.goto (.setQueue item s.currentThread))
      else .ok (s.goto (.setIterator item s.currentThread))
  | .setQueue item _ =>
      .ok (goto { s with readyQueue := some item, linked := s.linked ++ [item] } .idle)
  | .setIterator item home => .ok (s.goto (.testNext item s.readyQueue home))
  | .testNext item iterator home =>
      match iterator with
      | none => .error .nullDeref
      | some x =>
          if s.next x = none then .ok (s.goto (.link item iterator home))
          else .ok (s.goto (.advance item iterator home))
  | .advance item iterator home =>
      match iterator with
      | none => .error .nullDeref
      | some x => .ok (s.goto (.testNext item (s.next x) home))
  | .link item iterator _ =>
      match iterator with
      | none => .error .nullDeref
      | some x =>
          .ok (goto { s with
            next := Function.update s.next x (some item)
            linked := s.linked ++ [item] } .idle)

/-- The thread that runs after `schedule` left the scheduler's memory as `q`. -/
def resumed (s : Threads T) (q : SchedMem T) : T :=
  match s.readyQueue with
  | none => s.running
  | some head => q.thread head

/-- One step of the system. -/
inductive Step : Threads T → ThreadEvent T → Threads T → Prop where
  | tick {s : Threads T} {fuel : Nat} {q : SchedMem T}
      (ran : s.toSchedMem.schedule fuel = .ok q) :
      Step s .tick { s with toSchedMem := q, running := s.resumed q }
  | call {s : Threads T} {t : T} (idle : s.pc s.running = .idle) :
      Step s (.call t) (s.goto (.alloc t))
  | stmt {s s' : Threads T} {node : Nat} (fresh : node ∉ s.allocated)
      (ran : s.exec node = .ok s') : Step s (.stmt node) s'

/-- The scheduler is in order: the queue is null-terminated, together with
the current node it holds the linked nodes, each once, and `schedule` returns
and dereferences no null pointer. -/
structure Intact (s : Threads T) : Prop where
  nodes : ∃ l, Linked s.next s.readyQueue l ∧ (s.currentThread.toList ++ l).Nodup ∧
    (s.currentThread.toList ++ l).Perm s.linked
  returns : ∃ fuel q, s.toSchedMem.schedule fuel = .ok q
  nonnull : ∀ fuel, s.toSchedMem.schedule fuel ≠ .error .nullDeref

/-- The steps that send no thread on through a second node: a tick that resumes
a thread in the middle of a `thread_is_ready` call, past its queue test, resumes
it on the node that was current at the test. -/
def ResumesAtHome (s : Threads T) : ThreadEvent T → Prop
  | .tick => ∀ node h, s.readyQueue = some node → (s.pc (s.thread node)).home = some h → h = node
  | _ => True

/-! ## Computed runs -/

instance (s : Threads T) (e : ThreadEvent T) : Decidable (ResumesAtHome s e) :=
  match e with
  | .tick => decidable_of_iff
      (∀ node ∈ s.readyQueue, ∀ h ∈ (s.pc (s.thread node)).home, h = node)
      ⟨fun ok node h hn hh => ok node hn h hh, fun ok node hn h hh => ok node h hn hh⟩
  | .call _ => .isTrue trivial
  | .stmt _ => .isTrue trivial

/-- The step an event leads to, with fuel for queues of up to 16 nodes. -/
def fire (s : Threads T) : ThreadEvent T → Option (Threads T)
  | .tick => (s.toSchedMem.schedule 16).toOption.map fun q =>
      { s with toSchedMem := q, running := s.resumed q }
  | .call t =>
      match s.pc s.running with
      | .idle => some (s.goto (.alloc t))
      | _ => none
  | .stmt node => if node ∈ s.allocated then none else (s.exec node).toOption

theorem step_of_fire (s : Threads T) (e : ThreadEvent T) (s' : Threads T)
    (ran : s.fire e = some s') : True ∧ Step s e s' := by
  refine ⟨trivial, ?_⟩
  cases e with
  | tick =>
      obtain ⟨q, ok, rfl⟩ := Option.map_eq_some_iff.mp ran
      cases run : s.toSchedMem.schedule 16 with
      | error e =>
          rw [run] at ok
          cases ok
      | ok q' =>
          rw [run] at ok
          obtain rfl := Option.some.inj ok
          exact .tick run
  | call t =>
      rw [fire] at ran
      split at ran
      · rename_i idle
        obtain rfl := Option.some.inj ran
        exact .call idle
      · cases ran
  | stmt node =>
      rw [fire] at ran
      split at ran
      · cases ran
      · rename_i fresh
        cases run : s.exec node with
        | error e =>
            rw [run] at ran
            cases ran
        | ok q =>
            rw [run] at ran
            obtain rfl := Option.some.inj ran
            exact .stmt fresh run

/-- `fire` without a resumption through a second node. -/
def fireAtHome (s : Threads T) (e : ThreadEvent T) : Option (Threads T) :=
  if ResumesAtHome s e then s.fire e else none

theorem step_of_fireAtHome (s : Threads T) (e : ThreadEvent T) (s' : Threads T)
    (ran : s.fireAtHome e = some s') : ResumesAtHome s e ∧ Step s e s' := by
  rw [fireAtHome] at ran
  split at ran
  · rename_i at_home
    exact ⟨at_home, (step_of_fire s e s' ran).2⟩
  · cases ran

end Threads

end MiniKernel.Kernel
