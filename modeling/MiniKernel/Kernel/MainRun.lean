/-
# Kernel.MainRun -- main under the timer

`main` turns interrupts on and then calls `init_scheduler` and, once, `create_thread`, which makes
the second thread ready; after that both threads only print.  Ticks may come between any two
statements.

As long as the second thread is not linked, the queue is null and every tick returns to `main`:
`init_scheduler`, `thread_is_ready` and all that allocates memory run without a switch.  The
statement `ready_queue = item` is the last of the call, and from it on each tick switches to the
other of the two threads (`main_ticks`).
-/
import MiniKernel.Kernel.ThreadStatements

namespace MiniKernel.Kernel

open Theory

set_option autoImplicit false

namespace Threads

variable {T : Type} [DecidableEq T]

/-- What `main` calls: `thread_is_ready` for the one thread that it creates. -/
def MainCalls (main other : T) (s : Threads T) : ThreadEvent T → Prop
  | .call t => s.running = main ∧ s.allocated.length = 1 ∧ t = other
  | _ => True

/-- The initial node is `a`, with nothing behind it. -/
def FirstNode (main : T) (s : Threads T) (a : Nat) : Prop :=
  s.currentThread = some a ∧ s.thread a = main ∧ s.linked = [a]

/-- Where `main` stands before the second thread is linked. -/
def Stage (main other : T) (s : Threads T) : Pc T → Prop
  | .initAlloc t => t = main ∧ s.allocated = [] ∧ s.linked = []
  | .initThread t => t = main ∧ ∃ a, s.currentThread = some a ∧ s.linked = [a] ∧ s.allocated = [a]
  | .initNext | .initQueue | .idle => ∃ a, FirstNode main s a ∧ s.allocated = [a]
  | .alloc t => t = other ∧ ∃ a, FirstNode main s a ∧ s.allocated = [a]
  | .setThread t item => t = other ∧ ∃ a, FirstNode main s a ∧ s.allocated = [item, a] ∧ item ≠ a
  | .setNext item =>
      s.thread item = other ∧ ∃ a, FirstNode main s a ∧ s.allocated = [item, a] ∧ item ≠ a
  | .testQueue item | .setQueue item _ =>
      s.thread item = other ∧ s.next item = none ∧
        ∃ a, FirstNode main s a ∧ s.allocated = [item, a] ∧ item ≠ a
  | _ => False

/-- Before the second thread is linked. -/
structure Alone (main other : T) (s : Threads T) : Prop where
  running : s.running = main
  empty : s.readyQueue = none
  waiting : ∀ t, t ≠ main → s.pc t = .idle
  stage : Stage main other s (s.pc main)

/-- Both threads are linked, `t` is running and `u` is in the queue. -/
structure Paired (s : Threads T) (t u : T) : Prop where
  running : s.running = t
  nodes : ∃ c x, c ≠ x ∧ s.currentThread = some c ∧ s.thread c = t ∧ s.readyQueue = some x ∧
    s.thread x = u ∧ s.next x = none
  idle : ∀ v, s.pc v = .idle
  allocated : s.allocated.length = 2
  linked : s.linked.length = 2

/-- What every run of `main` keeps. -/
def MainOk (main other : T) (s : Threads T) : Prop :=
  Alone main other s ∨ Paired s main other ∨ Paired s other main

variable {main other : T} {s s' : Threads T}

theorem alone_boot (main other garbage : T) : Alone main other (boot main garbage) where
  running := rfl
  empty := rfl
  waiting t different := by
    show Function.update (fun _ => Pc.idle) main (.initAlloc main) t = .idle
    rw [Function.update_of_ne different]
  stage := by
    show Stage main other _ (Function.update (fun _ => Pc.idle) main (.initAlloc main) main)
    rw [Function.update_self]
    exact ⟨rfl, rfl, rfl⟩

/-- A tick before the second thread is linked. -/
theorem Alone.tick (alone : Alone main other s) (taken : Step s .tick s') : s' = s := by
  cases taken with
  | @tick fuel q ran =>
      rw [SchedMem.schedule_empty fuel alone.empty] at ran
      obtain rfl := Except.ok.inj ran
      rw [resumed, alone.empty]

/-- A tick after it. -/
theorem Paired.tick {t u : T} (paired : Paired s t u) (taken : Step s .tick s') :
    Paired s' u t := by
  obtain ⟨c, x, apart, current, own, queue, waits, last⟩ := paired.nodes
  cases taken with
  | @tick fuel q ran =>
      have linked : Linked s.next s.readyQueue [x] := ⟨queue, last⟩
      have rotated := SchedMem.schedule_ok linked current (by simpa using apart) ran
      have head : q.readyQueue = some c := rotated.queue.1
      refine ⟨?_, ⟨x, c, apart.symm, rotated.current, ?_, head, ?_, rotated.queue.2⟩, paired.idle,
        paired.allocated, paired.linked⟩
      · show s.resumed q = u
        rw [resumed, queue, rotated.thread]
        exact waits
      · rw [rotated.thread]
        exact waits
      · rw [rotated.thread]
        exact own

/-- `main` goes on to the statement `p`. -/
theorem alone_goto {p : Pc T} (running : s.running = main) (empty : s.readyQueue = none)
    (waiting : ∀ t, t ≠ main → s.pc t = .idle) (stage : Stage main other s p) :
    Alone main other (s.goto p) where
  running := running
  empty := empty
  waiting t different := by
    show Function.update s.pc s.running p t = .idle
    rw [running, Function.update_of_ne different]
    exact waiting t different
  stage := by
    show Stage main other (s.goto p) (Function.update s.pc s.running p main)
    rw [running, Function.update_self]
    cases p <;> exact stage

/-- A call by `main`. -/
theorem Alone.call (alone : Alone main other s) (free : s.pc s.running = .idle) :
    Alone main other (s.goto (.alloc other)) := by
  have stage := alone.stage
  rw [← alone.running, free] at stage
  rw [alone.running] at stage
  exact alone_goto alone.running alone.empty alone.waiting ⟨rfl, stage⟩

/-- The statement that links the second thread. -/
theorem Alone.setQueue (alone : Alone main other s) {item : Nat} {home : Option Nat}
    (here : s.pc s.running = .setQueue item home) :
    Paired (goto { s with readyQueue := some item, linked := s.linked ++ [item] } .idle)
      main other := by
  have stage := alone.stage
  rw [← alone.running, here] at stage
  obtain ⟨second, last, a, ⟨current, first, linked⟩, allocated, apart⟩ := stage
  refine ⟨alone.running, ⟨a, item, apart.symm, current, ?_, rfl, second, last⟩, fun t => ?_, ?_, ?_⟩
  · rw [← alone.running]
    exact first
  · show Function.update s.pc s.running .idle t = .idle
    rw [alone.running]
    by_cases own : t = main
    · rw [own, Function.update_self]
    · rw [Function.update_of_ne own]
      exact alone.waiting t own
  · show s.allocated.length = 2
    rw [allocated]
    rfl
  · show (s.linked ++ [item]).length = 2
    rw [linked]
    rfl

/-- A statement of `main`. -/
theorem Alone.stmt (alone : Alone main other s) {node : Nat} (fresh : node ∉ s.allocated)
    (ran : s.exec node = .ok s') : MainOk main other s' := by
  have running := alone.running
  have stage : Stage main other s (s.pc s.running) := by
    rw [running]
    exact alone.stage
  have keep := fun {s₁ : Threads T} {p : Pc T} (same : s₁.running = s.running)
    (queue : s₁.readyQueue = s.readyQueue) (pcs : s₁.pc = s.pc) (stage : Stage main other s₁ p) =>
      (.inl (alone_goto (same.trans running) (queue.trans alone.empty)
        (fun t different => by rw [pcs]; exact alone.waiting t different) stage) :
        MainOk main other (s₁.goto p))
  cases here : s.pc s.running with
  | idle =>
      rw [exec, here] at ran
      obtain rfl := Except.ok.inj ran
      exact .inl alone
  | initAlloc t =>
      rw [here] at stage
      obtain ⟨rfl, none, empty⟩ := stage
      rw [exec, here] at ran
      obtain rfl := Except.ok.inj ran
      exact keep rfl rfl rfl ⟨rfl, node, rfl, by rw [empty]; rfl, by rw [none]⟩
  | initThread t =>
      rw [here] at stage
      obtain ⟨rfl, a, current, linked, allocated⟩ := stage
      rw [exec, here] at ran
      simp only [current] at ran
      obtain rfl := Except.ok.inj ran
      exact keep rfl rfl rfl ⟨a, ⟨rfl, Function.update_self .., linked⟩, allocated⟩
  | initNext =>
      rw [here] at stage
      obtain ⟨a, ⟨current, first, linked⟩, allocated⟩ := stage
      rw [exec, here] at ran
      simp only [current] at ran
      obtain rfl := Except.ok.inj ran
      exact keep rfl rfl rfl ⟨a, ⟨rfl, first, linked⟩, allocated⟩
  | initQueue =>
      rw [here] at stage
      rw [exec, here] at ran
      obtain rfl := Except.ok.inj ran
      exact keep rfl alone.empty.symm rfl stage
  | alloc t =>
      rw [here] at stage
      obtain ⟨rfl, a, first, allocated⟩ := stage
      rw [exec, here] at ran
      obtain rfl := Except.ok.inj ran
      refine keep rfl rfl rfl ⟨rfl, a, first, by rw [allocated], fun same => fresh ?_⟩
      rw [allocated, same]
      exact List.mem_singleton_self a
  | setThread t item =>
      rw [here] at stage
      obtain ⟨rfl, a, ⟨current, first, linked⟩, allocated, apart⟩ := stage
      rw [exec, here] at ran
      obtain rfl := Except.ok.inj ran
      refine keep rfl rfl rfl ⟨Function.update_self .., a, ⟨current, ?_, linked⟩, allocated, apart⟩
      exact (Function.update_of_ne apart.symm ..).trans first
  | setNext item =>
      rw [here] at stage
      obtain ⟨second, rest⟩ := stage
      rw [exec, here] at ran
      obtain rfl := Except.ok.inj ran
      exact keep rfl rfl rfl ⟨second, Function.update_self .., rest⟩
  | testQueue item =>
      rw [here] at stage
      rw [exec, here] at ran
      simp only [alone.empty, if_true] at ran
      obtain rfl := Except.ok.inj ran
      exact keep rfl rfl rfl stage
  | setQueue item home =>
      rw [exec, here] at ran
      obtain rfl := Except.ok.inj ran
      exact .inr (.inl (alone.setQueue here))
  | setIterator | testNext | advance | link =>
      rw [here] at stage
      exact stage.elim

/-- What one step of such a run preserves. -/
theorem MainOk.step (ok : MainOk main other s) {e : ThreadEvent T} (calls : MainCalls main other s e)
    (taken : Step s e s') : MainOk main other s' := by
  rcases ok with alone | paired
  · cases taken with
    | tick ran =>
        have same := alone.tick (.tick ran)
        rw [same]
        exact .inl alone
    | call free =>
        obtain ⟨-, -, rfl⟩ := calls
        exact .inl (alone.call free)
    | stmt fresh ran => exact alone.stmt fresh ran
  · have still : ∀ v, s.pc v = .idle := by
      rcases paired with paired | paired
      · exact paired.idle
      · exact paired.idle
    have two : s.allocated.length = 2 := by
      rcases paired with paired | paired
      · exact paired.allocated
      · exact paired.allocated
    cases taken with
    | tick ran =>
        rcases paired with paired | paired
        · exact .inr (.inr (paired.tick (.tick ran)))
        · exact .inr (.inl (paired.tick (.tick ran)))
    | call free =>
        obtain ⟨-, one, -⟩ := calls
        rw [two] at one
        cases one
    | stmt fresh ran =>
        rw [exec, still] at ran
        obtain rfl := Except.ok.inj ran
        exact .inr paired

theorem MainOk.of_run {garbage : T} (reached : Reaches Step (MainCalls main other) (boot main garbage) s) :
    MainOk main other s :=
  reached.invariant (.inl (alone_boot main other garbage)) fun _ _ _ ok calls taken =>
    ok.step calls taken

omit [DecidableEq T] in
theorem Alone.few (alone : Alone main other s) : s.linked.length < 2 := by
  have one : ∀ a, s.linked = [a] → s.linked.length < 2 := by
    intro a linked
    rw [linked]
    exact Nat.one_lt_two
  have stage := alone.stage
  cases here : s.pc main with
  | initAlloc t =>
      rw [here] at stage
      rw [stage.2.2]
      exact Nat.zero_lt_two
  | initThread t =>
      rw [here] at stage
      obtain ⟨-, a, -, linked, -⟩ := stage
      exact one a linked
  | initNext | initQueue | idle =>
      rw [here] at stage
      obtain ⟨a, first, -⟩ := stage
      exact one a first.2.2
  | alloc t | setThread t item | setNext item =>
      rw [here] at stage
      obtain ⟨-, a, first, -⟩ := stage
      exact one a first.2.2
  | testQueue item | setQueue item home =>
      rw [here] at stage
      obtain ⟨-, -, a, first, -⟩ := stage
      exact one a first.2.2
  | setIterator | testNext | advance | link =>
      rw [here] at stage
      exact stage.elim

theorem Paired.returns {t u : T} (paired : Paired s t u) : ∃ s', Step s .tick s' := by
  obtain ⟨c, x, -, current, -, queue, -, last⟩ := paired.nodes
  have linked : Linked s.next s.readyQueue [x] := ⟨queue, last⟩
  obtain ⟨q, ran⟩ := SchedMem.schedule_returns linked current (Nat.le_refl 1)
  exact ⟨_, .tick ran⟩

/-- **Ticks in main.**  Until the second thread is linked a tick changes nothing, and `main` runs;
from then on no thread is inside a call, and every tick hands over to the other thread.  In every
state `schedule` returns. -/
theorem main_ticks (distinct : main ≠ other) {garbage : T}
    (reached : Reaches Step (MainCalls main other) (boot main garbage) s) :
    s.linked.length ≤ 2 ∧ (∃ s', Step s .tick s') ∧
      (s.linked.length < 2 → s.running = main ∧ ∀ s', Step s .tick s' → s' = s) ∧
      (s.linked.length = 2 → (∀ t, s.pc t = .idle) ∧ (s.running = main ∨ s.running = other) ∧
        ∀ s', Step s .tick s' → s'.running = if s.running = main then other else main) := by
  rcases MainOk.of_run reached with alone | paired | paired
  · have one : s.linked.length < 2 := alone.few
    refine ⟨by omega, ⟨_, .tick (SchedMem.schedule_empty 0 alone.empty)⟩,
      fun _ => ⟨alone.running, fun s' taken => alone.tick taken⟩, fun two => ?_⟩
    omega
  · refine ⟨Nat.le_of_eq paired.linked, paired.returns, fun one => ?_, fun _ =>
      ⟨paired.idle, .inl paired.running, fun s' taken => ?_⟩⟩
    · rw [paired.linked] at one
      exact absurd one (Nat.lt_irrefl 2)
    · rw [(paired.tick taken).running, paired.running, if_pos rfl]
  · refine ⟨Nat.le_of_eq paired.linked, paired.returns, fun one => ?_, fun _ =>
      ⟨paired.idle, .inr paired.running, fun s' taken => ?_⟩⟩
    · rw [paired.linked] at one
      exact absurd one (Nat.lt_irrefl 2)
    · rw [(paired.tick taken).running, paired.running, if_neg (Ne.symm distinct)]

/-! ## A computed run -/

instance (main other : T) (s : Threads T) (e : ThreadEvent T) :
    Decidable (MainCalls main other s e) :=
  match e with
  | .call _ => @instDecidableAnd _ _ (decEq _ _) (@instDecidableAnd _ _ (decEq _ _) (decEq _ _))
  | .tick => .isTrue trivial
  | .stmt _ => .isTrue trivial

/-- `fire` for the calls of `main`. -/
def fireMain (main other : T) (s : Threads T) (e : ThreadEvent T) : Option (Threads T) :=
  if MainCalls main other s e then s.fire e else none

theorem step_of_fireMain {main other : T} (s : Threads T) (e : ThreadEvent T) (s' : Threads T)
    (ran : s.fireMain main other e = some s') : MainCalls main other s e ∧ Step s e s' := by
  rw [fireMain] at ran
  split at ran
  · rename_i calls
    exact ⟨calls, (step_of_fire s e s' ran).2⟩
  · cases ran

/-- `main` up to its loop, with four ticks on the way. -/
def mainPrelude : List (ThreadEvent Nat) :=
  [.tick, .stmt 100, .tick, .stmt 7, .stmt 7, .stmt 7, .call 1, .stmt 101, .tick, .stmt 7, .stmt 7,
    .stmt 7, .tick, .stmt 7]

/-- The next tick is the first that switches. -/
theorem first_switch :
    ∃ s, Reaches Step (MainCalls 0 1) (boot 0 9) s ∧ s.running = 0 ∧
      ∀ s', Step s .tick s' → s'.running = 1 := by
  have ran : (mainPrelude.foldlM (fireMain 0 1) (boot 0 9)).map
      (fun s => (s.linked.length, s.running)) = some (2, 0) := by
    decide +kernel
  obtain ⟨s, taken, shape⟩ := Option.map_eq_some_iff.mp ran
  obtain ⟨both, running⟩ := Prod.mk.inj shape
  have reached : Reaches Step (MainCalls 0 1) (boot 0 9) s :=
    Reaches.of_foldlM step_of_fireMain _ taken
  have ticks := (main_ticks (by decide) reached).2.2.2 both
  refine ⟨s, reached, running, fun s' tick => ?_⟩
  rw [ticks.2.2 s' tick, if_pos running]

end Threads

end MiniKernel.Kernel
