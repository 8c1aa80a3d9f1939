/-
# Kernel.RoundRobin -- when a waiting node gets its turn

A call of `schedule` takes one place from every waiting node, and a node that is
appended meanwhile, be it a new one or the current one, stands behind all of
them.  So the node at position `k` is still in the queue after `k` calls, at its
head, and the next call switches to it (`switches_at_position`).

With no other calls the current node and the queue, read as one list, are
rotated by one place each time; as many calls as the list is long restore it
(`restored_after_round`).
-/
import MiniKernel.Kernel.ReadyQueue
import Mathlib.Data.List.Rotate

namespace MiniKernel.Kernel

open Theory

set_option autoImplicit false

variable {T : Type}

/-- `schedule()`, among the calls of a run. -/
def SchedOp.isSchedule : SchedOp T → Bool
  | .schedule => true
  | _ => false

/-- The node at position `k` of the ready queue is `n`; 0 is the head. -/
def Waits (s : Sched T) (k n : Nat) : Prop :=
  ∃ l, Linked s.mem.next s.mem.readyQueue l ∧ l[k]? = some n

theorem Chain.waits_iff {s : Sched T} {c : Nat} {l : List Nat} (chain : Chain s c l) {k n : Nat} :
    Waits s k n ↔ l[k]? = some n := by
  constructor
  · rintro ⟨l', linked, here⟩
    rwa [chain.linked.unique linked]
  · intro here
    exact ⟨l, chain.linked, here⟩

variable [DecidableEq T]

/-- A call of `schedule` that switches to the node `n`. -/
structure Switches (s s' : Sched T) (n : Nat) : Prop where
  step : SchedStep s .schedule s'
  head : s.mem.readyQueue = some n
  current : s'.mem.currentThread = some n

namespace Chain

variable {s s' : Sched T} {c : Nat} {l : List Nat}

/-- The current node and the queue, as one list, are rotated. -/
theorem rotated (chain : Chain s c l) (step : SchedStep s .schedule s') :
    ∃ c' l', Chain s' c' l' ∧ c' :: l' = (c :: l).rotate 1 := by
  cases step with
  | schedule ran =>
      cases l with
      | nil =>
          obtain rfl := chain.schedule_nil ran
          exact ⟨c, [], chain, by simp⟩
      | cons x l => exact ⟨x, l ++ [c], (chain.schedule_cons ran).1, by simp⟩

/-- A call that does not call `schedule` or `thread_not_ready` leaves every place as it is. -/
theorem kept {op : SchedOp T} (chain : Chain s c l) (step : SchedStep s op s')
    (turn : op.isSchedule = false) (only : ∀ t, op ≠ .notReady t) :
    ∃ l', Chain s' c (l ++ l') := by
  cases step with
  | ready fresh ran => exact ⟨_, (chain.ready fresh ran).1⟩
  | notReady ran => exact absurd rfl (only _)
  | schedule ran => simp [SchedOp.isSchedule] at turn

/-- A call of `schedule` with somebody at the head of the queue. -/
theorem switches {x : Nat} (chain : Chain s c (x :: l)) (step : SchedStep s .schedule s') :
    Switches s s' x ∧ Chain s' x (l ++ [c]) := by
  cases step with
  | schedule ran =>
      have next := (chain.schedule_cons ran).1
      exact ⟨⟨.schedule ran, chain.linked.1, next.current⟩, next⟩

/-- The node at position `k` after `j ≤ k` calls of `schedule`. -/
theorem waits_of_trace {k n : Nat} {ops : List (SchedOp T)} (chain : Chain s c l)
    (here : l[k]? = some n) (run : Trace SchedStep s ops s')
    (only : ∀ t, .notReady t ∉ ops) (early : ops.countP SchedOp.isSchedule ≤ k) :
    ∃ c' l', Chain s' c' l' ∧ l'[k - ops.countP SchedOp.isSchedule]? = some n := by
  induction run with
  | refl => exact ⟨c, l, chain, here⟩
  | @tail s₁ s₂ ops op run step ih =>
      rw [List.countP_append, List.countP_singleton] at early ⊢
      have before : ∀ t, SchedOp.notReady t ∉ ops :=
        fun t mem => only t (List.mem_append_left _ mem)
      obtain ⟨c₁, l₁, chain₁, here₁⟩ := ih before (by omega)
      cases turn : op.isSchedule with
      | false =>
          rw [if_neg (by simp), Nat.add_zero]
          obtain ⟨l₂, chain₂⟩ := chain₁.kept step turn fun t same => only t (by simp [same])
          refine ⟨c₁, l₁ ++ l₂, chain₂, ?_⟩
          rw [List.getElem?_append_left (List.getElem?_eq_some_iff.mp here₁).1]
          exact here₁
      | true =>
          rw [turn, if_pos rfl] at early
          rw [if_pos rfl]
          obtain rfl : op = .schedule := by
            cases op <;> first | rfl | cases turn
          -- somebody stands in front, and the node moves one place up
          obtain ⟨j, place⟩ : ∃ j, k - ops.countP SchedOp.isSchedule = j + 1 :=
            ⟨k - ops.countP SchedOp.isSchedule - 1, by omega⟩
          have place' : k - (ops.countP SchedOp.isSchedule + 1) = j := by omega
          rw [place] at here₁
          rw [place']
          cases l₁ with
          | nil => simp at here₁
          | cons x l₁ =>
              rw [List.getElem?_cons_succ] at here₁
              refine ⟨x, l₁ ++ [c₁], (chain₁.switches step).2, ?_⟩
              rw [List.getElem?_append_left (List.getElem?_eq_some_iff.mp here₁).1]
              exact here₁

/-- `m` calls of `schedule` rotate by `m` places. -/
theorem rotated_of_trace {m : Nat} (chain : Chain s c l)
    (run : Trace SchedStep s (List.replicate m .schedule) s') :
    ∃ c' l', Chain s' c' l' ∧ c' :: l' = (c :: l).rotate m := by
  generalize ops_eq : List.replicate m (SchedOp.schedule (T := T)) = ops at run
  induction run generalizing m with
  | refl =>
      obtain rfl : m = 0 := by simpa using ops_eq
      exact ⟨c, l, chain, by simp⟩
  | @tail s₁ s₂ ops op run step ih =>
      cases m with
      | zero => simp at ops_eq
      | succ m =>
          rw [List.replicate_succ'] at ops_eq
          obtain ⟨same, last⟩ := List.append_inj' ops_eq rfl
          obtain rfl : SchedOp.schedule = op := by simpa using last
          obtain ⟨c₁, l₁, chain₁, rot₁⟩ := ih same
          obtain ⟨c₂, l₂, chain₂, rot₂⟩ := chain₁.rotated step
          refine ⟨c₂, l₂, chain₂, ?_⟩
          rw [rot₂, rot₁, List.rotate_rotate]

end Chain

/-! ## The order of the turns -/

/-- Whatever is readied meanwhile, `k` calls of `schedule` switch to other nodes and
the next one switches to `n`; every one of them returns. -/
def TakesTurn (s : Sched T) (k n : Nat) : Prop :=
  ∀ ops s₁, Trace SchedStep s ops s₁ → (∀ t, .notReady t ∉ ops) → Returns s₁ ∧
    ∀ s₂, SchedStep s₁ .schedule s₂ →
      (ops.countP SchedOp.isSchedule < k → ∃ m, m ≠ n ∧ Switches s₁ s₂ m) ∧
        (ops.countP SchedOp.isSchedule = k → Switches s₁ s₂ n)

/-- Calls of `schedule` alone, one for each queued node and one for the current one,
can be made and bring back the current node and the queue. -/
def RestoresRound (s : Sched T) : Prop :=
  ∀ l, Linked s.mem.next s.mem.readyQueue l →
    (∃ s', Trace SchedStep s (List.replicate (l.length + 1) .schedule) s') ∧
      ∀ s', Trace SchedStep s (List.replicate (l.length + 1) .schedule) s' →
        s'.mem.currentThread = s.mem.currentThread ∧ Linked s'.mem.next s'.mem.readyQueue l

theorem Represents.takesTurn {s : Sched T} {q : ReadyQueue T} (h : Represents s q) {k n : Nat}
    (here : Waits s k n) : TakesTurn s k n := by
  intro ops s₁ run only
  have reached : Represents s₁ (ops.foldl ReadyQueue.step q) :=
    run.simulates h fun _ _ _ _ h step => represents_step h step
  refine ⟨reached.returns, fun s₂ step => ?_⟩
  obtain ⟨c, l, chain, -, -⟩ := h
  have place := chain.waits_iff.mp here
  constructor
  · intro early
    obtain ⟨c', l', chain', place'⟩ := chain.waits_of_trace place run only (by omega)
    cases l' with
    | nil => simp at place'
    | cons x l' =>
        refine ⟨x, ?_, (chain'.switches step).1⟩
        rintro rfl
        obtain ⟨j, behind⟩ : ∃ j, k - ops.countP SchedOp.isSchedule = j + 1 :=
          ⟨k - ops.countP SchedOp.isSchedule - 1, by omega⟩
        rw [behind, List.getElem?_cons_succ] at place'
        have distinct := (List.nodup_cons.mp chain'.nodup).2
        exact (List.nodup_cons.mp distinct).1 (List.mem_of_getElem? place')
  · intro now
    obtain ⟨c', l', chain', place'⟩ := chain.waits_of_trace place run only (by omega)
    rw [now, Nat.sub_self] at place'
    cases l' with
    | nil => simp at place'
    | cons x l' =>
        obtain rfl : x = n := by simpa using place'
        exact (chain'.switches step).1

theorem Represents.restoresRound {s : Sched T} {q : ReadyQueue T} (h : Represents s q) :
    RestoresRound s := by
  intro l linked
  refine ⟨h.exists_trace _, fun s' run => ?_⟩
  obtain ⟨c, l', chain, -, -⟩ := h
  obtain rfl := chain.linked.unique linked
  obtain ⟨c', l'', chain', same⟩ := chain.rotated_of_trace run
  rw [← List.length_cons (a := c), List.rotate_length] at same
  obtain ⟨rfl, rfl⟩ := List.cons.inj same
  exact ⟨chain'.current.trans chain.current.symm, chain'.linked⟩

/-- The ready queue is served in the order of its places. -/
theorem served_in_order {mem : SchedMem T} {inUse : List Nat} {t₀ : T} {node : Nat}
    {ops : List (SchedOp T)} {s : Sched T}
    (run : Trace SchedStep (Sched.init mem inUse t₀ node) ops s) :
    (∀ k n, Waits s k n → TakesTurn s k n) ∧ RestoresRound s := by
  have h := represents_of_trace run
  exact ⟨fun _ _ here => h.takesTurn here, h.restoresRound⟩

/-- Two threads wait behind the first one. -/
theorem served_after_two_ready :
    ∃ s n, Trace SchedStep bootSched [.ready 2, .ready 3] s ∧ Waits s 1 n ∧ TakesTurn s 1 n ∧
      RestoresRound s := by
  obtain ⟨s, run⟩ := represents_bootSched.exists_trace [.ready 2, .ready 3]
  obtain ⟨turns, restores⟩ := served_in_order run
  obtain ⟨c, l, chain, -, threads⟩ : Represents s ⟨1, [2, 3]⟩ :=
    run.simulates represents_bootSched fun _ _ _ _ h step => represents_step h step
  have two : l.length = 2 := by simpa using congrArg List.length threads
  obtain ⟨a, b, rfl⟩ := List.length_eq_two.mp two
  have here : Waits s 1 b := chain.waits_iff.mpr rfl
  exact ⟨s, b, run, here, turns 1 b here, restores⟩

end MiniKernel.Kernel
