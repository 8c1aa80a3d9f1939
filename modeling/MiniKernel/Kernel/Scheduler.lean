/-
# Kernel.Scheduler -- scheduler.c

The nodes are `thread_list_t` records, known by their address; a null pointer is
`none`.  Each function of the file has one rule that says what a call does to a
well-formed queue: `schedule_ok` (the current node goes to the end, the head
becomes the current node), `threadIsReady_ok` and `threadNotReady_ok`.  The
`_returns` lemmas say that fuel for each node of the queue is enough.
-/
import MiniKernel.Theory.LinkedQueue
import MiniKernel.Kernel.Panic

namespace MiniKernel.Kernel

open Theory

set_option autoImplicit false

/-- The nodes and the two global pointers of scheduler.c. -/
structure SchedMem (T : Type) where
  thread : Nat → T
  next : Nat → Option Nat
  readyQueue : Option Nat
  currentThread : Option Nat

namespace SchedMem

variable {T : Type}

/-- `schedule`, with the assignment of `current_thread` that `switch_thread`
makes.  `fuel` bounds the walk to the end of the queue. -/
def schedule (fuel : Nat) (s : SchedMem T) : Except Stop (SchedMem T) :=
  match s.readyQueue with
  | none => .ok s
  | some head =>
      match walk s.next fuel head with
      | none => .error .fuel
      | some iterator =>
          match s.currentThread with
          | none => .error .nullDeref
          | some current =>
              let next := Function.update (Function.update s.next iterator (some current))
                current none
              .ok { s with next, readyQueue := next head, currentThread := some head }

/-- `init_scheduler`, with the node that `kmalloc` returns. -/
def initScheduler (s : SchedMem T) (initialThread : T) (node : Nat) : SchedMem T where
  thread := Function.update s.thread node initialThread
  next := Function.update s.next node none
  readyQueue := none
  currentThread := some node

/-- `thread_is_ready`, with the node that `kmalloc` returns. -/
def threadIsReady (fuel : Nat) (t : T) (item : Nat) (s : SchedMem T) : Except Stop (SchedMem T) :=
  let thread := Function.update s.thread item t
  let next := Function.update s.next item none
  match s.readyQueue with
  | none => .ok { s with thread, next, readyQueue := some item }
  | some head =>
      match walk next fuel head with
      | none => .error .fuel
      | some iterator => .ok { s with thread, next := Function.update next iterator (some item) }

/-- The loop of `thread_not_ready`: the new pointers, and the node that is given to
`kfree`. -/
def unlinkFrom [DecidableEq T] (thread : Nat → T) (next : Nat → Option Nat) (t : T) :
    Nat → Nat → Except Stop ((Nat → Option Nat) × Option Nat)
  | 0, _ => .error .fuel
  | fuel + 1, iterator =>
      match next iterator with
      | none => .ok (next, none)
      | some tmp =>
          if thread tmp = t then .ok (Function.update next iterator (next tmp), some tmp)
          else unlinkFrom thread next t fuel tmp

/-- `thread_not_ready`, with the node it gives to `kfree`. -/
def threadNotReady [DecidableEq T] (fuel : Nat) (t : T) (s : SchedMem T) :
    Except Stop (SchedMem T × Option Nat) :=
  match s.readyQueue with
  | none => .ok (s, none)
  | some head =>
      if s.thread head = t then .ok ({ s with readyQueue := s.next head }, some head)
      else
        (unlinkFrom s.thread s.next t fuel head).map fun r => ({ s with next := r.1 }, r.2)

theorem schedule_empty {s : SchedMem T} (fuel : Nat) (empty : s.readyQueue = none) :
    s.schedule fuel = .ok s := by
  simp [schedule, empty]

/-- What `schedule` does to a queue `x :: l`. -/
structure Rotated (s s' : SchedMem T) (c x : Nat) (l : List Nat) : Prop where
  thread : s'.thread = s.thread
  current : s'.currentThread = some x
  queue : Linked s'.next s'.readyQueue (l ++ [c])
  frame : ∀ n, n ∉ c :: x :: l → s'.next n = s.next n

theorem schedule_ok {s s' : SchedMem T} {fuel c x : Nat} {l : List Nat}
    (queue : Linked s.next s.readyQueue (x :: l)) (current : s.currentThread = some c)
    (nodup : (c :: x :: l).Nodup) (ran : s.schedule fuel = .ok s') : Rotated s s' c x l := by
  rw [schedule, queue.1] at ran
  dsimp only at ran
  split at ran
  · cases ran
  · rename_i iterator found
    rw [current] at ran
    obtain rfl := Except.ok.inj ran
    have linked : Linked s.next (some x) (x :: l) := ⟨rfl, queue.2⟩
    have last := linked.walk_eq found
    obtain ⟨init, split⟩ : ∃ init, x :: l = init ++ [iterator] := List.getLast?_eq_some_iff.mp last
    have out : c ∉ x :: l := (List.nodup_cons.mp nodup).1
    -- with the current node cleared first, it can be linked behind the last one
    have cleared := linked.update_of_notMem out none
    rw [split] at cleared out
    have appended := cleared.append (split ▸ (List.nodup_cons.mp nodup).2) out
      (Function.update_self ..)
    have other : c ≠ iterator := fun same => out (by simp [same])
    rw [Function.update_comm other, ← split] at appended
    refine ⟨rfl, rfl, appended.2, fun n hn => ?_⟩
    have notLast : n ≠ iterator := by
      rintro rfl
      exact hn (List.mem_cons_of_mem _ (by simp [split]))
    have notCurrent : n ≠ c := fun same => hn (same ▸ List.mem_cons_self)
    dsimp only
    rw [Function.update_of_ne notCurrent, Function.update_of_ne notLast]

/-- On a well-formed queue a call returns, given fuel for each node. -/
theorem schedule_returns {s : SchedMem T} {fuel c : Nat} {l : List Nat}
    (queue : Linked s.next s.readyQueue l) (current : s.currentThread = some c)
    (enough : l.length ≤ fuel) : ∃ s', s.schedule fuel = .ok s' := by
  cases l with
  | nil => exact ⟨s, schedule_empty fuel queue⟩
  | cons x l =>
      obtain ⟨iterator, found⟩ := Option.ne_none_iff_exists'.mp
        (Linked.walk_ne_none (l := x :: l) ⟨rfl, queue.2⟩ enough)
      simp [schedule, queue.1, found, current]

/-- What `thread_is_ready` does to a queue `l`. -/
structure Appended (s s' : SchedMem T) (t : T) (item : Nat) (l : List Nat) : Prop where
  new : s'.thread item = t
  thread : ∀ n, n ≠ item → s'.thread n = s.thread n
  current : s'.currentThread = s.currentThread
  queue : Linked s'.next s'.readyQueue (l ++ [item])

theorem threadIsReady_ok {s s' : SchedMem T} {fuel item : Nat} {t : T} {l : List Nat}
    (queue : Linked s.next s.readyQueue l) (nodup : l.Nodup) (fresh : item ∉ l)
    (ran : s.threadIsReady fuel t item = .ok s') : Appended s s' t item l := by
  have threads : ∀ n, n ≠ item → Function.update s.thread item t n = s.thread n :=
    fun n other => Function.update_of_ne other _ _
  have cleared := queue.update_of_notMem fresh none
  rw [threadIsReady] at ran
  cases l with
  | nil =>
      rw [show s.readyQueue = none from queue] at ran
      obtain rfl := Except.ok.inj ran
      exact ⟨Function.update_self .., threads, rfl, rfl, Function.update_self ..⟩
  | cons head l =>
      rw [queue.1] at ran cleared
      dsimp only at ran
      split at ran
      · cases ran
      · rename_i iterator found
        obtain rfl := Except.ok.inj ran
        obtain ⟨init, split⟩ : ∃ init, head :: l = init ++ [iterator] :=
          List.getLast?_eq_some_iff.mp (cleared.walk_eq found)
        rw [split] at cleared nodup fresh
        have appended := cleared.append nodup fresh (Function.update_self ..)
        refine ⟨Function.update_self .., threads, rfl, ?_⟩
        dsimp only
        rw [split]
        exact appended

theorem threadIsReady_returns {s : SchedMem T} {fuel item : Nat} (t : T) {l : List Nat}
    (queue : Linked s.next s.readyQueue l) (fresh : item ∉ l) (enough : l.length ≤ fuel) :
    ∃ s', s.threadIsReady fuel t item = .ok s' := by
  have cleared := queue.update_of_notMem fresh none
  cases l with
  | nil =>
      have empty : s.readyQueue = none := queue
      exact ⟨_, by rw [threadIsReady, empty]⟩
  | cons head l =>
      rw [queue.1] at cleared
      obtain ⟨iterator, found⟩ := Option.ne_none_iff_exists'.mp
        (Linked.walk_ne_none cleared enough)
      simp [threadIsReady, queue.1, found]

section NotReady

variable [DecidableEq T]

/-- What `thread_not_ready` does to a queue `l`, when it gives `freed` to `kfree`. -/
inductive Removed (s s' : SchedMem T) (t : T) (l : List Nat) : Option Nat → Prop where
  | missing (same : s' = s) (absent : ∀ n ∈ l, s.thread n ≠ t) : Removed s s' t l none
  | first {a b : List Nat} {n : Nat} (split : l = a ++ n :: b) (here : s.thread n = t)
      (before : ∀ x ∈ a, s.thread x ≠ t) (thread : s'.thread = s.thread)
      (current : s'.currentThread = s.currentThread)
      (queue : Linked s'.next s'.readyQueue (a ++ b)) : Removed s s' t l (some n)

/-- The loop of `thread_not_ready` behind the nodes `a`, none of which holds `t`. -/
theorem unlinkFrom_ok {thread : Nat → T} {next next' : Nat → Option Nat} {t : T} {fuel it : Nat}
    {p freed : Option Nat} {a b : List Nat} (queue : Linked next p (a ++ it :: b))
    (nodup : (a ++ it :: b).Nodup) (before : ∀ x ∈ a ++ [it], thread x ≠ t)
    (ran : unlinkFrom thread next t fuel it = .ok (next', freed)) :
    (freed = none ∧ next' = next ∧ ∀ x ∈ a ++ it :: b, thread x ≠ t) ∨
      ∃ a' n b', freed = some n ∧ a ++ it :: b = a' ++ n :: b' ∧ thread n = t ∧
        (∀ x ∈ a', thread x ≠ t) ∧ Linked next' p (a' ++ b') := by
  induction fuel generalizing it a b with
  | zero => cases ran
  | succ fuel ih =>
      rw [unlinkFrom, Linked.next_eq a p queue] at ran
      cases b with
      | nil =>
          dsimp only [List.head?_nil] at ran
          obtain ⟨rfl, rfl⟩ := Prod.mk.inj (Except.ok.inj ran)
          exact .inl ⟨rfl, rfl, before⟩
      | cons x b =>
          dsimp only [List.head?_cons] at ran
          have shape : a ++ it :: x :: b = a ++ [it] ++ x :: b := by simp
          by_cases here : thread x = t
          · rw [if_pos here] at ran
            obtain ⟨rfl, rfl⟩ := Prod.mk.inj (Except.ok.inj ran)
            refine .inr ⟨a ++ [it], x, b, rfl, shape, here, before, ?_⟩
            rw [List.append_assoc]
            exact queue.unlink nodup
          · rw [if_neg here] at ran
            rw [shape] at queue nodup ⊢
            refine ih queue nodup (fun y mem => ?_) ran
            rcases List.mem_append.mp mem with early | last
            · exact before y early
            · rwa [List.mem_singleton.mp last]

theorem threadNotReady_ok {s s' : SchedMem T} {fuel : Nat} {t : T} {l : List Nat}
    {freed : Option Nat} (queue : Linked s.next s.readyQueue l) (nodup : l.Nodup)
    (ran : s.threadNotReady fuel t = .ok (s', freed)) : Removed s s' t l freed := by
  cases l with
  | nil =>
      rw [threadNotReady, show s.readyQueue = none from queue] at ran
      obtain ⟨rfl, rfl⟩ := Prod.mk.inj (Except.ok.inj ran)
      exact .missing rfl (by simp)
  | cons head l =>
      rw [threadNotReady, queue.1] at ran
      dsimp only at ran
      by_cases here : s.thread head = t
      · rw [if_pos here] at ran
        obtain ⟨rfl, rfl⟩ := Prod.mk.inj (Except.ok.inj ran)
        exact .first (a := []) rfl here (by simp) rfl rfl queue.2
      · rw [if_neg here] at ran
        cases loop : unlinkFrom s.thread s.next t fuel head with
        | error e =>
            rw [loop] at ran
            cases ran
        | ok r =>
            obtain ⟨next', freed'⟩ := r
            rw [loop] at ran
            obtain ⟨rfl, rfl⟩ := Prod.mk.inj (Except.ok.inj ran)
            rcases unlinkFrom_ok (a := []) queue nodup (by simpa using here) loop with
              ⟨rfl, rfl, absent⟩ | ⟨a, n, b, rfl, split, found, before, linked⟩
            · exact .missing (by rw [← queue.1]) absent
            · rw [queue.1] at linked
              exact .first split found before rfl rfl linked

theorem unlinkFrom_returns {thread : Nat → T} {next : Nat → Option Nat} (t : T) {fuel it : Nat}
    {b : List Nat} (queue : Linked next (some it) (it :: b)) (enough : b.length < fuel) :
    ∃ r, unlinkFrom thread next t fuel it = .ok r := by
  induction fuel generalizing it b with
  | zero => simp at enough
  | succ fuel ih =>
      rw [unlinkFrom]
      cases b with
      | nil =>
          rw [show next it = none from queue.2]
          exact ⟨_, rfl⟩
      | cons x b =>
          rw [queue.2.1]
          dsimp only
          by_cases here : thread x = t
          · rw [if_pos here]
            exact ⟨_, rfl⟩
          · rw [if_neg here]
            exact ih ⟨rfl, queue.2.2⟩ (by simpa using enough)

theorem threadNotReady_returns {s : SchedMem T} {fuel : Nat} (t : T) {l : List Nat}
    (queue : Linked s.next s.readyQueue l) (enough : l.length ≤ fuel) :
    ∃ r, s.threadNotReady fuel t = .ok r := by
  cases l with
  | nil =>
      have empty : s.readyQueue = none := queue
      exact ⟨_, by rw [threadNotReady, empty]⟩
  | cons head l =>
      rw [threadNotReady, queue.1]
      dsimp only
      by_cases here : s.thread head = t
      · rw [if_pos here]
        exact ⟨_, rfl⟩
      · rw [if_neg here]
        rw [List.length_cons] at enough
        obtain ⟨r, ran⟩ := unlinkFrom_returns t ⟨rfl, queue.2⟩ (Nat.lt_of_succ_le enough)
        rw [ran]
        exact ⟨_, rfl⟩

end NotReady

end SchedMem

end MiniKernel.Kernel
