/-
# Kernel.ReadyQueue -- the scheduler as a functional queue

`ReadyQueue` is what the scheduler is for: a current thread and a list of
threads.  `Represents s q` ties the nodes of scheduler.c to it: the chain from
`ready_queue` ends with a null pointer, visits distinct nodes and not the
current one, all of them in use, and carries the threads of `q`.  Every call
keeps the relation (`represents_step`), so every run is a run of the queue
(`represents_of_trace`).

With this, whether a thread can run again after `thread_not_ready` is a question
about lists: it cannot when the call leaves it nowhere, and since the call takes
out one node at most and never the current one, that depends on where the thread
was (`neverRuns_iff`).
-/
import MiniKernel.Kernel.Scheduler
import MiniKernel.Theory.Transition
import Mathlib.Data.Fintype.EquivFin

namespace MiniKernel.Kernel

open Theory

set_option autoImplicit false

/-- The calls of scheduler.c, behind `init_scheduler`. -/
inductive SchedOp (T : Type) where
  | ready (t : T)
  | notReady (t : T)
  | schedule

/-- The current thread and the threads that wait. -/
structure ReadyQueue (T : Type) where
  current : T
  queue : List T
  deriving DecidableEq, Repr

namespace ReadyQueue

variable {T : Type} [DecidableEq T]

/-- A thread is appended; the first occurrence is deleted; the head and the current
thread rotate. -/
def step (q : ReadyQueue T) : SchedOp T → ReadyQueue T
  | .ready t => { q with queue := q.queue ++ [t] }
  | .notReady t => { q with queue := q.queue.erase t }
  | .schedule =>
      match q.queue with
      | [] => q
      | t :: ts => { current := t, queue := ts ++ [q.current] }

/-- `t` is nowhere. -/
def Absent (q : ReadyQueue T) (t : T) : Prop := q.current ≠ t ∧ t ∉ q.queue

theorem Absent.step {q : ReadyQueue T} {t : T} (absent : q.Absent t) {op : SchedOp T}
    (other : op ≠ .ready t) : (q.step op).Absent t := by
  obtain ⟨away, out⟩ := absent
  cases op with
  | ready u =>
      refine ⟨away, fun mem => ?_⟩
      rcases List.mem_append.mp mem with old | new
      · exact out old
      · exact other (congrArg SchedOp.ready (List.mem_singleton.mp new).symm)
  | notReady u => exact ⟨away, fun mem => out (List.mem_of_mem_erase mem)⟩
  | schedule =>
      obtain ⟨c, l⟩ := q
      cases l with
      | nil => exact ⟨away, out⟩
      | cons x l =>
          simp only [List.mem_cons, not_or] at out
          refine ⟨fun same => out.1 same.symm, fun mem => ?_⟩
          rcases List.mem_append.mp mem with old | last
          · exact out.2 old
          · exact away (List.mem_singleton.mp last).symm

theorem Absent.foldl {q : ReadyQueue T} {t : T} (absent : q.Absent t) {ops : List (SchedOp T)}
    (never : .ready t ∉ ops) : (ops.foldl ReadyQueue.step q).Absent t := by
  induction ops generalizing q with
  | nil => exact absent
  | cons op ops ih =>
      have other : op ≠ .ready t := fun same => never (same ▸ List.mem_cons_self)
      exact ih (absent.step other) fun mem => never (List.mem_cons_of_mem _ mem)

/-- `k` calls of `schedule` bring the thread behind `k` others to the head. -/
theorem foldl_schedule {q : ReadyQueue T} {a b : List T} (split : q.queue = a ++ b) :
    ∃ b', ((List.replicate a.length SchedOp.schedule).foldl ReadyQueue.step q).queue = b ++ b' := by
  induction a generalizing q b with
  | nil => exact ⟨[], by simpa using split⟩
  | cons x a ih =>
      have next : (q.step .schedule).queue = a ++ (b ++ [q.current]) := by
        rw [ReadyQueue.step, split]
        simp
      obtain ⟨b', reached⟩ := ih next
      refine ⟨[q.current] ++ b', ?_⟩
      rw [List.length_cons, List.replicate_succ, List.foldl_cons, reached, List.append_assoc]

end ReadyQueue

/-! ## Runs of scheduler.c -/

/-- The memory of the scheduler, and the nodes that `kmalloc` has handed out. -/
structure Sched (T : Type) where
  mem : SchedMem T
  inUse : List Nat

variable {T : Type}

/-- The state after `init_scheduler`, with the nodes in use before it. -/
def Sched.init (mem : SchedMem T) (inUse : List Nat) (initialThread : T) (node : Nat) : Sched T :=
  ⟨mem.initScheduler initialThread node, node :: inUse⟩

/-- `c` is the current node and `l` the chain of the queue. -/
structure Chain (s : Sched T) (c : Nat) (l : List Nat) : Prop where
  current : s.mem.currentThread = some c
  linked : Linked s.mem.next s.mem.readyQueue l
  nodup : (c :: l).Nodup
  inUse : ∀ n ∈ c :: l, n ∈ s.inUse

/-- The nodes carry the threads of `q`. -/
def Represents (s : Sched T) (q : ReadyQueue T) : Prop :=
  ∃ c l, Chain s c l ∧ s.mem.thread c = q.current ∧ l.map s.mem.thread = q.queue

theorem represents_init (mem : SchedMem T) (inUse : List Nat) (initialThread : T) (node : Nat) :
    Represents (Sched.init mem inUse initialThread node) ⟨initialThread, []⟩ := by
  refine ⟨node, [], ⟨rfl, rfl, List.nodup_singleton _, fun n mem => ?_⟩,
    Function.update_self .., rfl⟩
  rw [List.mem_singleton.mp mem]
  exact List.mem_cons_self

namespace Chain

variable {s : Sched T} {c : Nat} {l : List Nat}

theorem notMem_of_fresh {item : Nat} (chain : Chain s c l) (fresh : item ∉ s.inUse) :
    item ∉ c :: l :=
  fun mem => fresh (chain.inUse item mem)

/-- The new node goes to the end of the chain. -/
theorem ready {t : T} {fuel item : Nat} {mem : SchedMem T} (chain : Chain s c l)
    (fresh : item ∉ s.inUse) (ran : s.mem.threadIsReady fuel t item = .ok mem) :
    Chain ⟨mem, item :: s.inUse⟩ c (l ++ [item]) ∧ SchedMem.Appended s.mem mem t item l := by
  have out := chain.notMem_of_fresh fresh
  have appended := SchedMem.threadIsReady_ok chain.linked (List.nodup_cons.mp chain.nodup).2
    (fun mem => out (List.mem_cons_of_mem _ mem)) ran
  have nodup : (c :: (l ++ [item])).Nodup := by
    rw [← List.cons_append, List.nodup_append]
    refine ⟨chain.nodup, List.nodup_singleton _, fun n mem m last => ?_⟩
    rw [List.mem_singleton.mp last]
    rintro rfl
    exact out mem
  refine ⟨⟨appended.current.trans chain.current, appended.queue, nodup, fun n mem => ?_⟩, appended⟩
  rw [← List.cons_append] at mem
  rcases List.mem_append.mp mem with old | last
  · exact List.mem_cons_of_mem _ (chain.inUse n old)
  · rw [List.mem_singleton.mp last]
    exact List.mem_cons_self

/-- With nobody waiting, the current node stays. -/
theorem schedule_nil {fuel : Nat} {mem : SchedMem T} (chain : Chain s c [])
    (ran : s.mem.schedule fuel = .ok mem) : mem = s.mem := by
  have empty : s.mem.readyQueue = none := chain.linked
  exact (Except.ok.inj ((SchedMem.schedule_empty fuel empty).symm.trans ran)).symm

/-- The head becomes the current node, which goes to the end of the chain. -/
theorem schedule_cons {fuel x : Nat} {mem : SchedMem T} (chain : Chain s c (x :: l))
    (ran : s.mem.schedule fuel = .ok mem) :
    Chain ⟨mem, s.inUse⟩ x (l ++ [c]) ∧ mem.thread = s.mem.thread := by
  have rotated := SchedMem.schedule_ok chain.linked chain.current chain.nodup ran
  have perm : (c :: x :: l).Perm (x :: (l ++ [c])) :=
    (List.Perm.swap x c l).trans (List.Perm.cons x (List.perm_append_singleton c l).symm)
  exact ⟨⟨rotated.current, rotated.queue, perm.nodup_iff.mp chain.nodup,
    fun n mem => chain.inUse n (perm.mem_iff.mpr mem)⟩, rotated.thread⟩

end Chain

variable [DecidableEq T]

/-- A call that returns.  `kmalloc` yields a node that is not in use. -/
inductive SchedStep : Sched T → SchedOp T → Sched T → Prop where
  | ready {s : Sched T} {t : T} {fuel item : Nat} {mem : SchedMem T} (fresh : item ∉ s.inUse)
      (ran : s.mem.threadIsReady fuel t item = .ok mem) :
      SchedStep s (.ready t) ⟨mem, item :: s.inUse⟩
  | notReady {s : Sched T} {t : T} {fuel : Nat} {mem : SchedMem T} {freed : Option Nat}
      (ran : s.mem.threadNotReady fuel t = .ok (mem, freed)) :
      SchedStep s (.notReady t) ⟨mem, s.inUse.filter fun n => freed ≠ some n⟩
  | schedule {s : Sched T} {fuel : Nat} {mem : SchedMem T}
      (ran : s.mem.schedule fuel = .ok mem) : SchedStep s .schedule ⟨mem, s.inUse⟩

theorem represents_ready {s : Sched T} {q : ReadyQueue T} {t : T} {fuel item : Nat}
    {mem : SchedMem T} (h : Represents s q) (fresh : item ∉ s.inUse)
    (ran : s.mem.threadIsReady fuel t item = .ok mem) :
    Represents ⟨mem, item :: s.inUse⟩ (q.step (.ready t)) := by
  obtain ⟨c, l, chain, here, threads⟩ := h
  obtain ⟨chain', appended⟩ := chain.ready fresh ran
  have others : ∀ n ∈ c :: l, mem.thread n = s.mem.thread n := by
    intro n at_n
    apply appended.thread
    rintro rfl
    exact chain.notMem_of_fresh fresh at_n
  have same : l.map mem.thread = l.map s.mem.thread :=
    List.map_congr_left fun n at_n => others n (List.mem_cons_of_mem _ at_n)
  refine ⟨c, l ++ [item], chain', (others c List.mem_cons_self).trans here, ?_⟩
  rw [List.map_append, same, threads, List.map_singleton, appended.new]
  rfl

theorem represents_notReady {s : Sched T} {q : ReadyQueue T} {t : T} {fuel : Nat}
    {mem : SchedMem T} {freed : Option Nat} (h : Represents s q)
    (ran : s.mem.threadNotReady fuel t = .ok (mem, freed)) :
    Represents ⟨mem, s.inUse.filter fun n => freed ≠ some n⟩ (q.step (.notReady t)) := by
  obtain ⟨c, l, chain, here, threads⟩ := h
  cases SchedMem.threadNotReady_ok chain.linked (List.nodup_cons.mp chain.nodup).2 ran with
  | missing same absent =>
      subst same
      have out : t ∉ q.queue := by
        rw [← threads]
        intro mem
        obtain ⟨n, at_n, holds⟩ := List.mem_map.mp mem
        exact absent n at_n holds
      refine ⟨c, l, ⟨chain.current, chain.linked, chain.nodup, fun n mem => ?_⟩, here, ?_⟩
      · simpa using chain.inUse n mem
      · rw [ReadyQueue.step, List.erase_of_not_mem out, threads]
  | @first a b n split holds before thread current queue =>
      subst split
      have perm : (c :: (a ++ n :: b)).Perm (n :: c :: (a ++ b)) :=
        (List.Perm.cons c List.perm_middle).trans (List.Perm.swap n c _)
      have nodup := List.nodup_cons.mp (perm.nodup_iff.mp chain.nodup)
      refine ⟨c, a ++ b, ⟨current.trans chain.current, queue, nodup.2, fun m mem => ?_⟩,
        (congrFun thread c).trans here, ?_⟩
      · have other : n ≠ m := fun same => nodup.1 (same ▸ mem)
        have used := chain.inUse m (perm.mem_iff.mpr (List.mem_cons_of_mem _ mem))
        simpa [List.mem_filter, other] using used
      · have out : t ∉ a.map s.mem.thread := by
          intro mem
          obtain ⟨x, at_x, holds⟩ := List.mem_map.mp mem
          exact before x at_x holds
        rw [thread, ReadyQueue.step, ← threads, List.map_append, List.map_append, List.map_cons,
          List.erase_append_right _ out, holds, List.erase_cons_head]

theorem represents_schedule {s : Sched T} {q : ReadyQueue T} {fuel : Nat} {mem : SchedMem T}
    (h : Represents s q) (ran : s.mem.schedule fuel = .ok mem) :
    Represents ⟨mem, s.inUse⟩ (q.step .schedule) := by
  obtain ⟨c, l, chain, here, threads⟩ := h
  cases l with
  | nil =>
      have waiting : q.queue = [] := threads.symm
      obtain rfl := chain.schedule_nil ran
      have still : q.step .schedule = q := by rw [ReadyQueue.step, waiting]
      rw [still]
      exact ⟨c, [], chain, here, threads⟩
  | cons x l =>
      have waiting : q.queue = s.mem.thread x :: l.map s.mem.thread := threads.symm
      obtain ⟨chain', thread⟩ := chain.schedule_cons ran
      refine ⟨x, l ++ [c], chain', ?_, ?_⟩
      · rw [ReadyQueue.step, waiting, thread]
      · rw [ReadyQueue.step, waiting, thread, List.map_append, List.map_singleton, here]

/-- Every call is a step of the queue. -/
theorem represents_step {s s' : Sched T} {q : ReadyQueue T} {op : SchedOp T} (h : Represents s q)
    (step : SchedStep s op s') : Represents s' (q.step op) := by
  cases step with
  | ready fresh ran => exact represents_ready h fresh ran
  | notReady ran => exact represents_notReady h ran
  | schedule ran => exact represents_schedule h ran

theorem represents_of_trace {mem : SchedMem T} {inUse : List Nat} {t₀ : T} {node : Nat}
    {ops : List (SchedOp T)} {s : Sched T}
    (run : Trace SchedStep (Sched.init mem inUse t₀ node) ops s) :
    Represents s (ops.foldl ReadyQueue.step ⟨t₀, []⟩) :=
  run.simulates (represents_init mem inUse t₀ node) fun _ _ _ _ h step => represents_step h step

/-! ## What the calls do not do -/

/-- Every call returns, given fuel for the queue. -/
def Returns (s : Sched T) : Prop :=
  ∃ n, ∀ fuel, n ≤ fuel → (∃ mem, s.mem.schedule fuel = .ok mem) ∧
    (∀ t, ∃ r, s.mem.threadNotReady fuel t = .ok r) ∧
    ∀ t item, item ∉ s.inUse → ∃ mem, s.mem.threadIsReady fuel t item = .ok mem

/-- `kfree` gets a node in use that is linked no more and is not the current one. -/
def FreesUnlinked (s : Sched T) : Prop :=
  ∀ fuel t mem n, s.mem.threadNotReady fuel t = .ok (mem, some n) → n ∈ s.inUse ∧
    mem.currentThread ≠ some n ∧ ∀ l, Linked mem.next mem.readyQueue l → n ∉ l

theorem Represents.returns {s : Sched T} {q : ReadyQueue T} (h : Represents s q) : Returns s := by
  obtain ⟨c, l, chain, -, -⟩ := h
  refine ⟨l.length, fun fuel enough => ⟨?_, fun t => ?_, fun t item fresh => ?_⟩⟩
  · exact SchedMem.schedule_returns chain.linked chain.current enough
  · exact SchedMem.threadNotReady_returns t chain.linked enough
  · exact SchedMem.threadIsReady_returns t chain.linked
      (fun mem => fresh (chain.inUse item (List.mem_cons_of_mem _ mem))) enough

/-- Every call can be made. -/
theorem Represents.exists_step {s : Sched T} {q : ReadyQueue T} (h : Represents s q)
    (op : SchedOp T) : ∃ s', SchedStep s op s' := by
  obtain ⟨n, enough⟩ := h.returns
  obtain ⟨⟨mem, scheduled⟩, removed, appended⟩ := enough n (Nat.le_refl n)
  cases op with
  | ready t =>
      obtain ⟨item, fresh⟩ := Infinite.exists_notMem_finset s.inUse.toFinset
      rw [List.mem_toFinset] at fresh
      obtain ⟨mem, ran⟩ := appended t item fresh
      exact ⟨_, .ready fresh ran⟩
  | notReady t =>
      obtain ⟨r, ran⟩ := removed t
      exact ⟨_, .notReady ran⟩
  | schedule => exact ⟨_, .schedule scheduled⟩

theorem Represents.exists_trace {s : Sched T} {q : ReadyQueue T} (h : Represents s q)
    (ops : List (SchedOp T)) : ∃ s', Trace SchedStep s ops s' := by
  induction ops generalizing s q with
  | nil => exact ⟨s, .refl⟩
  | cons op ops ih =>
      obtain ⟨s', step⟩ := h.exists_step op
      obtain ⟨s'', rest⟩ := ih (represents_step h step)
      exact ⟨s'', (Trace.single step).trans rest⟩

theorem Represents.freesUnlinked {s : Sched T} {q : ReadyQueue T} (h : Represents s q) :
    FreesUnlinked s := by
  obtain ⟨c, l, chain, -, -⟩ := h
  intro fuel t mem n ran
  cases SchedMem.threadNotReady_ok chain.linked (List.nodup_cons.mp chain.nodup).2 ran with
  | @first a b n split holds before thread current queue =>
      subst split
      have perm : (c :: (a ++ n :: b)).Perm (n :: c :: (a ++ b)) :=
        (List.Perm.cons c List.perm_middle).trans (List.Perm.swap n c _)
      have out := (List.nodup_cons.mp (perm.nodup_iff.mp chain.nodup)).1
      refine ⟨chain.inUse n (perm.mem_iff.mpr List.mem_cons_self), fun same => ?_,
        fun l linked mem => ?_⟩
      · rw [current, chain.current] at same
        exact out (Option.some.inj same ▸ List.mem_cons_self)
      · rw [← queue.unique linked] at mem
        exact out (List.mem_cons_of_mem _ mem)

/-- The scheduler refines the functional queue. -/
theorem refines_readyQueue {mem : SchedMem T} {inUse : List Nat} {t₀ : T} {node : Nat}
    {ops : List (SchedOp T)} {s : Sched T}
    (run : Trace SchedStep (Sched.init mem inUse t₀ node) ops s) :
    Represents s (ops.foldl ReadyQueue.step ⟨t₀, []⟩) ∧ Returns s ∧ FreesUnlinked s := by
  have h := represents_of_trace run
  exact ⟨h, h.returns, h.freesUnlinked⟩

/-- Thread 1 on node 100, behind `init_scheduler`. -/
def bootSched : Sched Nat := Sched.init ⟨fun _ => 0, fun _ => none, none, none⟩ [] 1 100

theorem represents_bootSched : Represents bootSched ⟨1, []⟩ := represents_init _ _ _ _

/-- Two threads, of which the running one is queued a second time. -/
theorem refines_after_five_calls :
    ∃ s, Represents s ⟨2, [1, 1]⟩ ∧ Returns s ∧ FreesUnlinked s := by
  obtain ⟨s, run⟩ := represents_bootSched.exists_trace
    [.ready 2, .ready 1, .ready 3, .notReady 3, .schedule]
  exact ⟨s, refines_readyQueue run⟩

/-! ## Threads that are not ready -/

/-- A call of `schedule` that switches to `t`. -/
structure SwitchesTo (s s' : Sched T) (t : T) : Prop where
  step : SchedStep s .schedule s'
  switch : s.mem.readyQueue ≠ none
  current : ∃ n, s'.mem.currentThread = some n ∧ s'.mem.thread n = t

/-- No later `schedule` switches to `t` until it is ready again. -/
def NeverRuns (s : Sched T) (t : T) : Prop :=
  ∀ ops s₁ s₂, .ready t ∉ ops → Trace SchedStep s ops s₁ → ¬SwitchesTo s₁ s₂ t

theorem Represents.neverRuns {s : Sched T} {q : ReadyQueue T} {t : T} (h : Represents s q)
    (absent : q.Absent t) : NeverRuns s t := by
  rintro ops s₁ s₂ never run ⟨step, -, n, here, holds⟩
  have reached : Represents s₁ (ops.foldl ReadyQueue.step q) :=
    run.simulates h fun _ _ _ _ h step => represents_step h step
  obtain ⟨c, l, chain, current, -⟩ := represents_step reached step
  have other : SchedOp.schedule ≠ .ready t := by simp
  have away := ((absent.foldl never).step other).1
  obtain rfl := Option.some.inj (chain.current.symm.trans here)
  exact away (current.symm.trans holds)

/-- A thread in the queue gets its turn. -/
theorem Represents.runs_of_queued {s : Sched T} {q : ReadyQueue T} {t : T} (h : Represents s q)
    (queued : t ∈ q.queue) : ¬NeverRuns s t := by
  intro never
  obtain ⟨a, b, split⟩ := List.append_of_mem queued
  obtain ⟨b', waiting⟩ := ReadyQueue.foldl_schedule split
  obtain ⟨s₁, run⟩ := h.exists_trace (List.replicate a.length SchedOp.schedule)
  have reached : Represents s₁ _ := run.simulates h fun _ _ _ _ h step => represents_step h step
  obtain ⟨s₂, step⟩ := reached.exists_step .schedule
  have notReady : SchedOp.ready t ∉ List.replicate a.length SchedOp.schedule := by simp
  refine never _ s₁ s₂ notReady run ⟨step, ?_, ?_⟩
  · obtain ⟨c, l, chain, -, threads⟩ := reached
    intro empty
    have nothing := chain.linked
    rw [empty] at nothing
    cases l with
    | nil =>
        rw [waiting] at threads
        cases threads
    | cons x l => cases nothing.1
  · obtain ⟨c, l, chain, current, -⟩ := represents_step reached step
    refine ⟨c, chain.current, current.trans ?_⟩
    rw [ReadyQueue.step, waiting]
    rfl

/-- The running thread gets its turn again as soon as another one is ready. -/
theorem Represents.runs_of_current {s : Sched T} {q : ReadyQueue T} {t u : T} (h : Represents s q)
    (running : q.current = t) (other : u ≠ t) : ¬NeverRuns s t := by
  intro never
  obtain ⟨s₁, run⟩ := h.exists_trace [.ready u, .schedule]
  have reached : Represents s₁ _ := run.simulates h fun _ _ _ _ h step => represents_step h step
  refine reached.runs_of_queued (t := t) ?_ fun ops s₂ s₃ silent rest => ?_
  · cases waiting : q.queue with
    | nil => simp [ReadyQueue.step, waiting, running]
    | cons x l => simp [ReadyQueue.step, waiting, running]
  · refine never ([.ready u, .schedule] ++ ops) s₂ s₃ (fun mem => ?_) (run.trans rest)
    rcases List.mem_append.mp mem with early | late
    · have same : t = u := by simpa using early
      exact other same.symm
    · exact silent late

/-- A thread marked not ready never runs, exactly when it was not running and was
queued once at most. -/
theorem neverRuns_iff {mem : SchedMem Nat} {inUse : List Nat} {t₀ node t : Nat}
    {ops : List (SchedOp Nat)} {s : Sched Nat}
    (run : Trace SchedStep (Sched.init mem inUse t₀ node) ops s) :
    (∀ s', SchedStep s (.notReady t) s' → NeverRuns s' t) ↔
      (ops.foldl ReadyQueue.step ⟨t₀, []⟩).current ≠ t ∧
        (ops.foldl ReadyQueue.step ⟨t₀, []⟩).queue.count t ≤ 1 := by
  have h := represents_of_trace run
  generalize ops.foldl ReadyQueue.step ⟨t₀, []⟩ = q at h
  constructor
  · intro never
    obtain ⟨s', step⟩ := h.exists_step (.notReady t)
    have reached := represents_step h step
    refine ⟨fun running => ?_, Nat.le_of_not_lt fun twice => ?_⟩
    · exact reached.runs_of_current (u := t + 1) running (Nat.succ_ne_self t) (never s' step)
    · refine reached.runs_of_queued ?_ (never s' step)
      have left : 0 < (q.queue.erase t).count t := by
        rw [List.count_erase_self]
        omega
      exact List.count_pos_iff.mp left
  · rintro ⟨away, once⟩ s' step
    refine (represents_step h step).neverRuns ⟨away, fun mem => ?_⟩
    have left := List.count_pos_iff.mpr mem
    rw [ReadyQueue.step, List.count_erase_self] at left
    omega

/-- A thread that waits once is gone. -/
theorem queued_once_never_runs :
    ∃ s, Trace SchedStep bootSched [.ready 2] s ∧
      ∀ s', SchedStep s (.notReady 2) s' → NeverRuns s' 2 := by
  obtain ⟨s, run⟩ := represents_bootSched.exists_trace [.ready 2]
  exact ⟨s, run, (neverRuns_iff run).mpr (by decide)⟩

/-- The running thread, marked not ready while thread 2 waits, gets its turn again. -/
theorem running_thread_runs_again :
    ∃ s s', Trace SchedStep bootSched [.ready 2] s ∧ SchedStep s (.notReady 1) s' ∧
      ¬NeverRuns s' 1 := by
  obtain ⟨s, run⟩ := represents_bootSched.exists_trace [.ready 2]
  have h : Represents s ⟨1, [2]⟩ :=
    run.simulates represents_bootSched fun _ _ _ _ h step => represents_step h step
  obtain ⟨s', step⟩ := h.exists_step (.notReady 1)
  exact ⟨s, s', run, step, (represents_step h step).runs_of_current (u := 2) rfl (by decide)⟩

end MiniKernel.Kernel
