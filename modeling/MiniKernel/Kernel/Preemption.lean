/-
# Kernel.Preemption -- no thread is lost to a timer tick

While a thread has one node only, the current node followed by the queue is a
ring that ticks merely turn, and every link goes in just before the current
node: seen from the node of a thread in the middle of a call, the last node stays
the last one (`walkOk_append`, `walkOk_rotate`), so the pointer it found before
it was preempted still is the tail when it runs again.  A thread that comes back
through a second node finds the ring turned to another place; it then links its
item behind a node that is not the tail, or not in the queue
(`second_node_loses_thread`).
-/
import MiniKernel.Kernel.ThreadStatements

namespace MiniKernel.Kernel

open Theory

set_option autoImplicit false

namespace Threads

variable {T : Type} [DecidableEq T]

/-! ## Calls in progress -/

/-- Where a call of thread `t` stands when `c :: l` is the ring: it started on a
node of `t`, and its iterator is a node behind that one, before the last one
while the loop goes on and the last one when the loop ended. -/
def WalkOk (thread : Nat → T) (c : Nat) (l : List Nat) (t : T) : Pc T → Prop
  | .initAlloc _ | .initThread _ | .initNext | .initQueue => False
  | .setQueue _ home => home = some c ∧ l = [] ∧ thread c = t
  | .setIterator _ home => ∃ h, home = some h ∧ h ∈ c :: l ∧ thread h = t ∧ l ≠ []
  | .testNext _ iterator home => ∃ h x, home = some h ∧ h ∈ c :: l ∧ thread h = t ∧
      iterator = some x ∧ x ∈ after h (c :: l)
  | .advance _ iterator home => ∃ h x, home = some h ∧ h ∈ c :: l ∧ thread h = t ∧
      iterator = some x ∧ x ∈ after h (c :: l) ∧ (after h (c :: l)).getLast? ≠ some x
  | .link _ iterator home => ∃ h x, home = some h ∧ h ∈ c :: l ∧ thread h = t ∧
      iterator = some x ∧ (after h (c :: l)).getLast? = some x
  | _ => True

omit [DecidableEq T] in
/-- A tick turns the ring. -/
theorem walkOk_rotate {thread : Nat → T} {c x : Nat} {l : List Nat} {t : T} {p : Pc T}
    (nodup : (c :: x :: l).Nodup) (ok : WalkOk thread c (x :: l) t p) :
    WalkOk thread x (l ++ [c]) t p := by
  have same : ∀ h, h ∈ x :: (l ++ [c]) ↔ h ∈ c :: x :: l := by
    intro h
    simp only [List.mem_cons, List.mem_append, List.not_mem_nil, or_false]
    tauto
  have ring : ∀ h, h ∈ c :: x :: l → after h (x :: (l ++ [c])) = after h (c :: x :: l) :=
    fun h mem => after_rotate nodup mem
  cases p with
  | setQueue item home => cases ok.2.1
  | setIterator item home =>
      obtain ⟨h, rfl, mem, own, -⟩ := ok
      exact ⟨h, rfl, (same h).mpr mem, own, by simp⟩
  | testNext item iterator home =>
      obtain ⟨h, y, rfl, mem, own, rfl, found⟩ := ok
      exact ⟨h, y, rfl, (same h).mpr mem, own, rfl, by rwa [ring h mem]⟩
  | advance item iterator home =>
      obtain ⟨h, y, rfl, mem, own, rfl, found, more⟩ := ok
      exact ⟨h, y, rfl, (same h).mpr mem, own, rfl, by rwa [ring h mem], by rwa [ring h mem]⟩
  | link item iterator home =>
      obtain ⟨h, y, rfl, mem, own, rfl, last⟩ := ok
      exact ⟨h, y, rfl, (same h).mpr mem, own, rfl, by rwa [ring h mem]⟩
  | _ => exact ok

omit [DecidableEq T] in
/-- A link made by the running thread leaves the calls of the others where they
stand. -/
theorem walkOk_append {thread : Nat → T} {c n : Nat} {l : List Nat} {t : T} {p : Pc T}
    (nodup : (c :: l).Nodup) (other : t ≠ thread c) (ok : WalkOk thread c l t p) :
    WalkOk thread c (l ++ [n]) t p := by
  have keep : ∀ h, h ∈ c :: l → h ∈ c :: (l ++ [n]) := by
    intro h mem
    rw [← List.cons_append]
    exact List.mem_append_left _ mem
  -- the new node stands before `c`, so it is not the last one behind `h`
  have ring : ∀ h, h ∈ c :: l → thread h = t →
      (after h (c :: (l ++ [n]))).getLast? = (after h (c :: l)).getLast? ∧
        ∀ y ∈ after h (c :: l), y ∈ after h (c :: (l ++ [n])) := by
    intro h mem own
    have behind : h ∈ l := by
      rcases List.mem_cons.mp mem with rfl | mem
      · exact absurd own.symm other
      · exact mem
    obtain ⟨a, b, before, now⟩ := after_append n nodup behind
    rw [List.cons_append] at now
    rw [before, now]
    refine ⟨by simp [List.getLast?_append, List.getLast?_cons_cons], fun y mem => ?_⟩
    rcases List.mem_append.mp mem with mem | mem
    · exact List.mem_append_left _ mem
    · exact List.mem_append_right _ (List.mem_cons_of_mem _ mem)
  cases p with
  | setQueue item home => exact absurd ok.2.2.symm other
  | setIterator item home =>
      obtain ⟨h, rfl, mem, own, -⟩ := ok
      exact ⟨h, rfl, keep h mem, own, by simp⟩
  | testNext item iterator home =>
      obtain ⟨h, y, rfl, mem, own, rfl, found⟩ := ok
      exact ⟨h, y, rfl, keep h mem, own, rfl, (ring h mem own).2 y found⟩
  | advance item iterator home =>
      obtain ⟨h, y, rfl, mem, own, rfl, found, more⟩ := ok
      exact ⟨h, y, rfl, keep h mem, own, rfl, (ring h mem own).2 y found,
        by rwa [(ring h mem own).1]⟩
  | link item iterator home =>
      obtain ⟨h, y, rfl, mem, own, rfl, last⟩ := ok
      exact ⟨h, y, rfl, keep h mem, own, rfl, by rwa [(ring h mem own).1]⟩
  | _ => exact ok

omit [DecidableEq T] in
/-- A new owner of a node outside the ring changes nothing. -/
theorem walkOk_congr {thread thread' : Nat → T} {c : Nat} {l : List Nat} {t : T} {p : Pc T}
    (same : ∀ n ∈ c :: l, thread' n = thread n) (ok : WalkOk thread c l t p) :
    WalkOk thread' c l t p := by
  cases p with
  | setQueue item home =>
      exact ⟨ok.1, ok.2.1, (same c List.mem_cons_self).trans ok.2.2⟩
  | setIterator item home =>
      obtain ⟨h, rfl, mem, own, rest⟩ := ok
      exact ⟨h, rfl, mem, (same h mem).trans own, rest⟩
  | testNext item iterator home =>
      obtain ⟨h, y, rfl, mem, own, rest⟩ := ok
      exact ⟨h, y, rfl, mem, (same h mem).trans own, rest⟩
  | advance item iterator home =>
      obtain ⟨h, y, rfl, mem, own, rest⟩ := ok
      exact ⟨h, y, rfl, mem, (same h mem).trans own, rest⟩
  | link item iterator home =>
      obtain ⟨h, y, rfl, mem, own, rest⟩ := ok
      exact ⟨h, y, rfl, mem, (same h mem).trans own, rest⟩
  | _ => exact ok

/-! ## The invariant -/

/-- The scheduler after `init_scheduler`, with current node `c` and queue `l`. -/
structure Rotating (s : Threads T) (c : Nat) (l : List Nat) : Prop where
  current : s.currentThread = some c
  queue : Linked s.next s.readyQueue l
  nodup : (c :: l).Nodup
  perm : (c :: l).Perm s.linked
  owned : ∀ n ∈ s.linked, n ∈ s.allocated
  running : s.thread c = s.running
  home : ∀ h, (s.pc s.running).home = some h → h = c
  item : ∀ t i, (s.pc t).item = some i → i ∈ s.allocated ∧ i ∉ s.linked
  distinct : ∀ t u i, (s.pc t).item = some i → (s.pc u).item = some i → t = u
  cleared : ∀ t i, (s.pc t).cleared = some i → s.next i = none
  walks : ∀ t, WalkOk s.thread c l t (s.pc t)

namespace Rotating

variable {s : Threads T} {c : Nat} {l : List Nat}

omit [DecidableEq T] in
theorem notMem_of_notLinked (ok : Rotating s c l) {n : Nat} (out : n ∉ s.linked) : n ∉ c :: l :=
  fun mem => out (ok.perm.subset mem)

/-- The running thread goes on to `p` and nothing else changes. -/
theorem goto (ok : Rotating s c l) {p : Pc T}
    (item : ∀ i, p.item = some i → i ∈ s.allocated ∧ i ∉ s.linked ∧
      ∀ t, t ≠ s.running → (s.pc t).item ≠ some i)
    (cleared : ∀ i, p.cleared = some i → s.next i = none)
    (home : ∀ h, p.home = some h → h = c) (walk : WalkOk s.thread c l s.running p) :
    Rotating (s.goto p) c l where
  current := ok.current
  queue := ok.queue
  nodup := ok.nodup
  perm := ok.perm
  owned := ok.owned
  running := ok.running
  home h := by
    intro at_home
    exact home h (by simpa [Threads.goto] using at_home)
  item t i := by
    by_cases same : t = s.running
    · subst same
      intro held
      obtain ⟨in_heap, out, -⟩ := item i (by simpa [Threads.goto] using held)
      exact ⟨in_heap, out⟩
    · simpa [Threads.goto, same] using ok.item t i
  distinct t u i := by
    by_cases ht : t = s.running <;> by_cases hu : u = s.running
    · exact fun _ _ => ht.trans hu.symm
    · subst ht
      intro held held'
      exact absurd (by simpa [Threads.goto, hu] using held')
        ((item i (by simpa [Threads.goto] using held)).2.2 u hu)
    · subst hu
      intro held held'
      exact absurd (by simpa [Threads.goto, ht] using held)
        ((item i (by simpa [Threads.goto] using held')).2.2 t ht)
    · simpa [Threads.goto, ht, hu] using ok.distinct t u i
  cleared t i := by
    by_cases same : t = s.running
    · subst same
      intro held
      exact cleared i (by simpa [Threads.goto] using held)
    · simpa [Threads.goto, same] using ok.cleared t i
  walks t := by
    by_cases same : t = s.running
    · subst same
      simpa [Threads.goto] using walk
    · simpa [Threads.goto, same] using ok.walks t

/-- The same for a statement that keeps the item of the call. -/
theorem goto_item (ok : Rotating s c l) {p : Pc T} {i : Nat}
    (held : (s.pc s.running).item = some i) (item : p.item = some i)
    (cleared : ∀ i, p.cleared = some i → s.next i = none)
    (home : ∀ h, p.home = some h → h = c) (walk : WalkOk s.thread c l s.running p) :
    Rotating (s.goto p) c l := by
  refine ok.goto (fun j hj => ?_) cleared home walk
  obtain rfl : i = j := Option.some.inj (item.symm.trans hj)
  exact ⟨(ok.item _ i held).1, (ok.item _ i held).2,
    fun t other held' => other (ok.distinct t s.running i held' held)⟩

/-- The end of a call, or the start of one. -/
theorem goto_free (ok : Rotating s c l) {p : Pc T} (item : p.item = none)
    (home : p.home = none) (walk : WalkOk s.thread c l s.running p) :
    Rotating (s.goto p) c l := by
  refine ok.goto (fun i hi => ?_) (fun i hi => ?_) (fun h hh => ?_) walk
  · rw [item] at hi
    cases hi
  · rw [Pc.item_of_cleared hi] at item
    cases item
  · rw [home] at hh
    cases hh

omit [DecidableEq T] in
theorem allocate (ok : Rotating s c l) (n : Nat) :
    Rotating { s with allocated := n :: s.allocated } c l where
  __ := ok
  owned n mem := List.mem_cons_of_mem _ (ok.owned n mem)
  item t i held := ⟨List.mem_cons_of_mem _ (ok.item t i held).1, (ok.item t i held).2⟩

omit [DecidableEq T] in
theorem setThread (ok : Rotating s c l) {n : Nat} (t : T) (out : n ∉ s.linked) :
    Rotating { s with thread := Function.update s.thread n t } c l where
  __ := ok
  running := by
    have other : c ≠ n := fun same => ok.notMem_of_notLinked out (same ▸ List.mem_cons_self)
    simpa [other] using ok.running
  walks t := walkOk_congr (fun m mem => by
    have other : m ≠ n := fun same => ok.notMem_of_notLinked out (same ▸ mem)
    simp [other]) (ok.walks t)

omit [DecidableEq T] in
theorem clearNext (ok : Rotating s c l) {n : Nat} (out : n ∉ s.linked) :
    Rotating { s with next := Function.update s.next n none } c l where
  __ := ok
  queue := ok.queue.update_of_notMem
    (fun mem => ok.notMem_of_notLinked out (List.mem_cons_of_mem _ mem)) none
  cleared t i held := by
    by_cases same : i = n
    · simp [same]
    · simpa [same] using ok.cleared t i held

/-- The linking statement of the running thread, whichever of the two it is. -/
theorem link (ok : Rotating s c l) {i : Nat} {next : Nat → Option Nat} {queue : Option Nat}
    (held : (s.pc s.running).item = some i) (linked : Linked next queue (l ++ [i]))
    (frame : ∀ n, n ∉ l → next n = s.next n) :
    Rotating (Threads.goto
      { s with next := next, readyQueue := queue, linked := s.linked ++ [i] } .idle)
      c (l ++ [i]) := by
  obtain ⟨in_heap, out⟩ := ok.item _ i held
  have other : ∀ t j, t ≠ s.running → (s.pc t).item = some j → j ≠ i := by
    rintro t j ht hj rfl
    exact ht (ok.distinct t s.running j hj held)
  have idle : ∀ t, (Function.update s.pc s.running .idle) t =
      if t = s.running then .idle else s.pc t := fun t => Function.update_apply ..
  refine
    { current := ok.current, queue := linked, running := ok.running
      nodup := ?_, perm := ?_, owned := ?_, home := ?_, item := ?_, distinct := ?_
      cleared := ?_, walks := ?_ }
  · rw [← List.cons_append]
    exact List.nodup_append.mpr ⟨ok.nodup, by simp, by
      rintro a mem b hb rfl
      exact ok.notMem_of_notLinked out (List.mem_singleton.mp hb ▸ mem)⟩
  · exact ok.perm.append_right [i]
  · intro n mem
    rcases List.mem_append.mp mem with mem | mem
    · exact ok.owned n mem
    · rwa [List.mem_singleton.mp mem]
  · intro h
    simp [Threads.goto, Pc.home]
  · intro t j hj
    replace hj : (Function.update s.pc s.running .idle t).item = some j := hj
    rw [idle] at hj
    split at hj
    · cases hj
    · rename_i ht
      refine ⟨(ok.item t j hj).1, fun mem => ?_⟩
      rcases List.mem_append.mp mem with mem | mem
      · exact (ok.item t j hj).2 mem
      · exact other t j ht hj (List.mem_singleton.mp mem)
  · intro t u j hj hj'
    replace hj : (Function.update s.pc s.running .idle t).item = some j := hj
    replace hj' : (Function.update s.pc s.running .idle u).item = some j := hj'
    rw [idle] at hj hj'
    split at hj
    · cases hj
    · split at hj'
      · cases hj'
      · exact ok.distinct t u j hj hj'
  · intro t j hj
    replace hj : (Function.update s.pc s.running .idle t).cleared = some j := hj
    rw [idle] at hj
    split at hj
    · cases hj
    · have outside := ok.notMem_of_notLinked (ok.item t j (Pc.item_of_cleared hj)).2
      exact (frame j fun mem => outside (List.mem_cons_of_mem _ mem)).trans (ok.cleared t j hj)
  · intro t
    change WalkOk s.thread c (l ++ [i]) t (Function.update s.pc s.running .idle t)
    rw [idle]
    split
    · trivial
    · rename_i ht
      exact walkOk_append ok.nodup (by rwa [ok.running]) (ok.walks t)

omit [DecidableEq T] in
/-- A tick on a queue that is not empty. -/
theorem tick {x : Nat} (ok : Rotating s c (x :: l)) {q : SchedMem T}
    (turned : s.toSchedMem.Rotated q c x l)
    (at_home : ∀ h, (s.pc (s.thread x)).home = some h → h = x) :
    Rotating { s with toSchedMem := q, running := q.thread x } x (l ++ [c]) where
  current := turned.current
  queue := turned.queue
  nodup := (List.perm_append_singleton c (x :: l)).nodup_iff.mpr ok.nodup
  perm := (List.perm_append_singleton c (x :: l)).trans ok.perm
  owned := ok.owned
  running := rfl
  home h := by
    dsimp only
    rw [turned.thread]
    exact at_home h
  item := ok.item
  distinct := ok.distinct
  cleared t i held := by
    have outside := ok.notMem_of_notLinked (ok.item t i (Pc.item_of_cleared held)).2
    exact (turned.frame i outside).trans (ok.cleared t i held)
  walks t := by
    dsimp only
    rw [turned.thread]
    exact walkOk_rotate ok.nodup (ok.walks t)

/-- `if (!ready_queue)`: the queue is empty exactly when the ring is the running thread alone. -/
theorem exec_testQueue (ok : Rotating s c l) {s' : Threads T} {node i : Nat}
    (at_pc : s.pc s.running = .testQueue i) (ran : s.exec node = .ok s') :
    ∃ l', Rotating s' c l' := by
  have held : (s.pc s.running).item = some i := by rw [at_pc]; rfl
  have cleared : ∀ j, some i = some j → s.next j = none := by
    rintro j ⟨⟩
    exact ok.cleared s.running i (by rw [at_pc]; rfl)
  have here : ∀ h, s.currentThread = some h → h = c := by
    intro h e
    rw [ok.current] at e
    exact (Option.some.inj e).symm
  simp only [Threads.exec, at_pc] at ran
  split at ran
  · rename_i empty
    obtain rfl := Except.ok.inj ran
    have nil : l = [] := (empty ▸ ok.queue).unique rfl
    exact ⟨l, ok.goto_item held rfl cleared here ⟨ok.current, nil, ok.running⟩⟩
  · rename_i nonempty
    obtain rfl := Except.ok.inj ran
    refine ⟨l, ok.goto_item held rfl cleared here
      ⟨c, ok.current, List.mem_cons_self, ok.running, ?_⟩⟩
    rintro rfl
    exact nonempty ok.queue

/-- `iterator = ready_queue`: the walk starts behind the node of the thread. -/
theorem exec_setIterator (ok : Rotating s c l) {s' : Threads T} {node i : Nat} {h : Option Nat}
    (at_pc : s.pc s.running = .setIterator i h) (ran : s.exec node = .ok s') :
    ∃ l', Rotating s' c l' := by
  have walk := ok.walks s.running
  have home := ok.home
  have held : (s.pc s.running).item = some i := by rw [at_pc]; rfl
  rw [at_pc] at walk home
  obtain ⟨h, rfl, -, own, nonempty⟩ := walk
  obtain rfl := home h rfl
  simp only [Threads.exec, at_pc] at ran
  obtain rfl := Except.ok.inj ran
  obtain ⟨x, l, rfl⟩ := List.exists_cons_of_ne_nil nonempty
  have cleared : ∀ j, some i = some j → s.next j = none :=
    fun j hj => ok.cleared s.running j (by rw [at_pc]; exact hj)
  refine ⟨x :: l, ok.goto_item held rfl cleared home
    ⟨h, x, rfl, List.mem_cons_self, own, ok.queue.1, ?_⟩⟩
  rw [after_self]
  exact List.mem_cons_self

/-- `while (iterator->next)`: the loop ends at the last node of the ring. -/
theorem exec_testNext (ok : Rotating s c l) {s' : Threads T} {node i : Nat} {iterator h : Option Nat}
    (at_pc : s.pc s.running = .testNext i iterator h) (ran : s.exec node = .ok s') :
    ∃ l', Rotating s' c l' := by
  have walk := ok.walks s.running
  have home := ok.home
  have held : (s.pc s.running).item = some i := by rw [at_pc]; rfl
  have cleared : ∀ j, some i = some j → s.next j = none :=
    fun j hj => ok.cleared s.running j (by rw [at_pc]; exact hj)
  rw [at_pc] at walk home
  obtain ⟨h, x, rfl, mem, own, rfl, found⟩ := walk
  obtain rfl := home h rfl
  rw [after_self] at found
  obtain ⟨a, b, rfl⟩ := List.append_of_mem found
  have next := Linked.next_eq a _ ok.queue
  simp only [Threads.exec, at_pc] at ran
  split at ran
  · rename_i last
    obtain rfl := Except.ok.inj ran
    rw [next, List.head?_eq_none_iff] at last
    subst last
    exact ⟨_, ok.goto_item held rfl cleared home ⟨h, x, rfl, mem, own, rfl, by simp⟩⟩
  · rename_i more
    obtain rfl := Except.ok.inj ran
    refine ⟨_, ok.goto_item held rfl cleared home ⟨h, x, rfl, mem, own, rfl, by simp, ?_⟩⟩
    rw [next, List.head?_eq_none_iff] at more
    obtain ⟨b, y, rfl⟩ := (List.eq_nil_or_concat b).resolve_left more
    have shape : a ++ x :: b.concat y = a ++ x :: b ++ [y] := by simp
    rw [after_self, shape, List.getLast?_concat]
    rintro ⟨⟩
    have nodup := shape ▸ (List.nodup_cons.mp ok.nodup).2
    exact (List.nodup_append.mp nodup).2.2 x (by simp) x (by simp) rfl

/-- `iterator = iterator->next`: the walk stays behind the node of the thread. -/
theorem exec_advance (ok : Rotating s c l) {s' : Threads T} {node i : Nat} {iterator h : Option Nat}
    (at_pc : s.pc s.running = .advance i iterator h) (ran : s.exec node = .ok s') :
    ∃ l', Rotating s' c l' := by
  have walk := ok.walks s.running
  have home := ok.home
  have held : (s.pc s.running).item = some i := by rw [at_pc]; rfl
  have cleared : ∀ j, some i = some j → s.next j = none :=
    fun j hj => ok.cleared s.running j (by rw [at_pc]; exact hj)
  rw [at_pc] at walk home
  obtain ⟨h, x, rfl, mem, own, rfl, found, more⟩ := walk
  obtain rfl := home h rfl
  rw [after_self] at found more
  obtain ⟨a, b, rfl⟩ := List.append_of_mem found
  have next := Linked.next_eq a _ ok.queue
  simp only [Threads.exec, at_pc] at ran
  obtain rfl := Except.ok.inj ran
  cases b with
  | nil => simp at more
  | cons y b =>
      exact ⟨_, ok.goto_item held rfl cleared home ⟨h, y, rfl, mem, own, next, by simp⟩⟩

/-- `iterator->next = item`: the item goes behind the last node of the ring. -/
theorem exec_link (ok : Rotating s c l) {s' : Threads T} {node i : Nat} {iterator h : Option Nat}
    (at_pc : s.pc s.running = .link i iterator h) (ran : s.exec node = .ok s') :
    ∃ l', Rotating s' c l' := by
  have walk := ok.walks s.running
  have home := ok.home
  have held : (s.pc s.running).item = some i := by rw [at_pc]; rfl
  have ends := ok.cleared s.running i (by rw [at_pc]; rfl)
  rw [at_pc] at walk home
  obtain ⟨h, x, rfl, mem, own, rfl, last⟩ := walk
  obtain rfl := home h rfl
  rw [after_self] at last
  obtain ⟨a, rfl⟩ := List.getLast?_eq_some_iff.mp last
  simp only [Threads.exec, at_pc] at ran
  obtain rfl := Except.ok.inj ran
  have out := ok.notMem_of_notLinked (ok.item _ i held).2
  refine ⟨_, ok.link held (ok.queue.append (List.nodup_cons.mp ok.nodup).2
    (fun mem => out (List.mem_cons_of_mem _ mem)) ends) fun n hn => ?_⟩
  exact Function.update_of_ne (fun same => hn (by simp [same])) ..

/-- The running thread executes a statement: `current_thread` stays, and the
queue grows by the item when it is a linking statement. -/
theorem stmt (ok : Rotating s c l) {s' : Threads T} {node : Nat} (fresh : node ∉ s.allocated)
    (ran : s.exec node = .ok s') : ∃ l', Rotating s' c l' := by
  have walk := ok.walks s.running
  cases at_pc : s.pc s.running with
  | idle =>
      simp only [Threads.exec, at_pc] at ran
      obtain rfl := Except.ok.inj ran
      exact ⟨l, ok⟩
  | initAlloc _ | initThread _ | initNext | initQueue =>
      rw [at_pc] at walk
      exact walk.elim
  | alloc t =>
      simp only [Threads.exec, at_pc] at ran
      obtain rfl := Except.ok.inj ran
      refine ⟨l, (ok.allocate node).goto ?_ (fun i h => by cases h) (fun h e => by cases e) trivial⟩
      rintro i ⟨⟩
      refine ⟨List.mem_cons_self, fun mem => fresh (ok.owned _ mem), fun t _ held => ?_⟩
      exact fresh (ok.item t _ held).1
  | setThread t i =>
      simp only [Threads.exec, at_pc] at ran
      obtain rfl := Except.ok.inj ran
      have held : (s.pc s.running).item = some i := by rw [at_pc]; rfl
      exact ⟨l, (ok.setThread t (ok.item _ i held).2).goto_item held rfl (fun i h => by cases h)
        (fun h e => by cases e) trivial⟩
  | setNext i =>
      simp only [Threads.exec, at_pc] at ran
      obtain rfl := Except.ok.inj ran
      have held : (s.pc s.running).item = some i := by rw [at_pc]; rfl
      refine ⟨l, (ok.clearNext (ok.item _ i held).2).goto_item held rfl ?_
        (fun h e => by cases e) trivial⟩
      rintro j ⟨⟩
      simp
  | testQueue i => exact ok.exec_testQueue at_pc ran
  | setQueue i h =>
      have held : (s.pc s.running).item = some i := by rw [at_pc]; rfl
      have ends := ok.cleared s.running i (by rw [at_pc]; rfl)
      rw [at_pc] at walk
      obtain ⟨-, rfl, -⟩ := walk
      simp only [Threads.exec, at_pc] at ran
      obtain rfl := Except.ok.inj ran
      exact ⟨[i], ok.link held ⟨rfl, ends⟩ fun n _ => rfl⟩
  | setIterator i h => exact ok.exec_setIterator at_pc ran
  | testNext i iterator h => exact ok.exec_testNext at_pc ran
  | advance i iterator h => exact ok.exec_advance at_pc ran
  | link i iterator h => exact ok.exec_link at_pc ran

end Rotating

/-- `init_scheduler` in progress: the other threads wait, and `ready_queue` is
null, so ticks do nothing. -/
structure Booting (s : Threads T) : Prop where
  empty : s.readyQueue = none
  others : ∀ t, t ≠ s.running → s.pc t = .idle
  phase : match s.pc s.running with
    | .initAlloc initial => initial = s.running ∧ s.currentThread = none ∧ s.linked = []
    | .initThread initial => initial = s.running ∧
        ∃ n, s.currentThread = some n ∧ s.linked = [n] ∧ n ∈ s.allocated
    | .initNext | .initQueue =>
        ∃ n, s.currentThread = some n ∧ s.linked = [n] ∧ n ∈ s.allocated ∧ s.thread n = s.running
    | _ => False

/-- What every reached state is. -/
def SchedulerOk (s : Threads T) : Prop := Booting s ∨ ∃ c l, Rotating s c l

theorem booting_boot (initial garbage : T) : Booting (boot initial garbage) where
  empty := rfl
  others t other := by
    change Function.update (fun _ => Pc.idle) initial (.initAlloc initial) t = .idle
    exact Function.update_of_ne other ..
  phase := by simp [boot]

theorem Booting.stmt {s s' : Threads T} {node : Nat} (ok : Booting s)
    (ran : s.exec node = .ok s') : SchedulerOk s' := by
  have phase := ok.phase
  have others : ∀ p t, t ≠ s.running → Function.update s.pc s.running p t = .idle :=
    fun p t other => (Function.update_of_ne other ..).trans (ok.others t other)
  cases at_pc : s.pc s.running with
  | initAlloc initial =>
      simp only [at_pc] at phase
      obtain ⟨own, -, none⟩ := phase
      simp only [Threads.exec, at_pc] at ran
      obtain rfl := Except.ok.inj ran
      exact .inl ⟨ok.empty, others _, by simp [goto, own, none]⟩
  | initThread initial =>
      simp only [at_pc] at phase
      obtain ⟨own, n, current, linked, in_heap⟩ := phase
      simp only [Threads.exec, at_pc, current] at ran
      obtain rfl := Except.ok.inj ran
      exact .inl ⟨ok.empty, others _, by simp [goto, own, linked, in_heap]⟩
  | initNext =>
      simp only [at_pc] at phase
      obtain ⟨n, current, linked, in_heap, own⟩ := phase
      simp only [Threads.exec, at_pc, current] at ran
      obtain rfl := Except.ok.inj ran
      exact .inl ⟨ok.empty, others _, by simp [goto, own, linked, in_heap]⟩
  | initQueue =>
      simp only [at_pc] at phase
      obtain ⟨n, current, linked, in_heap, own⟩ := phase
      simp only [Threads.exec, at_pc] at ran
      obtain rfl := Except.ok.inj ran
      have idle : ∀ t, Function.update s.pc s.running .idle t = .idle := by
        intro t
        by_cases same : t = s.running
        · simp [same]
        · exact others _ t same
      refine .inr ⟨n, [], ?_⟩
      refine
        { current := current, queue := rfl, nodup := by simp, running := own
          perm := .of_eq (by simp [goto, linked]), owned := by simp [goto, linked, in_heap]
          home := ?_, item := ?_, distinct := ?_, cleared := ?_, walks := ?_ }
      all_goals
        intros
        simp_all [goto, Pc.home, Pc.item, Pc.cleared, WalkOk]
  | _ =>
      rw [at_pc] at phase
      exact phase.elim

/-- Every step that sends no thread on through a second node keeps the scheduler
in order. -/
theorem SchedulerOk.step {s s' : Threads T} {e : ThreadEvent T} (ok : SchedulerOk s)
    (at_home : ResumesAtHome s e) (step : Step s e s') : SchedulerOk s' := by
  cases step with
  | @tick fuel q ran =>
      cases waiting : s.readyQueue with
      | none =>
          rw [SchedMem.schedule_empty fuel waiting] at ran
          obtain rfl := Except.ok.inj ran
          rw [resumed, waiting]
          exact ok
      | some x =>
          rcases ok with boot | ⟨c, l, ring⟩
          · rw [boot.empty] at waiting
            cases waiting
          · cases l with
            | nil =>
                have empty : s.readyQueue = none := ring.queue
                rw [empty] at waiting
                cases waiting
            | cons y l =>
                obtain rfl : y = x := Option.some.inj (ring.queue.1.symm.trans waiting)
                have turned := SchedMem.schedule_ok ring.queue ring.current ring.nodup ran
                rw [resumed, waiting]
                exact .inr ⟨y, _, ring.tick turned fun h => at_home y h waiting⟩
  | call idle =>
      rcases ok with boot | ⟨c, l, ring⟩
      · have phase := boot.phase
        rw [idle] at phase
        exact phase.elim
      · exact .inr ⟨c, l, ring.goto_free rfl rfl trivial⟩
  | stmt fresh ran =>
      rcases ok with boot | ⟨c, l, ring⟩
      · exact boot.stmt ran
      · obtain ⟨l', ring'⟩ := ring.stmt fresh ran
        exact .inr ⟨c, l', ring'⟩

omit [DecidableEq T] in
theorem SchedulerOk.intact {s : Threads T} (ok : SchedulerOk s) : Intact s := by
  rcases ok with boot | ⟨c, l, ring⟩
  · refine ⟨⟨[], boot.empty, ?_⟩, ⟨0, _, SchedMem.schedule_empty 0 boot.empty⟩, fun fuel => ?_⟩
    · have phase := boot.phase
      split at phase
      · simp [phase.2.1, phase.2.2]
      · obtain ⟨-, n, current, linked, -⟩ := phase
        simp [current, linked]
      · obtain ⟨n, current, linked, -⟩ := phase
        simp [current, linked]
      · obtain ⟨n, current, linked, -⟩ := phase
        simp [current, linked]
      · exact phase.elim
    · simp [SchedMem.schedule_empty fuel boot.empty]
  · obtain ⟨q, ran⟩ := SchedMem.schedule_returns ring.queue ring.current (Nat.le_refl _)
    refine ⟨⟨l, ring.queue, ?_⟩, ⟨_, q, ran⟩, fun fuel => ?_⟩
    · simp only [ring.current, Option.toList_some, List.singleton_append]
      exact ⟨ring.nodup, ring.perm⟩
    · rw [SchedMem.schedule, ring.current]
      split
      · simp
      · split <;> simp

/-- **No thread is lost to preemption**, as long as no tick sends a thread on
through a second node while it is in the middle of a `thread_is_ready` call. -/
theorem intact_of_resumesAtHome {initial garbage : T} {s : Threads T}
    (run : Reaches Step ResumesAtHome (boot initial garbage) s) : Intact s := by
  have ok : SchedulerOk s :=
    run.invariant (.inl (booting_boot initial garbage)) fun _ _ _ ok at_home step =>
      ok.step at_home step
  exact ok.intact

/-- Thread 0 starts the scheduler, readies thread 1 and is preempted before the
link of its second call; thread 1 readies thread 2, and thread 0 goes on. -/
def preemptedCall : List (ThreadEvent Nat) :=
  [.stmt 10, .stmt 20, .stmt 20, .stmt 20,
    .call 1, .stmt 11, .stmt 20, .stmt 20, .stmt 20, .stmt 20,
    .call 3, .stmt 13, .stmt 20, .stmt 20, .stmt 20, .stmt 20, .stmt 20,
    .tick, .call 2, .stmt 12, .stmt 20, .stmt 20, .stmt 20, .stmt 20, .stmt 20, .stmt 20,
    .tick, .stmt 20]

theorem intact_after_preemptedCall :
    ∃ s : Threads Nat, s.linked = [10, 11, 12, 13] ∧ s.readyQueue = some 12 ∧ Intact s := by
  have runs : (preemptedCall.foldlM fireAtHome (boot 0 0)).map
      (fun s => (s.linked, s.readyQueue)) = some ([10, 11, 12, 13], some 12) := by decide +kernel
  obtain ⟨s, ran, facts⟩ := Option.map_eq_some_iff.mp runs
  obtain ⟨linked, queue⟩ := Prod.mk.inj facts
  exact ⟨s, linked, queue, intact_of_resumesAtHome (.of_foldlM step_of_fireAtHome _ ran)⟩

/-- Thread 0 readies itself, and is preempted before the link of its next call:
it goes on as node 11, which was the tail of the queue and now is current. -/
def resumedElsewhere : List (ThreadEvent Nat) :=
  [.stmt 10, .stmt 20, .stmt 20, .stmt 20,
    .call 0, .stmt 11, .stmt 20, .stmt 20, .stmt 20, .stmt 20,
    .call 1, .stmt 12, .stmt 20, .stmt 20, .stmt 20, .stmt 20, .stmt 20, .tick, .stmt 20]

/-- The queue is node 10 alone; node 12, whose linking statement was executed, is
in no list. -/
theorem second_node_loses_thread :
    ∃ s : Threads Nat, Reachable Step (boot 0 0) s ∧ s.linked = [10, 11, 12] ∧
      s.currentThread = some 11 ∧ Linked s.next s.readyQueue [10] ∧ ¬Intact s := by
  have runs : (resumedElsewhere.foldlM fire (boot 0 0)).map
      (fun s => (s.linked, s.currentThread, s.readyQueue, s.next 10)) =
      some ([10, 11, 12], some 11, some 10, none) := by decide +kernel
  obtain ⟨s, ran, facts⟩ := Option.map_eq_some_iff.mp runs
  simp only [Prod.mk.injEq] at facts
  obtain ⟨linked, current, head, last⟩ := facts
  have queue : Linked s.next s.readyQueue [10] := ⟨head, last⟩
  refine ⟨s, .of_foldlM step_of_fire _ ran, linked, current,
    queue, fun ok => ?_⟩
  obtain ⟨l, other, -, perm⟩ := ok.nodes
  obtain rfl := queue.unique other
  rw [current, linked] at perm
  exact absurd perm.length_eq (by decide)

end Threads

end MiniKernel.Kernel
