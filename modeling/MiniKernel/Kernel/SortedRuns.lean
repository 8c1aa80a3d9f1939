/-
# Kernel.SortedRuns -- every sequence of insertions and removals

A run starts with `place_sorted_array` and is any sequence of `insert_sorted_array` and
`remove_sorted_array` calls that return.  Next to the array it keeps what went in and what
`lookup_sorted_array` showed of each removed position.

With a comparison that orders the elements the array is a sorted list: an insertion is
an `orderedInsert`, a removal erases one position (`sorted_array_refines`).
-/
import MiniKernel.Kernel.SortedArray
import MiniKernel.Theory.Comparison
import MiniKernel.Theory.Transition
import Mathlib.Data.Multiset.AddSub

namespace MiniKernel.Kernel

open Theory

set_option autoImplicit false

/-! ## One operation -/

namespace SortedArray

variable {α κ : Type} {call : κ → α → α → Except Stop Int} {a : SortedArray α κ} {f : κ}

/-- `insert_sorted_array` puts `el` where its search ends. -/
theorem insertSortedArray_sought {c : α → Int} {el : α} (own : a.saCmp = some f)
    (room : a.saSize < a.saMaxsize) (total : ∀ x ∈ a.toList, call f x el = .ok (c x)) :
    ∃ a' k, insertSortedArray call a el = .ok a' ∧ Sought (fun x => c x < 0) a.toList k ∧
      a'.toList = a.toList.insertIdx k el ∧ a'.saSize = a.saSize + 1 ∧
      a'.saMaxsize = a.saMaxsize ∧ a'.saCmp = a.saCmp := by
  obtain ⟨a', k, ran, le, below, stop, list, size, maxsize, same⟩ :=
    insertSortedArray_spec own room total
  exact ⟨a', k, ran, .of_getElem le below stop, list, size, maxsize, same⟩

end SortedArray

/-- `x` is taken from position `i`, and the rest stays as it is. -/
def Taken {α : Type} (i : Nat) (x : α) (l l' : List α) : Prop :=
  ∃ front back, front.length = i ∧ l = front ++ x :: back ∧ l' = front ++ back

/-- `remove_sorted_array` takes what `lookup_sorted_array` returns. -/
theorem SortedArray.removeSortedArray_taken {α κ : Type} {a : SortedArray α κ} {i : Nat}
    (inside : i < a.saSize) :
    ∃ x a', lookupSortedArray a i = .ok x ∧ removeSortedArray a i = .ok a' ∧
      Taken i x a.toList a'.toList ∧ a'.toList = a.toList.eraseIdx i ∧
      a'.saSize = a.saSize - 1 ∧ a'.saMaxsize = a.saMaxsize ∧ a'.saCmp = a.saCmp := by
  obtain ⟨a', ran, list, size, maxsize, same⟩ := removeSortedArray_spec inside
  have inside' : i < a.toList.length := by simpa using inside
  refine ⟨a.saArray i, a', lookupSortedArray_ok inside, ran, ?_, list, size, maxsize, same⟩
  refine ⟨a.toList.take i, a.toList.drop (i + 1), by simpa using Nat.le_of_lt inside', ?_, ?_⟩
  · rw [← getElem_toList a inside', ← List.drop_eq_getElem_cons inside', List.take_append_drop]
  · rw [list, List.eraseIdx_eq_take_drop_succ]

/-! ## Runs -/

/-- The array, with the multiset of what was inserted and of what was removed. -/
structure ArrayRun (α κ : Type) where
  array : SortedArray α κ
  inserted : Multiset α
  removed : Multiset α

inductive ArrayOp (α : Type) where
  | insert (el : α)
  | remove (i : Nat)

section Runs

variable {α κ : Type}

/-- A new array. -/
def ArrayRun.start (cells : Nat → α) (maxsize : Nat) (f : κ) : ArrayRun α κ :=
  { array := SortedArray.place cells maxsize (some f), inserted := 0, removed := 0 }

/-- A call that returns; the removed element is the one `lookup_sorted_array` shows. -/
inductive ArrayStep (call : κ → α → α → Except Stop Int) :
    ArrayRun α κ → ArrayOp α → ArrayRun α κ → Prop where
  | insert {s : ArrayRun α κ} {el : α} {a : SortedArray α κ}
      (ran : SortedArray.insertSortedArray call s.array el = .ok a) :
      ArrayStep call s (.insert el) { s with array := a, inserted := el ::ₘ s.inserted }
  | remove {s : ArrayRun α κ} {i : Nat} {x : α} {a : SortedArray α κ}
      (shown : s.array.lookupSortedArray i = .ok x) (ran : s.array.removeSortedArray i = .ok a) :
      ArrayStep call s (.remove i) { s with array := a, removed := x ::ₘ s.removed }

/-- The calls of a run: insertions of elements of `S` into an array that is not full, and
removals of a position in use. -/
def Allowed (S : α → Prop) (s : ArrayRun α κ) : ArrayOp α → Prop
  | .insert el => S el ∧ s.array.saSize < s.array.saMaxsize
  | .remove i => i < s.array.saSize

/-- A step with an allowed call. -/
def AllowedStep (call : κ → α → α → Except Stop Int) (S : α → Prop) (s : ArrayRun α κ)
    (op : ArrayOp α) (s' : ArrayRun α κ) : Prop :=
  Allowed S s op ∧ ArrayStep call s op s'

/-- The operation on a list. -/
def ArrayOp.onList (cmp : α → α → Int) (l : List α) : ArrayOp α → List α
  | .insert el => l.orderedInsert (fun x y => ¬cmp y x < 0) el
  | .remove i => l.eraseIdx i

/-- What the operation does to the elements in use. -/
def ArrayOp.Effect (cmp : α → α → Int) (a a' : SortedArray α κ) : ArrayOp α → Prop
  | .insert el => Placed cmp el a.toList a'.toList
  | .remove i => ∃ x, a.lookupSortedArray i = .ok x ∧ Taken i x a.toList a'.toList

/-- What every state of a run has. -/
structure ArrayRun.InOrder (S : α → Prop) (cmp : α → α → Int) (f : κ) (s : ArrayRun α κ) :
    Prop where
  own : s.array.saCmp = some f
  stored : ∀ x ∈ s.array.toList, S x
  sorted : s.array.toList.Pairwise fun x y => cmp x y ≤ 0
  counts : (s.array.toList : Multiset α) + s.removed = s.inserted

variable {call : κ → α → α → Except Stop Int} {S : α → Prop} {cmp : α → α → Int} {f : κ}
  {s s' : ArrayRun α κ} {op : ArrayOp α} {el : α} {i : Nat} {cells : Nat → α} {maxsize : Nat}
  {ops : List (ArrayOp α)}

/-! ## Steps -/

namespace ArrayRun.InOrder

theorem start : (ArrayRun.start cells maxsize f).InOrder S cmp f := by
  refine ⟨rfl, ?_, ?_, ?_⟩
  · intro x mem
    cases mem
  · exact List.Pairwise.nil
  · rfl

/-- An insertion into an array that is not full returns, with the element in its place. -/
theorem insert (h : s.InOrder S cmp f) (orders : Orders S cmp)
    (calls : ∀ x y, S x → S y → call f x y = .ok (cmp x y)) (own : S el)
    (room : s.array.saSize < s.array.saMaxsize) :
    ∃ a', SortedArray.insertSortedArray call s.array el = .ok a' ∧
      Placed cmp el s.array.toList a'.toList ∧
      a'.toList = (ArrayOp.insert el).onList cmp s.array.toList ∧
      InOrder S cmp f { s with array := a', inserted := el ::ₘ s.inserted } := by
  obtain ⟨a', k, ran, sought, list, -, -, same⟩ :=
    SortedArray.insertSortedArray_sought (c := fun x => cmp x el) h.own room
      fun x mem => calls x el (h.stored x mem) own
  have placed : Placed cmp el s.array.toList a'.toList := by
    rw [list]
    exact orders.placed h.stored own h.sorted sought
  refine ⟨a', ran, placed, ?_, same.trans h.own, ?_, placed.sorted h.sorted, ?_⟩
  · rw [list]
    exact sought.insertIdx_eq fun y => Iff.rfl
  · intro x mem
    rw [list] at mem
    rcases List.eq_or_mem_of_mem_insertIdx mem with rfl | old
    · exact own
    · exact h.stored x old
  · show (a'.toList : Multiset α) + s.removed = el ::ₘ s.inserted
    have perm : (a'.toList : Multiset α) = el ::ₘ (s.array.toList : Multiset α) := by
      rw [list, Multiset.cons_coe, Multiset.coe_eq_coe]
      exact List.perm_insertIdx el s.array.toList sought.le
    rw [perm, Multiset.cons_add, h.counts]

/-- A removal of a position in use returns, without the element that was shown there. -/
theorem remove (h : s.InOrder S cmp f) (inside : i < s.array.saSize) :
    ∃ x a', s.array.lookupSortedArray i = .ok x ∧ s.array.removeSortedArray i = .ok a' ∧
      Taken i x s.array.toList a'.toList ∧
      a'.toList = (ArrayOp.remove i).onList cmp s.array.toList ∧
      InOrder S cmp f { s with array := a', removed := x ::ₘ s.removed } := by
  obtain ⟨x, a', shown, ran, taken, list, -, -, same⟩ :=
    SortedArray.removeSortedArray_taken inside
  have rest : a'.toList.Sublist s.array.toList := by
    rw [list]
    exact List.eraseIdx_sublist s.array.toList i
  refine ⟨x, a', shown, ran, taken, list, same.trans h.own, ?_, h.sorted.sublist rest, ?_⟩
  · intro y mem
    exact h.stored y (rest.subset mem)
  · show (a'.toList : Multiset α) + (x ::ₘ s.removed) = s.inserted
    have counts := h.counts
    obtain ⟨front, back, -, all, left⟩ := taken
    have perm : (s.array.toList : Multiset α) = x ::ₘ (a'.toList : Multiset α) := by
      rw [all, left, Multiset.cons_coe, Multiset.coe_eq_coe]
      exact List.perm_middle
    rw [perm, Multiset.cons_add] at counts
    rw [Multiset.add_cons, counts]

/-- Every allowed call returns, and does its effect. -/
theorem effect (h : s.InOrder S cmp f) (orders : Orders S cmp)
    (calls : ∀ x y, S x → S y → call f x y = .ok (cmp x y)) (allowed : Allowed S s op) :
    ∃ s', ArrayStep call s op s' ∧ op.Effect cmp s.array s'.array := by
  cases op with
  | insert el =>
      obtain ⟨own, room⟩ := allowed
      obtain ⟨a', ran, placed, -, -⟩ := h.insert orders calls own room
      exact ⟨_, .insert ran, placed⟩
  | remove i =>
      obtain ⟨x, a', shown, ran, taken, -, -⟩ := h.remove allowed
      exact ⟨_, .remove shown ran, x, shown, taken⟩

end ArrayRun.InOrder

/-- A state in order that holds the elements of `l`. -/
def ArrayRun.Lists (S : α → Prop) (cmp : α → α → Int) (f : κ) (s : ArrayRun α κ) (l : List α) :
    Prop :=
  s.InOrder S cmp f ∧ s.array.toList = l

/-- One step is one operation on the list. -/
theorem ArrayRun.Lists.step {l : List α} (h : s.Lists S cmp f l) (orders : Orders S cmp)
    (calls : ∀ x y, S x → S y → call f x y = .ok (cmp x y))
    (taken : AllowedStep call S s op s') : s'.Lists S cmp f (op.onList cmp l) := by
  obtain ⟨h, rfl⟩ := h
  obtain ⟨allowed, ran⟩ := taken
  cases ran with
  | insert ran =>
      obtain ⟨a', same, -, list, next⟩ := h.insert orders calls allowed.1 allowed.2
      obtain rfl := Except.ok.inj (same.symm.trans ran)
      exact ⟨next, list⟩
  | remove shown ran =>
      obtain ⟨x, a', same_shown, same, -, list, next⟩ := h.remove allowed
      obtain rfl := Except.ok.inj (same_shown.symm.trans shown)
      obtain rfl := Except.ok.inj (same.symm.trans ran)
      exact ⟨next, list⟩

/-- Every state of a run holds the list of the operations so far. -/
theorem ArrayRun.Lists.run (orders : Orders S cmp)
    (calls : ∀ x y, S x → S y → call f x y = .ok (cmp x y))
    (trace : Trace (AllowedStep call S) (ArrayRun.start cells maxsize f) ops s) :
    s.Lists S cmp f (ops.foldl (ArrayOp.onList cmp) []) :=
  trace.simulates ⟨.start, rfl⟩ fun _ _ _ _ h taken => h.step orders calls taken

/-! ## The refinement -/

/-- With a comparison that orders the elements, every run keeps the elements sorted and none
lost or doubled, and the next call does what the list operation does. -/
theorem sorted_array_refines (orders : Orders S cmp)
    (calls : ∀ x y, S x → S y → call f x y = .ok (cmp x y))
    (trace : Trace (AllowedStep call S) (ArrayRun.start cells maxsize f) ops s) :
    s.array.toList = ops.foldl (ArrayOp.onList cmp) [] ∧
      s.array.toList.Pairwise (fun x y => cmp x y ≤ 0) ∧
      (s.array.toList : Multiset α) + s.removed = s.inserted ∧
      ∀ op, Allowed S s op → ∃ s', ArrayStep call s op s' ∧ op.Effect cmp s.array s'.array := by
  obtain ⟨h, list⟩ := ArrayRun.Lists.run orders calls trace
  exact ⟨list, h.sorted, h.counts, fun op allowed => h.effect orders calls allowed⟩

end Runs

/-! ## An example -/

/-- Numbers compared by their tens. -/
def cmpTens (_ : Unit) (x y : Nat) : Except Stop Int := .ok ((x / 10 : Nat) - (y / 10 : Nat))

/-- The state after a call that returns. -/
def ArrayRun.next (s : ArrayRun Nat Unit) : ArrayOp Nat → Option (ArrayRun Nat Unit)
  | .insert el =>
      if s.array.saSize < s.array.saMaxsize then
        match SortedArray.insertSortedArray cmpTens s.array el with
        | .ok a => some { s with array := a, inserted := el ::ₘ s.inserted }
        | .error _ => none
      else none
  | .remove i =>
      match s.array.lookupSortedArray i, s.array.removeSortedArray i with
      | .ok x, .ok a =>
          if i < s.array.saSize then some { s with array := a, removed := x ::ₘ s.removed }
          else none
      | _, _ => none

theorem ArrayRun.next_sound (s : ArrayRun Nat Unit) (op : ArrayOp Nat) (s' : ArrayRun Nat Unit)
    (ran : s.next op = some s') : AllowedStep cmpTens (fun _ => True) s op s' := by
  cases op with
  | insert el =>
      rw [ArrayRun.next] at ran
      split at ran
      next room =>
        split at ran
        next a inserted =>
          obtain rfl := Option.some.inj ran
          exact ⟨⟨trivial, room⟩, .insert inserted⟩
        next => cases ran
      next => cases ran
  | remove i =>
      rw [ArrayRun.next] at ran
      split at ran
      next x a shown removed =>
        split at ran
        next inside =>
          obtain rfl := Option.some.inj ran
          exact ⟨inside, .remove shown removed⟩
        next => cases ran
      next => cases ran

/-- 24 goes in front of its equal 21, and the removal at position 1 takes it out again. -/
theorem sorted_array_by_tens : ∃ s : ArrayRun Nat Unit,
    Trace (AllowedStep cmpTens fun _ => True) (ArrayRun.start (fun _ => 0) 3 ())
      [.insert 21, .insert 13, .insert 24, .remove 1] s ∧ s.array.toList = [13, 21] := by
  have orders : Orders (fun _ : Nat => True) fun x y => (x / 10 : Nat) - (y / 10 : Nat) := by
    refine ⟨?_, ?_⟩
    · intro x y _ _
      omega
    · intro x y z _ _ _ le le'
      omega
  have trace := Trace.of_foldlM ArrayRun.next_sound
    [.insert 21, .insert 13, .insert 24, .remove 1] (s := ArrayRun.start (fun _ => 0) 3 ()) rfl
  have refines := sorted_array_refines orders (fun x y _ _ => rfl) trace
  exact ⟨_, trace, refines.1.trans (by decide)⟩

end MiniKernel.Kernel
