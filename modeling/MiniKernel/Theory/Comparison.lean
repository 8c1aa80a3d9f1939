/-
# Theory.Comparison -- three-way comparisons and insertion by search

A comparison function returns a number whose sign orders its arguments.  `Orders S cmp`
says that on the elements of `S` these signs are those of a total preorder.

`Sought p l k` is what a search from the front leaves: `p` holds of everything before
position `k` and not at `k`.  Inserting there is an `orderedInsert`
(`Sought.insertIdx_eq`), keeps a sorted list sorted, and puts the new element in front of
its equals (`Orders.placed`).
-/
import Mathlib.Data.List.Sort
import Mathlib.Data.List.InsertIdx

namespace MiniKernel.Theory

set_option autoImplicit false

variable {α : Type}

/-! ## Insertion at a position -/

theorem insertIdx_eq_append {l : List α} {k : Nat} {a : α} (le : k ≤ l.length) :
    l.insertIdx k a = l.take k ++ a :: l.drop k := by
  induction l generalizing k with
  | nil =>
      obtain rfl : k = 0 := by simpa using le
      rfl
  | cons b l ih =>
      cases k with
      | zero => rfl
      | succ k =>
          rw [List.insertIdx_succ_cons, ih (by simpa using le)]
          rfl

/-- A list in order stays so when the new element fits on both sides. -/
theorem pairwise_insertIdx_iff {r : α → α → Prop} {l : List α} {k : Nat} {a : α}
    (le : k ≤ l.length) (sorted : l.Pairwise r) :
    (l.insertIdx k a).Pairwise r ↔ (∀ x ∈ l.take k, r x a) ∧ ∀ x ∈ l.drop k, r a x := by
  have split : (l.take k ++ l.drop k).Pairwise r := by
    rw [List.take_append_drop]
    exact sorted
  obtain ⟨front, back, across⟩ := List.pairwise_append.mp split
  rw [insertIdx_eq_append le, List.pairwise_append, List.pairwise_cons]
  constructor
  · rintro ⟨-, ⟨behind, -⟩, before⟩
    exact ⟨fun x mem => before x mem a List.mem_cons_self, behind⟩
  · rintro ⟨before, behind⟩
    refine ⟨front, ⟨behind, back⟩, fun x hx y hy => ?_⟩
    rcases List.mem_cons.mp hy with rfl | hy
    · exact before x hx
    · exact across x hx y hy

/-- An element that is put into a list becomes the last one, or comes in front of it. -/
theorem insertIdx_last {l : List α} {k : Nat} {a e : α} (le : k ≤ l.length)
    (last : l.getLast? = some e) :
    l.insertIdx k a = l ++ [a] ∨ ∃ front, l.insertIdx k a = front ++ [e] ∧ a ∈ front := by
  obtain ⟨init, rfl⟩ := List.getLast?_eq_some_iff.mp last
  rw [insertIdx_eq_append le]
  rcases Nat.lt_or_ge init.length k with behind | inside
  · left
    rw [List.length_append, List.length_singleton] at le
    rw [List.take_of_length_le (by simp; omega), List.drop_eq_nil_of_le (by simp; omega)]
  · right
    refine ⟨init.take k ++ a :: init.drop k, ?_, by simp⟩
    rw [List.take_append_of_le_length inside, List.drop_append_of_le_length inside]
    simp

/-! ## Search from the front -/

/-- A search for the first element without `p` ends at `k`. -/
structure Sought (p : α → Prop) (l : List α) (k : Nat) : Prop where
  le : k ≤ l.length
  before : ∀ x ∈ l.take k, p x
  stop : ∀ x, l[k]? = some x → ¬p x

namespace Sought

variable {p : α → Prop} {l : List α} {k : Nat} {a x : α}

theorem of_getElem (le : k ≤ l.length) (below : ∀ i, (h : i < l.length) → i < k → p l[i])
    (stop : (h : k < l.length) → ¬p l[k]) : Sought p l k := by
  refine ⟨le, fun x mem => ?_, fun x at_k => ?_⟩
  · obtain ⟨i, hi, rfl⟩ := List.getElem_of_mem mem
    rw [List.length_take] at hi
    rw [List.getElem_take]
    exact below i (by omega) (by omega)
  · obtain ⟨inside, rfl⟩ := List.getElem?_eq_some_iff.mp at_k
    exact stop inside

theorem tail (h : Sought p (x :: l) (k + 1)) : Sought p l k where
  le := by simpa using h.le
  before y mem := h.before y (List.mem_cons_of_mem x mem)
  stop y at_k := h.stop y (by simpa using at_k)

/-- Insertion where the search ends is the insertion of an insertion sort. -/
theorem insertIdx_eq {r : α → α → Prop} [DecidableRel r] (h : Sought p l k)
    (same : ∀ y, r a y ↔ ¬p y) : l.insertIdx k a = l.orderedInsert r a := by
  induction l generalizing k with
  | nil =>
      obtain rfl : k = 0 := by simpa using h.le
      rfl
  | cons x l ih =>
      cases k with
      | zero =>
          have first : r a x := (same x).mpr (h.stop x rfl)
          rw [List.orderedInsert_cons, if_pos first]
          rfl
      | succ k =>
          have first : ¬r a x := fun rel => (same x).mp rel (h.before x List.mem_cons_self)
          rw [List.orderedInsert_cons, if_neg first, List.insertIdx_succ_cons, ih h.tail]

/-- Behind the position of the search comes what it stopped at. -/
theorem drop_eq (at_k : l[k]? = some x) : l.drop k = x :: l.drop (k + 1) := by
  obtain ⟨inside, rfl⟩ := List.getElem?_eq_some_iff.mp at_k
  exact List.drop_eq_getElem_cons inside

/-- In a sorted list, what holds where the search stopped and goes up holds behind it. -/
theorem behind {r : α → α → Prop} {q : α → Prop} (sorted : l.Pairwise r)
    (first : ∀ x, l[k]? = some x → q x) (up : ∀ x ∈ l, ∀ y ∈ l, r x y → q x → q y) :
    ∀ y ∈ l.drop k, q y := by
  intro y mem
  cases at_k : l[k]? with
  | none =>
      rw [List.drop_eq_nil_of_le (List.getElem?_eq_none_iff.mp at_k)] at mem
      cases mem
  | some x =>
      have member := List.mem_of_getElem? at_k
      have rest : (l.drop k).Pairwise r := sorted.sublist (List.drop_sublist k l)
      rw [drop_eq at_k] at mem rest
      rcases List.mem_cons.mp mem with rfl | later
      · exact first y at_k
      · exact up x member y (List.mem_of_mem_drop later) ((List.pairwise_cons.mp rest).1 y later)
          (first x at_k)

end Sought

/-! ## Search by a test of keys -/

section Keys

variable {β : Type} [LinearOrder β] {key : α → β} {q : β → Prop} {l : List α} {k : Nat} {a x : α}

/-- `q` holds of the keys below `b`, and not of the least key from `b` on. -/
structure Separates (key : α → β) (q : β → Prop) (l : List α) (b : β) : Prop where
  below : ∀ x ∈ l, key x < b → q (key x)
  least : ∀ x ∈ l, b ≤ key x → (∀ y ∈ l, b ≤ key y → key x ≤ key y) → ¬q (key x)

/-- In a sorted list an element may take another key, between those of its neighbours. -/
theorem rekey_sorted [DecidableEq α] {b : β} (sorted : l.Pairwise fun x y => key x ≤ key y)
    (nodup : l.Nodup) (below : ∀ y ∈ l, [y, x] <:+: l → key y ≤ b)
    (above : ∀ y ∈ l, [x, y] <:+: l → b ≤ key y) :
    l.Pairwise fun y z => (if y = x then b else key y) ≤ if z = x then b else key z := by
  by_cases mem : x ∈ l
  · obtain ⟨front, back, rfl⟩ := List.append_of_mem mem
    obtain ⟨front_sorted, rest_sorted, -⟩ := List.pairwise_append.mp sorted
    obtain ⟨-, back_sorted⟩ := List.pairwise_cons.mp rest_sorted
    obtain ⟨-, rest_nodup, apart⟩ := List.nodup_append.mp nodup
    have not_front : ∀ y ∈ front, y ≠ x := fun y hy => apart y hy x List.mem_cons_self
    have not_back : ∀ y ∈ back, y ≠ x := by
      rintro y hy rfl
      exact (List.nodup_cons.mp rest_nodup).1 hy
    have front_le : ∀ y ∈ front, key y ≤ b := by
      intro y hy
      rcases List.eq_nil_or_concat front with rfl | ⟨init, z, rfl⟩
      · cases hy
      · have next : key z ≤ b := below z (by simp) ⟨init, back, by simp⟩
        rw [List.concat_eq_append] at hy front_sorted
        rcases List.mem_append.mp hy with hy | hy
        · exact le_trans ((List.pairwise_append.mp front_sorted).2.2 y hy z (by simp)) next
        · rwa [List.mem_singleton.mp hy]
    have back_le : ∀ y ∈ back, b ≤ key y := by
      intro y hy
      cases back with
      | nil => cases hy
      | cons z rest =>
          have next : b ≤ key z := above z (by simp) ⟨front, rest, by simp⟩
          rcases List.mem_cons.mp hy with rfl | hy
          · exact next
          · exact le_trans next ((List.pairwise_cons.mp back_sorted).1 y hy)
    rw [List.pairwise_append, List.pairwise_cons]
    refine ⟨?_, ⟨fun y hy => ?_, ?_⟩, fun y hy z hz => ?_⟩
    · exact front_sorted.imp_of_mem fun {y z} hy hz le => by
        rwa [if_neg (not_front y hy), if_neg (not_front z hz)]
    · rw [if_pos rfl, if_neg (not_back y hy)]
      exact back_le y hy
    · exact back_sorted.imp_of_mem fun {y z} hy hz le => by
        rwa [if_neg (not_back y hy), if_neg (not_back z hz)]
    · rw [if_neg (not_front y hy)]
      rcases List.mem_cons.mp hz with rfl | hz
      · rw [if_pos rfl]
        exact front_le y hy
      · rw [if_neg (not_back z hz)]
        exact le_trans (front_le y hy) (back_le z hz)
  · refine sorted.imp_of_mem fun {y z} hy hz le => ?_
    rwa [if_neg (by rintro rfl; exact mem hy), if_neg (by rintro rfl; exact mem hz)]

/-- In a sorted list with a key from `b` on there is a least one. -/
theorem exists_least {b : β} (mem : x ∈ l) (le : b ≤ key x)
    (sorted : l.Pairwise fun x y => key x ≤ key y) :
    ∃ y ∈ l, b ≤ key y ∧ ∀ z ∈ l, b ≤ key z → key y ≤ key z := by
  induction l with
  | nil => cases mem
  | cons y l ih =>
      obtain ⟨first, rest⟩ := List.pairwise_cons.mp sorted
      by_cases here : b ≤ key y
      · refine ⟨y, List.mem_cons_self, here, fun z hz _ => ?_⟩
        rcases List.mem_cons.mp hz with rfl | later
        · exact le_refl _
        · exact first z later
      · have later : x ∈ l := by
          rcases List.mem_cons.mp mem with rfl | later
          · exact absurd le here
          · exact later
        obtain ⟨z, hz, ge, least⟩ := ih later rest
        refine ⟨z, List.mem_cons_of_mem y hz, ge, fun w hw => ?_⟩
        rcases List.mem_cons.mp hw with rfl | hw
        · intro ge'
          exact absurd ge' here
        · exact least w hw

/-- Where the search ends, everything in front is at most `b` and everything behind at least
`b`, exactly when the test separates the keys at `b`. -/
theorem Sought.splits_iff {b : β} (sorted : l.Pairwise fun x y => key x ≤ key y)
    (sought : Sought (fun x => q (key x)) l k) (own : ¬q b) :
    ((∀ x ∈ l.take k, key x ≤ b) ∧ ∀ x ∈ l.drop k, b ≤ key x) ↔ Separates key q l b := by
  have split : ∀ x ∈ l, x ∈ l.take k ∨ x ∈ l.drop k := by
    intro x mem
    rwa [← List.mem_append, List.take_append_drop]
  have across : ∀ x ∈ l.take k, ∀ y ∈ l.drop k, key x ≤ key y := by
    rw [← List.take_append_drop k l, List.pairwise_append] at sorted
    exact sorted.2.2
  constructor
  · rintro ⟨front, back⟩
    refine ⟨fun x mem less => ?_, fun x mem le least holds => ?_⟩
    · rcases split x mem with before | behind
      · exact sought.before x before
      · exact absurd (back x behind) (not_le_of_gt less)
    · rcases split x mem with before | behind
      · have same : key x = b := le_antisymm (front x before) le
        exact own (same ▸ holds)
      · cases at_k : l[k]? with
        | none =>
            rw [List.drop_eq_nil_of_le (List.getElem?_eq_none_iff.mp at_k)] at behind
            cases behind
        | some z =>
            have tail := Sought.drop_eq at_k
            have here : z ∈ l.drop k := by rw [tail]; exact List.mem_cons_self
            have up : key x ≤ key z := least z (List.mem_of_mem_drop here) (back z here)
            have down : key z ≤ key x := by
              have rest : (l.drop k).Pairwise fun x y => key x ≤ key y :=
                sorted.sublist (List.drop_sublist k l)
              rw [tail] at rest behind
              rcases List.mem_cons.mp behind with rfl | later
              · exact le_refl _
              · exact (List.pairwise_cons.mp rest).1 x later
            exact sought.stop z at_k (le_antisymm up down ▸ holds)
  · rintro ⟨below, least⟩
    refine ⟨fun x before => ?_, ?_⟩
    · by_contra above
      have ge : b ≤ key x := le_of_lt (not_le.mp above)
      obtain ⟨y, hy, ge', smallest⟩ := exists_least (List.mem_of_mem_take before) ge sorted
      refine least y hy ge' smallest ?_
      rcases split y hy with front | behind
      · exact sought.before y front
      · have same : key x = key y :=
          le_antisymm (across x before y behind) (smallest x (List.mem_of_mem_take before) ge)
        exact same ▸ sought.before x before
    · refine Sought.behind sorted (fun x at_k => ?_) fun x _ y _ le first => le_trans first le
      by_contra less
      exact sought.stop x at_k (below x (List.mem_of_getElem? at_k) (not_le.mp less))

/-- The list with the new element stays sorted exactly when the test separates at its key. -/
theorem Sought.insertIdx_sorted_iff (sorted : l.Pairwise fun x y => key x ≤ key y)
    (sought : Sought (fun x => q (key x)) l k) (own : ¬q (key a)) :
    (l.insertIdx k a).Pairwise (fun x y => key x ≤ key y) ↔ Separates key q l (key a) :=
  (pairwise_insertIdx_iff sought.le sorted).trans (sought.splits_iff sorted own)

end Keys

/-! ## Comparison functions -/

/-- On `S`, the signs of `cmp` are those of a total preorder. -/
structure Orders (S : α → Prop) (cmp : α → α → Int) : Prop where
  flip : ∀ x y, S x → S y → (cmp x y < 0 ↔ 0 < cmp y x)
  trans : ∀ x y z, S x → S y → S z → cmp x y ≤ 0 → cmp y z ≤ 0 → cmp x z ≤ 0

/-- `a` was put into `l` behind what compares below it, and in front of the rest. -/
def Placed (cmp : α → α → Int) (a : α) (l l' : List α) : Prop :=
  ∃ front back, l = front ++ back ∧ l' = front ++ a :: back ∧ (∀ x ∈ front, cmp x a < 0) ∧
    ∀ x ∈ back, cmp a x ≤ 0

namespace Orders

variable {S : α → Prop} {cmp : α → α → Int} {l : List α} {k : Nat} {a : α}

theorem le_of_not_lt (orders : Orders S cmp) {x y : α} (hx : S x) (hy : S y)
    (not_lt : ¬cmp x y < 0) : cmp y x ≤ 0 := by
  rw [orders.flip x y hx hy] at not_lt
  omega

/-- Where the search for `a` ends in a sorted list, `a` belongs. -/
theorem placed (orders : Orders S cmp) (stored : ∀ x ∈ l, S x) (own : S a)
    (sorted : l.Pairwise fun x y => cmp x y ≤ 0) (sought : Sought (fun x => cmp x a < 0) l k) :
    Placed cmp a l (l.insertIdx k a) := by
  refine ⟨l.take k, l.drop k, (List.take_append_drop k l).symm, insertIdx_eq_append sought.le,
    sought.before, ?_⟩
  refine Sought.behind sorted (fun x at_k => ?_) fun x hx y hy le => ?_
  · exact orders.le_of_not_lt (stored x (List.mem_of_getElem? at_k)) own (sought.stop x at_k)
  · intro first
    exact orders.trans a x y own (stored x hx) (stored y hy) first le

end Orders

/-- An element that is put in its place leaves the list sorted. -/
theorem Placed.sorted {cmp : α → α → Int} {l l' : List α} {a : α} (h : Placed cmp a l l')
    (sorted : l.Pairwise fun x y => cmp x y ≤ 0) : l'.Pairwise fun x y => cmp x y ≤ 0 := by
  obtain ⟨front, back, rfl, rfl, before, behind⟩ := h
  obtain ⟨low, high, across⟩ := List.pairwise_append.mp sorted
  rw [List.pairwise_append, List.pairwise_cons]
  refine ⟨low, ⟨behind, high⟩, fun x hx y hy => ?_⟩
  rcases List.mem_cons.mp hy with rfl | hy
  · exact Int.le_of_lt (before x hx)
  · exact across x hx y hy

end MiniKernel.Theory
