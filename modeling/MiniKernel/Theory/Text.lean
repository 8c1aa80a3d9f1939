/-
# Theory.Text -- texts and null-terminated strings in a byte memory

`m.put a text` is the memory with a text stored at `a`, byte by byte.  Texts that are stored one
after the other are one text (`put_append`), and a text that lies elsewhere stays
(`Holds.put`).  `CString m p text` says that a C function that reads the string at `p` finds
`text`.
-/
import MiniKernel.Theory.ByteMemory

namespace MiniKernel.Theory.Mem

set_option autoImplicit false

variable {m m' : Mem} {a b : Nat} {text rest : List UInt8}

/-- The memory with `text` stored from `a` on. -/
def put (m : Mem) (a : Nat) : List UInt8 → Mem
  | [] => m
  | c :: text => (m.setByte a c).put (a + 1) text

theorem put_append (m : Mem) (a : Nat) (text rest : List UInt8) :
    m.put a (text ++ rest) = (m.put a text).put (a + text.length) rest := by
  induction text generalizing m a with
  | nil => rfl
  | cons c text ih =>
      rw [List.cons_append, put, ih, put, List.length_cons]
      congr 1
      omega

theorem put_apply_of_apart (off : b < a ∨ a + text.length ≤ b) : m.put a text b = m b := by
  induction text generalizing m a with
  | nil => rfl
  | cons c text ih =>
      rw [List.length_cons] at off
      rw [put, ih (by omega), setByte, if_neg (by omega)]

theorem put_apply (m : Mem) (a : Nat) {i : Nat} (inside : i < text.length) :
    m.put a text (a + i) = text[i] := by
  induction text generalizing m a i with
  | nil => cases inside
  | cons c text ih =>
      rw [put]
      cases i with
      | zero =>
          rw [put_apply_of_apart (by omega), setByte, if_pos (by omega), List.getElem_cons_zero]
      | succ i =>
          have later := ih (m.setByte a c) (a + 1) (i := i)
            (by rw [List.length_cons] at inside; omega)
          rw [show a + (i + 1) = a + 1 + i by omega, later, List.getElem_cons_succ]

/-- Stored texts agree off their range. -/
theorem agreeOff_put (m : Mem) (a : Nat) (text : List UInt8) :
    AgreeOff a (a + text.length) m (m.put a text) :=
  fun _ off => put_apply_of_apart off

/-! ## What a memory holds -/

/-- The memory holds `text` at `a`. -/
def Holds (m : Mem) (a : Nat) (text : List UInt8) : Prop :=
  ∀ i (inside : i < text.length), m (a + i) = text[i]

theorem holds_put (m : Mem) (a : Nat) (text : List UInt8) : Holds (m.put a text) a text :=
  fun _ inside => put_apply m a inside

theorem holds_cons {c : UInt8} : Holds m a (c :: text) ↔ m a = c ∧ Holds m (a + 1) text := by
  constructor
  · intro holds
    refine ⟨holds 0 (by rw [List.length_cons]; omega), fun i inside => ?_⟩
    have later := holds (i + 1) (by rw [List.length_cons]; omega)
    rw [show a + 1 + i = a + (i + 1) by omega]
    exact later
  · rintro ⟨first, rest⟩ i inside
    cases i with
    | zero => exact first
    | succ i =>
        have later := rest i (by rw [List.length_cons] at inside; omega)
        rw [show a + (i + 1) = a + 1 + i by omega]
        exact later

/-- A memory that is the same where the text lies. -/
theorem Holds.congr (holds : Holds m a text)
    (same : ∀ b, a ≤ b → b < a + text.length → m' b = m b) : Holds m' a text :=
  fun i inside => (same (a + i) (by omega) (by omega)).trans (holds i inside)

/-- One more character behind the text. -/
theorem Holds.snoc (holds : Holds m a text) (c : UInt8) :
    Holds (m.setByte (a + text.length) c) a (text ++ [c]) := by
  intro i inside
  rw [List.length_append, List.length_singleton] at inside
  unfold setByte
  by_cases last : i = text.length
  · rw [if_pos (by omega), List.getElem_append_right (by omega), List.getElem_singleton]
  · rw [if_neg (by omega), List.getElem_append_left (by omega)]
    exact holds i (by omega)

/-- The string at `p` is `text`, and a null byte behind it. -/
structure CString (m : Mem) (p : Nat) (text : List UInt8) : Prop where
  holds : Holds m p text
  ends : m (p + text.length) = 0
  nonzero : ∀ c ∈ text, c ≠ 0

/-- For a text that is given. -/
theorem nonzero_of_all (all : text.all (· ≠ 0) = true) : ∀ c ∈ text, c ≠ 0 :=
  fun c member => of_decide_eq_true (List.all_eq_true.mp all c member)

namespace CString

theorem congr (h : CString m a text) (same : ∀ b, a ≤ b → b ≤ a + text.length → m' b = m b) :
    CString m' a text where
  holds := h.holds.congr fun b h1 h2 => same b h1 (by omega)
  ends := (same _ (by omega) (by omega)).trans h.ends
  nonzero := h.nonzero

/-- The null byte behind a text. -/
theorem of_holds (holds : Holds m a text) (nonzero : ∀ c ∈ text, c ≠ 0) :
    CString (m.setByte (a + text.length) 0) a text where
  holds := holds.congr fun b h1 h2 => by
    unfold setByte
    rw [if_neg (by omega)]
  ends := by
    unfold setByte
    rw [if_pos rfl]
  nonzero := nonzero

/-- A text with a null byte behind it, stored. -/
theorem put (m : Mem) (a : Nat) (nonzero : ∀ c ∈ text, c ≠ 0) :
    CString (m.put a (text ++ [0])) a text where
  holds := by
    rw [put_append]
    refine (holds_put m a text).congr fun b h1 h2 => ?_
    rw [put_apply_of_apart (by omega)]
  ends := by
    rw [put_append, Mem.put, Mem.put, setByte, if_pos rfl]
  nonzero := nonzero

/-- What a C function finds of a stored text, which may have null bytes in it. -/
theorem of_put (m : Mem) (a : Nat) (text : List UInt8) :
    CString (m.put a (text ++ [0])) a (text.takeWhile (· ≠ 0)) := by
  induction text generalizing m a with
  | nil => exact put m a fun _ member => absurd member List.not_mem_nil
  | cons c text ih =>
      rw [List.cons_append, Mem.put]
      by_cases null : c = 0
      · rw [List.takeWhile_cons_of_neg (by simpa using null)]
        refine ⟨fun i inside => absurd inside (Nat.not_lt_zero i), ?_,
          fun _ member => absurd member List.not_mem_nil⟩
        rw [put_apply_of_apart (by rw [List.length_nil]; omega), setByte, List.length_nil,
          if_pos (by omega), null]
      · rw [List.takeWhile_cons_of_pos (by simpa using null)]
        have behind := ih (m.setByte a c) (a + 1)
        refine ⟨holds_cons.mpr ⟨?_, behind.holds⟩, ?_, ?_⟩
        · rw [put_apply_of_apart (by omega), setByte, if_pos rfl]
        · have ends := behind.ends
          rw [List.length_cons, show a + ((text.takeWhile (· ≠ 0)).length + 1) =
            a + 1 + (text.takeWhile (· ≠ 0)).length by omega]
          exact ends
        · intro d member
          rcases List.mem_cons.mp member with rfl | member
          · exact null
          · exact behind.nonzero d member

theorem tail {c : UInt8} (h : CString m a (c :: text)) : CString m (a + 1) text where
  holds := (holds_cons.mp h.holds).2
  ends := by
    have ends := h.ends
    rw [List.length_cons] at ends
    rw [show a + 1 + text.length = a + (text.length + 1) by omega]
    exact ends
  nonzero c member := h.nonzero c (List.mem_cons_of_mem _ member)

end CString

end MiniKernel.Theory.Mem
