/-
# Theory.ByteMemory -- a byte-addressed memory with little-endian words

`word m a` reads the four bytes at `a`, `setWord m a v` writes them.  Every
statement about a write is one of two: the word comes back (`word_setWord`), or
the bytes lie elsewhere and nothing changed (`setWord_apply_of_disjoint`,
`word_setWord_of_disjoint`).  `AgreeOff lo hi m m'` says that two memories
agree outside `[lo, hi)`; writes inside the range compose along it, and that is
how a chain of tag updates leaves every other byte alone.
-/
import Mathlib.Data.Nat.Basic
import Mathlib.Tactic.IntervalCases

namespace MiniKernel.Theory

set_option autoImplicit false

/-- A memory, one byte for each address. -/
abbrev Mem := Nat → UInt8

namespace Mem

/-- The little-endian 32-bit word at `a`. -/
def word (m : Mem) (a : Nat) : Nat :=
  (m a).toNat + 256 * (m (a + 1)).toNat + 65536 * (m (a + 2)).toNat +
    16777216 * (m (a + 3)).toNat

/-- Write a byte. -/
def setByte (m : Mem) (a : Nat) (v : UInt8) : Mem := fun b => if b = a then v else m b

/-- Write the 32-bit word `v` at `a`, low byte first. -/
def setWord (m : Mem) (a v : Nat) : Mem := fun b =>
  if a ≤ b then if b < a + 4 then UInt8.ofNat (v / 256 ^ (b - a)) else m b else m b

/-- Clear `n` bytes from `a` on. -/
def zeroBytes (m : Mem) (a n : Nat) : Mem := fun b =>
  if a ≤ b then if b < a + n then 0 else m b else m b

theorem word_lt (m : Mem) (a : Nat) : m.word a < 4294967296 := by
  have h0 := (m a).toNat_lt
  have h1 := (m (a + 1)).toNat_lt
  have h2 := (m (a + 2)).toNat_lt
  have h3 := (m (a + 3)).toNat_lt
  unfold word; omega

theorem setWord_apply_of_disjoint (m : Mem) {a b : Nat} (v : Nat) (off : b < a ∨ a + 4 ≤ b) :
    m.setWord a v b = m b := by
  unfold setWord
  rcases off with h | h
  · rw [if_neg (by omega)]
  · rw [if_pos (by omega), if_neg (by omega)]

theorem setWord_apply (m : Mem) (a v : Nat) {i : Nat} (hi : i < 4) :
    (m.setWord a v (a + i)).toNat = v / 256 ^ i % 256 := by
  unfold setWord
  rw [if_pos (by omega), if_pos (by omega), Nat.add_sub_cancel_left]
  simp

@[simp] theorem word_setWord_mod (m : Mem) (a v : Nat) :
    (m.setWord a v).word a = v % 4294967296 := by
  have h0 := setWord_apply m a v (i := 0) (by omega)
  have h1 := setWord_apply m a v (i := 1) (by omega)
  have h2 := setWord_apply m a v (i := 2) (by omega)
  have h3 := setWord_apply m a v (i := 3) (by omega)
  unfold word
  rw [Nat.add_zero] at h0
  rw [h0, h1, h2, h3]
  omega

theorem word_setWord {m : Mem} {a v : Nat} (fits : v < 4294967296) :
    (m.setWord a v).word a = v := by
  rw [word_setWord_mod, Nat.mod_eq_of_lt fits]

theorem word_congr {m m' : Mem} {a : Nat}
    (same : ∀ b, a ≤ b → b < a + 4 → m' b = m b) : m'.word a = m.word a := by
  unfold word
  rw [same a (by omega) (by omega), same (a + 1) (by omega) (by omega),
    same (a + 2) (by omega) (by omega), same (a + 3) (by omega) (by omega)]

theorem word_setWord_of_disjoint {m : Mem} {a b v : Nat} (off : b + 4 ≤ a ∨ a + 4 ≤ b) :
    (m.setWord a v).word b = m.word b :=
  word_congr fun c _ _ => setWord_apply_of_disjoint m v (by omega)

/-! ## Memories that agree outside a range -/

/-- `m'` differs from `m` in `[lo, hi)` at most. -/
def AgreeOff (lo hi : Nat) (m m' : Mem) : Prop := ∀ a, a < lo ∨ hi ≤ a → m' a = m a

namespace AgreeOff

variable {lo hi : Nat} {m m' m'' : Mem}

theorem refl (lo hi : Nat) (m : Mem) : AgreeOff lo hi m m := fun _ _ => rfl

theorem trans (first : AgreeOff lo hi m m') (second : AgreeOff lo hi m' m'') :
    AgreeOff lo hi m m'' :=
  fun a off => (second a off).trans (first a off)

theorem mono {lo' hi' : Nat} (h : AgreeOff lo hi m m') (hlo : lo' ≤ lo) (hhi : hi ≤ hi') :
    AgreeOff lo' hi' m m' :=
  fun a off => h a (by omega)

theorem setWord (h : AgreeOff lo hi m m') {a : Nat} (v : Nat) (hlo : lo ≤ a) (hhi : a + 4 ≤ hi) :
    AgreeOff lo hi m (m'.setWord a v) :=
  fun b off => (setWord_apply_of_disjoint m' v (by omega)).trans (h b off)

theorem zeroBytes (h : AgreeOff lo hi m m') {a n : Nat} (hlo : lo ≤ a) (hhi : a + n ≤ hi) :
    AgreeOff lo hi m (m'.zeroBytes a n) := by
  intro b off
  rw [← h b off]
  unfold Mem.zeroBytes
  split_ifs <;> first | rfl | omega

theorem word (h : AgreeOff lo hi m m') {a : Nat} (off : a + 4 ≤ lo ∨ hi ≤ a) :
    m'.word a = m.word a :=
  word_congr fun b _ _ => h b (by omega)

end AgreeOff

end Mem

end MiniKernel.Theory
