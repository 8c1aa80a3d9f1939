/-
# Theory.MemoryBits -- the bits of a byte-addressed memory

Bit `f` behind `base` is bit `f % 8` of byte `base + f / 8`.  Seen through little-endian words
it is bit `f % 32` of word `f / 32` (`testBit_word`), and a word that is written back with one
more bit changes one byte (`setWord_or`).
-/
import MiniKernel.Theory.ByteMemory
import Mathlib.Data.Nat.Bitwise

namespace MiniKernel.Theory.Mem

set_option autoImplicit false

variable {m m' : Mem} {a base f g j : Nat}

/-- Bit `f` behind `base`. -/
def bit (m : Mem) (base f : Nat) : Bool := (m (base + f / 8)).toNat.testBit (f % 8)

/-- Set bit `f` behind `base`. -/
def setBit (m : Mem) (base f : Nat) : Mem :=
  m.setByte (base + f / 8) (UInt8.ofNat ((m (base + f / 8)).toNat ||| 2 ^ (f % 8)))

theorem bit_congr (same : m' (base + f / 8) = m (base + f / 8)) : m'.bit base f = m.bit base f := by
  rw [bit, bit, same]

/-- The bits of a word are those of its bytes. -/
theorem testBit_word (hj : j < 32) : (m.word a).testBit j = m.bit a j := by
  have low : ∀ b, (m b).toNat < 2 ^ 8 := fun b => (m b).toNat_lt
  have split : m.word a = 2 ^ 8 * (2 ^ 8 * (2 ^ 8 * (m (a + 3)).toNat + (m (a + 2)).toNat) +
      (m (a + 1)).toNat) + (m a).toNat := by
    unfold word
    omega
  rw [split, bit, Nat.testBit_two_pow_mul_add _ (low _)]
  by_cases h0 : j < 8
  · rw [if_pos h0, show j / 8 = 0 by omega, show j % 8 = j by omega]
    rfl
  · rw [if_neg h0, Nat.testBit_two_pow_mul_add _ (low _)]
    by_cases h1 : j - 8 < 8
    · rw [if_pos h1, show j / 8 = 1 by omega, show j % 8 = j - 8 by omega]
    · rw [if_neg h1, Nat.testBit_two_pow_mul_add _ (low _)]
      by_cases h2 : j - 8 - 8 < 8
      · rw [if_pos h2, show j / 8 = 2 by omega, show j % 8 = j - 8 - 8 by omega]
      · rw [if_neg h2, show j / 8 = 3 by omega, show j % 8 = j - 8 - 8 - 8 by omega]

/-- A bit seen from word `i` on. -/
theorem bit_word (i : Nat) : m.bit (base + 4 * i) j = m.bit base (32 * i + j) := by
  rw [bit, bit, show base + 4 * i + j / 8 = base + (32 * i + j) / 8 by omega,
    show (32 * i + j) % 8 = j % 8 by omega]

theorem setBit_word (i : Nat) : m.setBit (base + 4 * i) j = m.setBit base (32 * i + j) := by
  rw [setBit, setBit, show base + 4 * i + j / 8 = base + (32 * i + j) / 8 by omega,
    show (32 * i + j) % 8 = j % 8 by omega]

theorem toNat_setBit (m : Mem) (base f : Nat) :
    (m.setBit base f (base + f / 8)).toNat = (m (base + f / 8)).toNat ||| 2 ^ (f % 8) := by
  have small : (m (base + f / 8)).toNat ||| 2 ^ (f % 8) < 2 ^ 8 :=
    Nat.or_lt_two_pow (m (base + f / 8)).toNat_lt
      (Nat.pow_lt_pow_right (by decide) (Nat.mod_lt _ (by decide)))
  rw [setBit, setByte, if_pos rfl, UInt8.toNat_ofNat_of_lt' small]

theorem setBit_apply_of_ne {b : Nat} (other : b ≠ base + f / 8) : m.setBit base f b = m b :=
  if_neg other

theorem bit_setBit : (m.setBit base g).bit base f = (decide (f = g) || m.bit base f) := by
  by_cases byte : f / 8 = g / 8
  · have here := toNat_setBit m base g
    rw [← byte] at here
    rw [bit, bit, here, Nat.testBit_or, Nat.testBit_two_pow, Bool.or_comm]
    congr 1
    rw [decide_eq_decide]
    omega
  · have other : f ≠ g := fun same => byte (same ▸ rfl)
    rw [bit_congr (setBit_apply_of_ne (by omega))]
    simp [other]

/-- Setting a bit clears none, wherever it is looked at from. -/
theorem bit_of_setBit (was : m.bit a f = true) : (m.setBit base g).bit a f = true := by
  by_cases here : a + f / 8 = base + g / 8
  · rw [bit, here, toNat_setBit, Nat.testBit_or, ← here]
    show (m.bit a f || _) = true
    rw [was, Bool.true_or]
  · rw [bit_congr (setBit_apply_of_ne here), was]

theorem word_ne_zero_iff : m.word a ≠ 0 ↔ ∃ j < 32, m.bit a j = true := by
  constructor
  · intro some
    obtain ⟨j, set⟩ := Nat.exists_testBit_of_ne_zero some
    have low : j < 32 := by
      by_contra high
      have wide : 2 ^ 32 ≤ 2 ^ j := Nat.pow_le_pow_right (by decide) (Nat.le_of_not_lt high)
      rw [Nat.testBit_lt_two_pow (Nat.lt_of_lt_of_le (m.word_lt a) wide)] at set
      cases set
    exact ⟨j, low, (testBit_word low).symm.trans set⟩
  · rintro ⟨j, low, set⟩ zero
    rw [← testBit_word low, zero, Nat.zero_testBit] at set
    cases set

/-- A word that is written back with one more bit is a bit that is set. -/
theorem setWord_or (hj : j < 32) : m.setWord a (m.word a ||| 2 ^ j) = m.setBit a j := by
  funext b
  by_cases inside : a ≤ b ∧ b < a + 4
  · obtain ⟨i, rfl⟩ := Nat.exists_eq_add_of_le inside.1
    have hi : i < 4 := by omega
    apply UInt8.toNat_inj.mp
    rw [setWord_apply m a _ hi]
    apply Nat.eq_of_testBit_eq
    intro k
    rw [show (256 : Nat) = 2 ^ 8 by decide, ← Nat.pow_mul, Nat.testBit_mod_two_pow,
      Nat.testBit_div_two_pow]
    by_cases hk : k < 8
    · have word : (m.word a).testBit (k + 8 * i) = (m (a + i)).toNat.testBit k := by
        rw [testBit_word (by omega), bit, show (k + 8 * i) / 8 = i by omega,
          show (k + 8 * i) % 8 = k by omega]
      rw [Nat.testBit_or, word, Nat.testBit_two_pow]
      by_cases here : i = j / 8
      · subst here
        rw [toNat_setBit, Nat.testBit_or, Nat.testBit_two_pow]
        simp only [hk, decide_true, Bool.true_and]
        congr 1
        rw [decide_eq_decide]
        omega
      · rw [setBit_apply_of_ne (by omega)]
        have off : ¬j = k + 8 * i := by omega
        simp [hk, off]
    · have high : (m.setBit a j (a + i)).toNat.testBit k = false :=
        Nat.testBit_lt_two_pow (Nat.lt_of_lt_of_le (m.setBit a j (a + i)).toNat_lt
          (Nat.pow_le_pow_right (by decide) (Nat.le_of_not_lt hk)))
      rw [high]
      simp [hk]
  · rw [setWord_apply_of_disjoint m _ (by omega), setBit_apply_of_ne (by omega)]

/-! ## Words elsewhere -/

theorem word_setBit_of_disjoint {b : Nat} (off : base + f / 8 < b ∨ b + 4 ≤ base + f / 8) :
    (m.setBit base f).word b = m.word b :=
  word_congr fun _ _ _ => setBit_apply_of_ne (by omega)

theorem zeroBytes_inside {n b : Nat} (lo : a ≤ b) (hi : b < a + n) : m.zeroBytes a n b = 0 := by
  rw [zeroBytes, if_pos lo, if_pos hi]

theorem zeroBytes_outside {n b : Nat} (off : b < a ∨ a + n ≤ b) : m.zeroBytes a n b = m b := by
  unfold zeroBytes
  split_ifs <;> first | rfl | omega

theorem word_zeroBytes_inside {n b : Nat} (lo : a ≤ b) (hi : b + 4 ≤ a + n) :
    (m.zeroBytes a n).word b = 0 := by
  rw [word, zeroBytes_inside (by omega) (by omega), zeroBytes_inside (by omega) (by omega),
    zeroBytes_inside (by omega) (by omega), zeroBytes_inside (by omega) (by omega)]
  rfl

theorem word_zeroBytes_outside {n b : Nat} (off : b + 4 ≤ a ∨ a + n ≤ b) :
    (m.zeroBytes a n).word b = m.word b :=
  word_congr fun _ _ _ => zeroBytes_outside (by omega)

end MiniKernel.Theory.Mem
