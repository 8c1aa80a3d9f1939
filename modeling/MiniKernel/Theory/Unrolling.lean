/-
# Theory.Unrolling -- recursive programs and their unrollings

A recursive program is modelled by its unrollings: `x n` nests `n` calls at most, and stops with
`e` in the call that would be one too many.  More room changes only the runs that stopped so
(`Unrolls`).  `Ends e x s` says that with room enough the run from `s` comes to an end of its
own; the rules below follow it through a `do` block (`Ends.bind`).
-/
import MiniKernel.Theory.Program

namespace MiniKernel.Theory.Program

set_option autoImplicit false

variable {σ ε α β : Type} {e : ε}

/-! ## Programs that never stop with an error -/

/-- Where `x` stops, but not with `e`, it stops with something else. -/
theorem error_ne {x : Program σ ε α} {s : σ} {e' : ε} (other : x s ≠ .error e)
    (ran : x s = .error e') : (.error e' : Except ε (β × σ)) ≠ .error e := by
  intro same
  exact other (ran.trans (congrArg Except.error (Except.error.inj same)))

/-- The same for a result alone. -/
theorem bind_ne_error {r : Except ε α} {f : α → Except ε β} (first : r ≠ .error e)
    (rest : ∀ a, f a ≠ .error e) : (r >>= f) ≠ .error e := by
  cases r with
  | error e' =>
      intro same
      exact first (congrArg Except.error (Except.error.inj same))
  | ok a => exact rest a

/-- `x` does not stop with `e`. -/
def Avoids (e : ε) (x : Program σ ε α) : Prop := ∀ s, x s ≠ .error e

namespace Avoids

theorem pure (a : α) : Avoids e (Pure.pure a : Program σ ε α) := by
  rintro s ⟨⟩

theorem get : Avoids e (MonadState.get : Program σ ε σ) := by
  rintro s ⟨⟩

theorem of_modify (f : σ → σ) : Avoids e (modify f : Program σ ε PUnit) := by
  rintro s ⟨⟩

theorem stop {e' : ε} (other : e' ≠ e) : Avoids e (Program.stop e' : Program σ ε α) := by
  intro s same
  exact other (Except.error.inj same)

theorem bind {x : Program σ ε α} {f : α → Program σ ε β} (first : Avoids e x)
    (rest : ∀ a, Avoids e (f a)) : Avoids e (x >>= f) := by
  intro s
  cases ran : x s with
  | error e' =>
      rw [bind_run_error ran]
      exact error_ne (first s) ran
  | ok r =>
      rw [bind_run_ok ran]
      exact rest r.1 r.2

theorem ite {c : Prop} [Decidable c] {x y : Program σ ε α} (yes : Avoids e x) (no : Avoids e y) :
    Avoids e (if c then x else y) := by
  split
  · exact yes
  · exact no

end Avoids

/-! ## More room -/

/-- `y` does what `x` does, where `x` does not stop with `e`. -/
def Below (e : ε) (x y : Program σ ε α) : Prop := ∀ s, x s ≠ .error e → y s = x s

namespace Below

theorem refl (x : Program σ ε α) : Below e x x := fun _ _ => rfl

theorem trans {x y z : Program σ ε α} (first : Below e x y) (second : Below e y z) :
    Below e x z := by
  intro s other
  have same := first s other
  rw [second s (by rwa [same]), same]

theorem of_stop (y : Program σ ε α) : Below e (Program.stop e) y := fun _ other => absurd rfl other

theorem bind {x y : Program σ ε α} {f g : α → Program σ ε β} (first : Below e x y)
    (rest : ∀ a, Below e (f a) (g a)) : Below e (x >>= f) (y >>= g) := by
  intro s other
  cases ran : x s with
  | error e' =>
      rw [bind_run_error ran] at other ⊢
      have stopped : x s ≠ .error e := by
        rw [ran]
        exact fun same => other (congrArg _ (Except.error.inj same))
      have same := first s stopped
      rw [bind_run_error (same.trans ran)]
  | ok r =>
      have same := first s (by rw [ran]; rintro ⟨⟩)
      rw [bind_run_ok ran] at other ⊢
      rw [bind_run_ok (same.trans ran), rest r.1 r.2 other]

theorem ite {c : Prop} [Decidable c] {x y x' y' : Program σ ε α} (yes : Below e x x')
    (no : Below e y y') : Below e (if c then x else y) (if c then x' else y') := by
  split
  · exact yes
  · exact no

end Below

/-- More room changes only the runs that stopped for want of it. -/
def Unrolls (e : ε) (x : Nat → Program σ ε α) : Prop := ∀ n, Below e (x n) (x (n + 1))

theorem Unrolls.le {x : Nat → Program σ ε α} (unrolls : Unrolls e x) {n m : Nat} (le : n ≤ m) :
    Below e (x n) (x m) := by
  induction le with
  | refl => exact .refl _
  | step _ ih => exact ih.trans (unrolls _)

/-- Two runs that return with different room return the same. -/
theorem Unrolls.unique {x : Nat → Program σ ε α} {s : σ} {n m : Nat} {r r' : α × σ}
    (unrolls : Unrolls e x) (first : x n s = .ok r) (second : x m s = .ok r') : r = r' := by
  have left := unrolls.le (Nat.le_max_left n m) s (by rw [first]; rintro ⟨⟩)
  have right := unrolls.le (Nat.le_max_right n m) s (by rw [second]; rintro ⟨⟩)
  rw [left, first, second] at right
  exact Except.ok.inj right

/-! ## Runs that end -/

/-- With room enough, the run from `s` does not stop for want of it. -/
def Ends (e : ε) (x : Nat → Program σ ε α) (s : σ) : Prop := ∃ n, x n s ≠ .error e

namespace Ends

variable {x : Nat → Program σ ε α} {s : σ}

theorem of_avoids {y : Program σ ε α} (h : Avoids e y) (s : σ) : Ends e (fun _ => y) s :=
  ⟨0, h s⟩

/-- One level of the recursion. -/
theorem of_succ (ends : Ends e (fun n => x (n + 1)) s) : Ends e x s := by
  obtain ⟨n, ran⟩ := ends
  exact ⟨n + 1, ran⟩

/-- A run that ends goes on with one that ends. -/
theorem bind {f : Nat → α → Program σ ε β} (first : Ends e x s) (unrolls : Unrolls e x)
    (unrolls' : ∀ a, Unrolls e fun n => f n a)
    (rest : ∀ a s' n, x n s = .ok (a, s') → Ends e (fun n => f n a) s') :
    Ends e (fun n => x n >>= f n) s := by
  obtain ⟨n, other⟩ := first
  cases ran : x n s with
  | error e' =>
      refine ⟨n, ?_⟩
      dsimp only
      rw [bind_run_error ran]
      exact error_ne other ran
  | ok r =>
      obtain ⟨m, other'⟩ := rest r.1 r.2 n ran
      have first := unrolls.le (Nat.le_max_left n m) s other
      have second := (unrolls' r.1).le (Nat.le_max_right n m) r.2 other'
      refine ⟨max n m, ?_⟩
      dsimp only at second other' ⊢
      rw [bind_run_ok (first.trans ran), second]
      exact other'

/-- What follows needs no room. -/
theorem bind_avoids {f : α → Program σ ε β} (first : Ends e x s) (rest : ∀ a, Avoids e (f a)) :
    Ends e (fun n => x n >>= f) s := by
  obtain ⟨n, other⟩ := first
  refine ⟨n, ?_⟩
  dsimp only
  cases ran : x n s with
  | error e' =>
      rw [bind_run_error ran]
      exact error_ne other ran
  | ok r =>
      rw [bind_run_ok ran]
      exact rest r.1 r.2

/-- What goes before needs no room. -/
theorem after {y : Program σ ε α} {f : Nat → α → Program σ ε β} (first : Avoids e y)
    (rest : ∀ a s', y s = .ok (a, s') → Ends e (fun n => f n a) s') :
    Ends e (fun n => y >>= f n) s := by
  cases ran : y s with
  | error e' =>
      refine ⟨0, ?_⟩
      dsimp only
      rw [bind_run_error ran]
      exact error_ne (first s) ran
  | ok r =>
      obtain ⟨n, other⟩ := rest r.1 r.2 ran
      refine ⟨n, ?_⟩
      dsimp only
      rw [bind_run_ok ran]
      exact other

end Ends

end MiniKernel.Theory.Program
