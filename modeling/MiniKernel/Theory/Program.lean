/-
# Theory.Program -- state-and-exception programs and their weakest preconditions

A `Program σ ε α` maps a state to a result and a new state, or stops with an
`ε`.  `wp x Q E s` says that running `x` from `s` either returns into `Q` or
stops in `E`.  The rules below compute `wp` through a `do` block one statement
at a time; a loop or a call is entered with the lemma that was proved about it
(`wp_mono`, `wp_bind_of`).
-/
import Mathlib.Order.Defs.Unbundled
import Mathlib.Tactic.Common

namespace MiniKernel.Theory

set_option autoImplicit false

/-- Programs over a state `σ` that may stop with an `ε`. -/
abbrev Program (σ ε : Type) := StateT σ (Except ε)

namespace Program

variable {σ ε α β : Type}

/-- Stop with `e`. -/
def stop (e : ε) : Program σ ε α := fun _ => .error e

/-- Running `x` from `s` returns into `Q` or stops in `E`. -/
def wp (x : Program σ ε α) (Q : α → σ → Prop) (E : ε → Prop) (s : σ) : Prop :=
  match x s with
  | .ok (a, s') => Q a s'
  | .error e => E e

theorem wp_of_ok {x : Program σ ε α} {Q : α → σ → Prop} {E : ε → Prop} {s s' : σ} {a : α}
    (run : x s = .ok (a, s')) : wp x Q E s ↔ Q a s' := by
  simp [wp, run]

theorem wp_of_error {x : Program σ ε α} {Q : α → σ → Prop} {E : ε → Prop} {s : σ} {e : ε}
    (run : x s = .error e) : wp x Q E s ↔ E e := by
  simp [wp, run]

/-- Nothing is said about the run. -/
theorem wp_true (x : Program σ ε α) (s : σ) : wp x (fun _ _ => True) (fun _ => True) s := by
  unfold wp
  split <;> trivial

/-- What `wp` says about a run that returned. -/
theorem wp_ok {x : Program σ ε α} {Q : α → σ → Prop} {E : ε → Prop} {s s' : σ} {a : α}
    (h : wp x Q E s) (run : x s = .ok (a, s')) : Q a s' :=
  (wp_of_ok run).mp h

/-- What `wp` says about a run that stopped. -/
theorem wp_error {x : Program σ ε α} {Q : α → σ → Prop} {E : ε → Prop} {s : σ} {e : ε}
    (h : wp x Q E s) (run : x s = .error e) : E e :=
  (wp_of_error run).mp h

theorem wp_mono {x : Program σ ε α} {Q Q' : α → σ → Prop} {E E' : ε → Prop} {s : σ}
    (h : wp x Q E s) (post : ∀ a s', Q a s' → Q' a s') (stops : ∀ e, E e → E' e) :
    wp x Q' E' s := by
  unfold wp at h ⊢
  split at h
  · exact post _ _ h
  · exact stops _ h

@[simp] theorem wp_pure (a : α) (Q : α → σ → Prop) (E : ε → Prop) (s : σ) :
    wp (pure a) Q E s ↔ Q a s := Iff.rfl

@[simp] theorem wp_bind (x : Program σ ε α) (f : α → Program σ ε β) (Q : β → σ → Prop)
    (E : ε → Prop) (s : σ) :
    wp (x >>= f) Q E s ↔ wp x (fun a => wp (f a) Q E) E s := by
  simp only [wp, bind, StateT.bind, Except.bind]
  cases x s with
  | error e => rfl
  | ok r => rfl

@[simp] theorem wp_stop (e : ε) (Q : α → σ → Prop) (E : ε → Prop) (s : σ) :
    wp (stop e : Program σ ε α) Q E s ↔ E e := Iff.rfl

@[simp] theorem wp_get (Q : σ → σ → Prop) (E : ε → Prop) (s : σ) :
    wp (get : Program σ ε σ) Q E s ↔ Q s s := Iff.rfl

@[simp] theorem wp_modify (f : σ → σ) (Q : PUnit → σ → Prop) (E : ε → Prop) (s : σ) :
    wp (modify f : Program σ ε PUnit) Q E s ↔ Q ⟨⟩ (f s) := Iff.rfl

@[simp] theorem wp_ite (c : Prop) [Decidable c] (x y : Program σ ε α) (Q : α → σ → Prop)
    (E : ε → Prop) (s : σ) :
    wp (if c then x else y) Q E s ↔ (c → wp x Q E s) ∧ (¬c → wp y Q E s) := by
  by_cases h : c <;> simp [h]

/-- The postcondition may also say which run led there. -/
theorem wp_ran {x : Program σ ε α} {Q : α → σ → Prop} {E : ε → Prop} {s : σ} (h : wp x Q E s) :
    wp x (fun a s' => x s = .ok (a, s') ∧ Q a s') E s := by
  unfold wp at h ⊢
  split at h
  · rename_i ran
    exact ⟨ran, h⟩
  · exact h

/-- A program that cannot stop returns. -/
theorem wp_returns {x : Program σ ε Unit} {Q : σ → Prop} {s : σ}
    (h : wp x (fun _ => Q) (fun _ => False) s) : ∃ s', x s = .ok ((), s') ∧ Q s' := by
  unfold wp at h
  split at h
  · rename_i a s' ran
    exact ⟨s', ran, h⟩
  · exact h.elim

/-- A program that cannot stop returns a result. -/
theorem wp_some {x : Program σ ε α} {Q : α → σ → Prop} {s : σ}
    (h : wp x Q (fun _ => False) s) : ∃ a s', x s = .ok (a, s') ∧ Q a s' := by
  unfold wp at h
  split at h
  · rename_i a s' ran
    exact ⟨a, s', ran, h⟩
  · exact h.elim

/-- Enter a call with the lemma proved about it. -/
theorem wp_bind_of {x : Program σ ε α} {f : α → Program σ ε β} {R : α → σ → Prop}
    {Q : β → σ → Prop} {E : ε → Prop} {s : σ}
    (call : wp x R E s) (rest : ∀ a s', R a s' → wp (f a) Q E s') : wp (x >>= f) Q E s :=
  (wp_bind x f Q E s).mpr (wp_mono call rest fun _ h => h)

/-- Two programs that do the same step by step. -/
theorem bind_run_congr {x y : Program σ ε α} {f g : α → Program σ ε β} {s : σ}
    (first : x s = y s) (rest : ∀ a s', y s = .ok (a, s') → f a s' = g a s') :
    (x >>= f) s = (y >>= g) s := by
  simp only [bind, StateT.bind, Except.bind, first]
  cases ran : y s with
  | error e => rfl
  | ok r => exact rest r.1 r.2 ran

/-- A program stops where its first step does. -/
theorem bind_run_error {x : Program σ ε α} {f : α → Program σ ε β} {s : σ} {e : ε}
    (first : x s = .error e) : (x >>= f) s = .error e := by
  simp only [bind, StateT.bind, Except.bind, first]

theorem bind_run_ok {x : Program σ ε α} {f : α → Program σ ε β} {s s' : σ} {a : α}
    (first : x s = .ok (a, s')) : (x >>= f) s = f a s' := by
  simp only [bind, StateT.bind, Except.bind, first]

theorem get_bind_run (f : σ → Program σ ε β) (s : σ) : (MonadState.get >>= f) s = f s s := rfl

/-- A program that came to its end went through its first step. -/
theorem of_bind_run {x : Program σ ε α} {f : α → Program σ ε β} {s s' : σ} {b : β}
    (ran : (x >>= f) s = .ok (b, s')) : ∃ a s₁, x s = .ok (a, s₁) ∧ f a s₁ = .ok (b, s') := by
  cases first : x s with
  | error e =>
      rw [bind_run_error first] at ran
      cases ran
  | ok r => exact ⟨r.1, r.2, rfl, (bind_run_ok first).symm.trans ran⟩

/-- What is enough for `y` is enough for `x`: they run alike. -/
theorem run_eq_of_wp {x y : Program σ ε α} {s s' : σ}
    (h : ∀ Q E, wp y Q E s' → wp x Q E s) : x s = y s' := by
  have self : wp y (fun a t => y s' = .ok (a, t)) (fun e => y s' = .error e) s' := by
    unfold wp
    split <;> assumption
  have same := h _ _ self
  unfold wp at same
  split at same
  · rename_i ran
    rw [ran, same]
  · rename_i ran
    rw [ran, same]

/-! ## Frame rules -/

variable {γ δ : Type} {f : σ → γ}

/-- Where `x` returns, `f` of the state is what it was. -/
def Keeps (f : σ → γ) (x : Program σ ε α) : Prop :=
  ∀ s, wp x (fun _ s' => f s' = f s) (fun _ => True) s

namespace Keeps

theorem of_ok {x : Program σ ε α} (h : Keeps f x) {s s' : σ} {a : α} (run : x s = .ok (a, s')) :
    f s' = f s := by
  have same := wp_ok (h s) run
  exact same

/-- What is read off `f` is kept with it. -/
theorem map {x : Program σ ε α} (h : Keeps f x) (g : γ → δ) : Keeps (fun s => g (f s)) x :=
  fun s => wp_mono (h s) (fun _ _ same => congrArg g same) fun _ h => h

/-- A program that leaves the whole state as it is keeps everything. -/
theorem of_id {x : Program σ ε α} (h : Keeps (fun s => s) x) (f : σ → γ) : Keeps f x :=
  h.map f

theorem pure (a : α) : Keeps f (Pure.pure a : Program σ ε α) := fun _ => rfl

theorem stop (e : ε) : Keeps f (Program.stop e : Program σ ε α) := fun _ => trivial

theorem get : Keeps f (MonadState.get : Program σ ε σ) := fun _ => rfl

theorem of_modify {g : σ → σ} (same : ∀ s, f (g s) = f s) :
    Keeps f (modify g : Program σ ε PUnit) := fun s => same s

theorem bind {x : Program σ ε α} {g : α → Program σ ε β} (first : Keeps f x)
    (rest : ∀ a, Keeps f (g a)) : Keeps f (x >>= g) := fun s =>
  wp_bind_of (first s) fun a s' same =>
    wp_mono (rest a s') (fun _ _ same' => same'.trans same) fun _ h => h

theorem ite {c : Prop} [Decidable c] {x y : Program σ ε α} (yes : Keeps f x) (no : Keeps f y) :
    Keeps f (if c then x else y) := by
  split
  · exact yes
  · exact no

end Keeps

/-! ## Runs along a relation -/

/-- Where `x` returns, the state has moved along `R`. -/
def Within (R : σ → σ → Prop) (x : Program σ ε α) : Prop :=
  ∀ s, wp x (fun _ s' => R s s') (fun _ => True) s

namespace Within

variable {R : σ → σ → Prop}

theorem of_ok {x : Program σ ε α} (h : Within R x) {s s' : σ} {a : α} (run : x s = .ok (a, s')) :
    R s s' := by
  have moved := wp_ok (h s) run
  exact moved

theorem stop (e : ε) : Within R (Program.stop e : Program σ ε α) := fun _ => trivial

theorem of_modify {g : σ → σ} (moves : ∀ s, R s (g s)) :
    Within R (modify g : Program σ ε PUnit) := fun s => moves s

theorem ite {c : Prop} [Decidable c] {x y : Program σ ε α} (yes : Within R x) (no : Within R y) :
    Within R (if c then x else y) := by
  split
  · exact yes
  · exact no

theorem bind [IsTrans σ R] {x : Program σ ε α} {g : α → Program σ ε β} (first : Within R x)
    (rest : ∀ a, Within R (g a)) : Within R (x >>= g) := fun s =>
  wp_bind_of (first s) fun a s' moved =>
    wp_mono (rest a s') (fun _ _ moved' => IsTrans.trans _ _ _ moved moved') fun _ h => h

variable [Std.Refl R]

theorem pure (a : α) : Within R (Pure.pure a : Program σ ε α) := fun s => Std.Refl.refl s

theorem get : Within R (MonadState.get : Program σ ε σ) := fun s => Std.Refl.refl s

end Within

/-- A run that is read off `toOption`. -/
theorem ok_of_toOption {r : Except ε α} {a : α} (read : r.toOption = some a) : r = .ok a := by
  cases r with
  | error e => cases read
  | ok b => exact congrArg Except.ok (Option.some.inj read)

end Program

end MiniKernel.Theory
