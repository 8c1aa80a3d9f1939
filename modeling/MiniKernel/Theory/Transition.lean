/-
# Theory.Transition -- runs of a labelled transition system, under a condition on its steps

`Reaches step C s₀ s` says that some run from `s₀` ends in `s` and each of its
steps met `C` in the state before it.  `Reaches.invariant` is the one induction
over runs: what holds at the start and is kept by every step that meets `C`
holds in every state so reached.  With `C` always true this is plain
reachability.  `Trace` keeps the labels, for properties that compare a run with a
function of them (`Trace.simulates`).
-/

namespace MiniKernel.Theory

set_option autoImplicit false

variable {σ ι : Type}

/-- The states reached from `s₀` by steps that meet `C`. -/
inductive Reaches (step : σ → ι → σ → Prop) (C : σ → ι → Prop) (s₀ : σ) : σ → Prop where
  | refl : Reaches step C s₀ s₀
  | tail {s s' : σ} {i : ι} : Reaches step C s₀ s → C s i → step s i s' → Reaches step C s₀ s'

/-- The states reached by any steps. -/
abbrev Reachable (step : σ → ι → σ → Prop) (s₀ s : σ) : Prop :=
  Reaches step (fun _ _ => True) s₀ s

namespace Reaches

variable {step : σ → ι → σ → Prop} {C C' : σ → ι → Prop} {s₀ s : σ}

/-- The induction over runs. -/
theorem invariant {I : σ → Prop} (reached : Reaches step C s₀ s) (start : I s₀)
    (preserved : ∀ s i s', I s → C s i → step s i s' → I s') : I s := by
  induction reached with
  | refl => exact start
  | tail _ meets taken ih => exact preserved _ _ _ ih meets taken

theorem mono (reached : Reaches step C s₀ s) (weaker : ∀ s i, C s i → C' s i) :
    Reaches step C' s₀ s := by
  induction reached with
  | refl => exact .refl
  | tail _ meets taken ih => exact .tail ih (weaker _ _ meets) taken

theorem reachable (reached : Reaches step C s₀ s) : Reachable step s₀ s :=
  reached.mono fun _ _ _ => trivial

theorem single {s' : σ} {i : ι} (meets : C s i) (taken : step s i s') : Reaches step C s s' :=
  .tail .refl meets taken

theorem trans {s' : σ} (first : Reaches step C s₀ s) (second : Reaches step C s s') :
    Reaches step C s₀ s' := by
  induction second with
  | refl => exact first
  | tail _ meets taken ih => exact .tail ih meets taken

/-- A run computed step by step. -/
theorem of_foldlM {next : σ → ι → Option σ}
    (sound : ∀ s i s', next s i = some s' → C s i ∧ step s i s') (is : List ι) {s s' : σ}
    (ran : is.foldlM next s = some s') : Reaches step C s s' := by
  induction is generalizing s with
  | nil =>
      obtain rfl := Option.some.inj ran
      exact .refl
  | cons i is ih =>
      obtain ⟨t, first, rest⟩ := Option.bind_eq_some_iff.mp ran
      obtain ⟨meets, taken⟩ := sound s i t first
      exact (single meets taken).trans (ih rest)

/-- A run goes on with labels that meet the condition anywhere. -/
theorem of_events {next : σ → ι → Option σ} {is : List ι} (meets : ∀ i ∈ is, ∀ s, C s i)
    {s s' : σ} (run : Reaches (fun s i s' => next s i = some s') C s₀ s)
    (ran : is.foldlM next s = some s') :
    Reaches (fun s i s' => next s i = some s') C s₀ s' := by
  induction is generalizing s with
  | nil =>
      obtain rfl := Option.some.inj ran
      exact run
  | cons i is ih =>
      obtain ⟨t, first, rest⟩ := Option.bind_eq_some_iff.mp ran
      exact ih (fun j mem => meets j (List.mem_cons_of_mem _ mem))
        (.tail run (meets i List.mem_cons_self s) first) rest

end Reaches

/-- The runs from `s₀`, with the labels of their steps. -/
inductive Trace (step : σ → ι → σ → Prop) (s₀ : σ) : List ι → σ → Prop where
  | refl : Trace step s₀ [] s₀
  | tail {s s' : σ} {is : List ι} {i : ι} :
      Trace step s₀ is s → step s i s' → Trace step s₀ (is ++ [i]) s'

namespace Trace

variable {step : σ → ι → σ → Prop} {s₀ s s' : σ} {is is' : List ι}

/-- A function of the labels that every step follows describes the whole run. -/
theorem simulates {α : Type} {f : α → ι → α} {Rep : σ → α → Prop} {a₀ : α}
    (run : Trace step s₀ is s) (start : Rep s₀ a₀)
    (preserved : ∀ s i s' a, Rep s a → step s i s' → Rep s' (f a i)) :
    Rep s (is.foldl f a₀) := by
  induction run with
  | refl => exact start
  | tail _ taken ih =>
      rw [List.foldl_append]
      exact preserved _ _ _ _ ih taken

theorem trans (first : Trace step s₀ is s) (second : Trace step s is' s') :
    Trace step s₀ (is ++ is') s' := by
  induction second with
  | refl => rwa [List.append_nil]
  | tail _ taken ih =>
      rw [← List.append_assoc]
      exact .tail ih taken

theorem single {i : ι} (taken : step s i s') : Trace step s [i] s' := .tail .refl taken

/-- A run computed step by step. -/
theorem of_foldlM {next : σ → ι → Option σ} (sound : ∀ s i s', next s i = some s' → step s i s')
    (is : List ι) {s s' : σ} (ran : is.foldlM next s = some s') : Trace step s is s' := by
  induction is generalizing s with
  | nil =>
      obtain rfl := Option.some.inj ran
      exact .refl
  | cons i is ih =>
      obtain ⟨t, first, rest⟩ := Option.bind_eq_some_iff.mp ran
      exact (single (sound s i t first)).trans (ih rest)

end Trace

end MiniKernel.Theory
