import CustomRedis.Lib.Run
import Mathlib.Order.Basic
import Mathlib.Tactic

/-!
# Systems that come to rest

A measure that falls with every step bounds the length of every run, and every run can be continued to a
state without a next step.
-/

namespace Drain

variable {σ : Type*} {step : σ → σ → Prop} {inv : σ → Prop} {work : σ → ℕ}

/-- A run of `n` steps. -/
inductive Steps (step : σ → σ → Prop) : ℕ → σ → σ → Prop
  | refl (s : σ) : Steps step 0 s s
  | head {n : ℕ} {s t u : σ} (first : step s t) (later : Steps step n t u) : Steps step (n + 1) s u

/-- Every step from a good state leads to a good state with less work left. -/
structure Drains (step : σ → σ → Prop) (inv : σ → Prop) (work : σ → ℕ) : Prop where
  keeps : ∀ {s t}, inv s → step s t → inv t
  drops : ∀ {s t}, inv s → step s t → work t < work s

theorem Drains.run (h : Drains step inv work) {n : ℕ} {s t : σ} (hs : inv s) (hrun : Steps step n s t) :
    inv t ∧ n + work t ≤ work s := by
  induction hrun with
  | refl s => exact ⟨hs, by omega⟩
  | head first _ ih =>
    obtain ⟨hinv, hwork⟩ := ih (h.keeps hs first)
    have hdrop := h.drops hs first
    exact ⟨hinv, by omega⟩

theorem Drains.comes_to_rest (h : Drains step inv work) {s : σ} (hs : inv s) :
    ∃ n t, Steps step n s t ∧ ∀ u, ¬step t u := by
  -- on the work that is left
  induction hwork : work s using Nat.strong_induction_on generalizing s with
  | _ w ih =>
    by_cases hnext : ∃ t, step s t
    · obtain ⟨t, hstep⟩ := hnext
      have hdrop := h.drops hs hstep
      obtain ⟨n, u, hrun, hrest⟩ := ih (work t) (by omega) (h.keeps hs hstep) rfl
      exact ⟨n + 1, u, .head hstep hrun, hrest⟩
    · exact ⟨0, s, .refl s, not_exists.mp hnext⟩

/-- The same for the runs of a step function, as long as they stay where the measure falls. -/
theorem length_run_le {σ ε E : Type} {step : σ → ε → Except E σ} {inside : σ → Prop} {work : σ → ℕ}
    (hdrop : ∀ s e t, inside s → step s e = .ok t → work t < work s) {s t : σ} {es : List ε}
    (hinside : Run.Along step (fun s _ => inside s) s es) (hrun : Run.run step s es = .ok t) :
    es.length + work t ≤ work s := by
  induction es generalizing s with
  | nil =>
    cases hrun
    rw [List.length_nil]
    omega
  | cons e es ih =>
    cases hstep : step s e with
    | error err =>
      rw [Run.run, hstep] at hrun
      cases hrun
    | ok u =>
      have hless := hdrop s e u hinside.1 hstep
      rw [Run.run_cons_ok hstep] at hrun
      have hrest := ih (hinside.2 u hstep) hrun
      rw [List.length_cons]
      omega

end Drain
