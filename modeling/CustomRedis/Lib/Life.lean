import CustomRedis.Lib.Run
import Mathlib.Data.Set.Basic

/-!
# Objects that come and go

A state has a set of objects. A step says of each object that disappears what made it disappear, and of each
new one what made it. A run then has such a step for every object that is lost or gained on the way.
-/

namespace Run

variable {σ ε E α : Type} {step : σ → ε → Except E σ}

/-- At some point of the run an event is met in a state, and both meet the condition. -/
def Meets (step : σ → ε → Except E σ) (P : σ → ε → Prop) (s : σ) (es : List ε) : Prop :=
  ∃ before e after t, es = before ++ e :: after ∧ run step s before = .ok t ∧ P t e

theorem Meets.here {P : σ → ε → Prop} {s : σ} {e : ε} (h : P s e) (es : List ε) : Meets step P s (e :: es) :=
  ⟨[], e, es, s, rfl, rfl, h⟩

theorem Meets.later {P : σ → ε → Prop} {s s' : σ} {e : ε} {es : List ε} (hstep : step s e = .ok s')
    (h : Meets step P s' es) : Meets step P s (e :: es) := by
  obtain ⟨before, f, after, t, rfl, hrun, hP⟩ := h
  exact ⟨e :: before, f, after, t, rfl, (run_cons_ok hstep before).trans hrun, hP⟩

variable {I : σ → Prop} {objs : σ → Set α} {born dies : σ → ε → α → Prop}

end Run
