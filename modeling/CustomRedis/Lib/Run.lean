import Mathlib.Tactic

/-!
# Runs of a step function that may fail

A system takes events one after the other, and a step may end in an error, which ends the run. The
rules here turn what one step preserves into what a whole run preserves: an invariant of the reached
state, and a simulation by a second system that cannot fail.
-/

namespace Run

variable {σ τ ε E : Type}

theorem ok_bind {α β : Type} (a : α) (f : α → Except E β) : ((.ok a : Except E α) >>= f) = f a := rfl

/-- A sequence of two steps that returns has a first step that returns. -/
theorem ok_of_bind {α β : Type} {x : Except E α} {f : α → Except E β} {b : β} (h : (x >>= f) = .ok b) :
    ∃ a, x = .ok a ∧ f a = .ok b := by
  cases hx : x with
  | error e =>
    rw [hx] at h
    cases h
  | ok a =>
    rw [hx] at h
    exact ⟨a, rfl, h⟩

/-- A test of the result of a computation, which fails if there is none. -/
def check {α : Type} (x : Except E α) (p : α → Bool) : Bool :=
  match x with
  | .ok a => p a
  | .error _ => false

theorem exists_ok_of_check {α : Type} {x : Except E α} {p : α → Bool} (h : check x p = true) :
    ∃ a, x = .ok a ∧ p a = true := by
  cases x with
  | error e => cases h
  | ok a => exact ⟨a, rfl, h⟩

/-- What holds of the result of a computation, if there is one. -/
def Ensures {α : Type} (x : Except E α) (p : α → Prop) : Prop := ∀ a, x = .ok a → p a

instance decidableEnsures {α : Type} {x : Except E α} {p : α → Prop} [DecidablePred p] : Decidable (Ensures x p) :=
  match x with
  | .ok a => decidable_of_iff (p a) ⟨fun h _ heq => Except.ok.inj heq ▸ h, fun h => h a rfl⟩
  | .error _ => isTrue nofun

/-- A computation that does not end in one of the bad errors. -/
def Avoids {α : Type} (bad : E → Prop) (x : Except E α) : Prop := ∀ e, x = .error e → ¬bad e

section Avoids

variable {α β : Type} {bad : E → Prop}

@[simp] theorem avoids_ok (a : α) : Avoids bad (.ok a) := nofun

theorem avoids_error {e : E} : Avoids bad (.error e : Except E α) ↔ ¬bad e := by
  constructor
  · intro h
    exact h e rfl
  · rintro h e' ⟨⟩
    exact h

@[simp] theorem avoids_bind {x : Except E α} {f : α → Except E β} :
    Avoids bad (x >>= f) ↔ Avoids bad x ∧ ∀ a, x = .ok a → Avoids bad (f a) := by
  cases x with
  | error e => exact ⟨fun h => ⟨avoids_error.mpr (h e rfl), nofun⟩, fun h => avoids_error.mpr (h.1 e rfl)⟩
  | ok a =>
    constructor
    · intro h
      refine ⟨avoids_ok a, ?_⟩
      rintro b ⟨⟩
      exact h
    · intro h
      exact h.2 a rfl

@[simp] theorem avoids_ite {c : Prop} [Decidable c] {x y : Except E α} :
    Avoids bad (if c then x else y) ↔ (c → Avoids bad x) ∧ (¬c → Avoids bad y) := by
  by_cases hc : c
  · simp only [hc, if_true, forall_const, not_true, false_implies, and_true]
  · simp only [hc, if_false, forall_const, not_false_eq_true, false_implies, true_and]

end Avoids

/-- The state after a list of events. -/
def run (step : σ → ε → Except E σ) : σ → List ε → Except E σ
  | s, [] => .ok s
  | s, e :: es =>
    match step s e with
    | .ok s' => run step s' es
    | .error err => .error err

theorem run_cons_ok {step : σ → ε → Except E σ} {s s' : σ} {e : ε} (h : step s e = .ok s') (es : List ε) :
    run step s (e :: es) = run step s' es := by
  rw [run, h]

theorem run_append {step : σ → ε → Except E σ} {s s' : σ} {es : List ε} (h : run step s es = .ok s') (fs : List ε) :
    run step s (es ++ fs) = run step s' fs := by
  induction es generalizing s with
  | nil =>
    cases h
    rfl
  | cons e es ih =>
    rw [List.cons_append, run]
    rw [run] at h
    cases hstep : step s e with
    | error err =>
      rw [hstep] at h
      cases h
    | ok t =>
      rw [hstep] at h
      exact ih h

theorem ok_of_run_append {step : σ → ε → Except E σ} {s s' : σ} {es fs : List ε} (h : run step s (es ++ fs) = .ok s') :
    ∃ t, run step s es = .ok t ∧ run step t fs = .ok s' := by
  induction es generalizing s with
  | nil => exact ⟨s, rfl, h⟩
  | cons e es ih =>
    rw [List.cons_append, run] at h
    cases hstep : step s e with
    | error err =>
      rw [hstep] at h
      cases h
    | ok t =>
      rw [hstep] at h
      rw [run_cons_ok hstep]
      exact ih h

/-- Induction on the events so far, where the last step is taken from a state the earlier ones lead to. -/
theorem history_induction {step : σ → ε → Except E σ} {s : σ} {P : List ε → σ → Prop} (hnil : P [] s)
    (hstep : ∀ es t e t', run step s es = .ok t → P es t → step t e = .ok t' → P (es ++ [e]) t') {es : List ε} {t : σ}
    (hrun : run step s es = .ok t) : P es t := by
  induction es using List.reverseRecOn generalizing t with
  | nil =>
    cases hrun
    exact hnil
  | append_singleton es e ih =>
    obtain ⟨u, hes, hlast⟩ := ok_of_run_append hrun
    rw [run] at hlast
    cases hs : step u e with
    | error err =>
      rw [hs] at hlast
      cases hlast
    | ok t' =>
      rw [hs] at hlast
      cases hlast
      exact hstep es u e t hes (ih hes) hs

theorem run_map {γ : Type} (step : σ → ε → Except E σ) (f : γ → ε) (s : σ) (es : List γ) :
    run step s (es.map f) = run (fun s e => step s (f e)) s es := by
  induction es generalizing s with
  | nil => rfl
  | cons e es ih =>
    rw [List.map_cons, run, run]
    cases step s (f e) with
    | error err => rfl
    | ok t => exact ih t

/-- Every step of a run meets a condition on the event and on the state it is taken in. -/
def Along (step : σ → ε → Except E σ) (ok : σ → ε → Prop) : σ → List ε → Prop
  | _, [] => True
  | s, e :: es => ok s e ∧ ∀ s', step s e = .ok s' → Along step ok s' es

theorem along_cons_ok {step : σ → ε → Except E σ} {ok : σ → ε → Prop} {s s' : σ} {e : ε} {es : List ε}
    (h : step s e = .ok s') : Along step ok s (e :: es) ↔ ok s e ∧ Along step ok s' es := by
  rw [Along, h]
  refine and_congr_right fun _ => ⟨fun hall => hall s' rfl, fun hrest t ht => ?_⟩
  rwa [← Except.ok.inj ht]

theorem along_cons_error {step : σ → ε → Except E σ} {ok : σ → ε → Prop} {s : σ} {e : ε} {err : E} {es : List ε}
    (h : step s e = .error err) : Along step ok s (e :: es) ↔ ok s e := by
  rw [Along, h]
  exact and_iff_left nofun

theorem along_append {step : σ → ε → Except E σ} {ok : σ → ε → Prop} {s : σ} {es fs : List ε}
    (h : Along step ok s (es ++ fs)) :
    Along step ok s es ∧ ∀ t, run step s es = .ok t → Along step ok t fs := by
  induction es generalizing s with
  | nil =>
    refine ⟨trivial, fun t ht => ?_⟩
    cases ht
    exact h
  | cons e es ih =>
    refine ⟨⟨h.1, fun s' hs' => (ih (h.2 s' hs')).1⟩, fun t ht => ?_⟩
    rw [run] at ht
    cases hs : step s e with
    | error err =>
      rw [hs] at ht
      cases ht
    | ok s' =>
      rw [hs] at ht
      exact (ih (h.2 s' hs)).2 t ht

instance decidableAlong {step : σ → ε → Except E σ} {ok : σ → ε → Prop} [∀ s e, Decidable (ok s e)] :
    (s : σ) → (es : List ε) → Decidable (Along step ok s es)
  | _, [] => isTrue trivial
  | s, e :: es =>
    match h : step s e with
    | .ok s' =>
      have : Decidable (Along step ok s' es) := decidableAlong s' es
      decidable_of_iff _ (along_cons_ok h).symm
    | .error _ => decidable_of_iff _ (along_cons_error h).symm

theorem invariant_along {step : σ → ε → Except E σ} {ok : σ → ε → Prop} {I : σ → Prop}
    (hstep : ∀ s e s', I s → ok s e → step s e = .ok s' → I s') {s s' : σ} (hI : I s) {es : List ε}
    (hok : Along step ok s es) (hrun : run step s es = .ok s') : I s' := by
  induction es generalizing s with
  | nil =>
    cases hrun
    exact hI
  | cons e es ih =>
    rw [run] at hrun
    cases hs : step s e with
    | error err =>
      rw [hs] at hrun
      cases hrun
    | ok t =>
      rw [hs] at hrun
      exact ih (hstep s e t hI hok.1 hs) (hok.2 t hs) hrun

theorem along_true (step : σ → ε → Except E σ) (s : σ) (es : List ε) : Along step (fun _ _ => True) s es := by
  induction es generalizing s with
  | nil => trivial
  | cons e es ih => exact ⟨trivial, fun s' _ => ih s'⟩

/-- What every step preserves holds wherever a run leads. -/
theorem invariant {step : σ → ε → Except E σ} {I : σ → Prop} (hstep : ∀ s e s', I s → step s e = .ok s' → I s')
    {s s' : σ} (hI : I s) {es : List ε} (hrun : run step s es = .ok s') : I s' :=
  invariant_along (fun s e s' hs _ => hstep s e s' hs) hI (along_true step s es) hrun

/-- Where every step on an event that may come returns and keeps the invariant, so does every run of such events. -/
theorem total_on {step : σ → ε → Except E σ} {I : σ → Prop} {ok : ε → Prop}
    (hstep : ∀ s e, I s → ok e → ∃ s', step s e = .ok s' ∧ I s') {s : σ} (hI : I s) {es : List ε} (hok : ∀ e ∈ es, ok e) :
    ∃ s', run step s es = .ok s' ∧ I s' := by
  induction es generalizing s with
  | nil => exact ⟨s, rfl, hI⟩
  | cons e es ih =>
    obtain ⟨s₁, hs₁, hI₁⟩ := hstep s e hI (hok e List.mem_cons_self)
    obtain ⟨s', hrun, hI'⟩ := ih hI₁ fun f hf => hok f (List.mem_cons_of_mem _ hf)
    exact ⟨s', (run_cons_ok hs₁ es).trans hrun, hI'⟩

theorem total {step : σ → ε → Except E σ} {I : σ → Prop} (hstep : ∀ s e, I s → ∃ s', step s e = .ok s' ∧ I s') {s : σ}
    (hI : I s) (es : List ε) : ∃ s', run step s es = .ok s' ∧ I s' :=
  total_on (fun s e hs _ => hstep s e hs) hI fun _ _ => trivial

/-- No step of a run fails, and what holds of the first state holds of every state of the run. -/
def Always (step : σ → ε → Except E σ) (I : σ → Prop) : σ → List ε → Prop
  | s, [] => I s
  | s, e :: es => I s ∧ ∃ s', step s e = .ok s' ∧ Always step I s' es

/-- Where a step keeps the invariant if and only if it meets a condition, so does a run. What is known besides
of the state and the events to come need not be part of the invariant. -/
theorem always_iff_along_of {step : σ → ε → Except E σ} {I : σ → Prop} {ok : σ → ε → Prop} {J : σ → List ε → Prop}
    (hnext : ∀ s e es s', J s (e :: es) → step s e = .ok s' → J s' es)
    (hstep : ∀ s e es, J s (e :: es) → I s → ((∃ s', step s e = .ok s' ∧ I s') ↔ ok s e)) {s : σ} {es : List ε}
    (hJ : J s es) (hI : I s) : Always step I s es ↔ Along step ok s es := by
  induction es generalizing s with
  | nil => exact iff_of_true hI trivial
  | cons e es ih =>
    constructor
    · rintro ⟨-, s', hs, hrest⟩
      have hI' : I s' := by
        cases es with
        | nil => exact hrest
        | cons f fs => exact hrest.1
      have hok := (hstep s e es hJ hI).mp ⟨s', hs, hI'⟩
      exact (along_cons_ok hs).mpr ⟨hok, (ih (hnext s e es s' hJ hs) hI').mp hrest⟩
    · rintro ⟨hok, hrest⟩
      obtain ⟨s', hs, hI'⟩ := (hstep s e es hJ hI).mpr hok
      exact ⟨hI, s', hs, (ih (hnext s e es s' hJ hs) hI').mpr (hrest s' hs)⟩

theorem always_iff_along {step : σ → ε → Except E σ} {I : σ → Prop} {ok : σ → ε → Prop}
    (hstep : ∀ s e, I s → ((∃ s', step s e = .ok s' ∧ I s') ↔ ok s e)) {s : σ} (hI : I s) (es : List ε) :
    Always step I s es ↔ Along step ok s es :=
  always_iff_along_of (J := fun _ _ => True) (fun _ _ _ _ _ _ => trivial) (fun s e _ _ => hstep s e) trivial hI

/-- Every step of a run of a system that cannot fail meets a condition on the event and on the state it is
taken in. -/
def Follows (next : τ → ε → τ) (ok : τ → ε → Prop) : τ → List ε → Prop
  | _, [] => True
  | t, e :: es => ok t e ∧ Follows next ok (next t e) es

instance decidableFollows {next : τ → ε → τ} {ok : τ → ε → Prop} [∀ t e, Decidable (ok t e)] :
    (t : τ) → (es : List ε) → Decidable (Follows next ok t es)
  | _, [] => isTrue trivial
  | t, e :: es =>
    have : Decidable (Follows next ok (next t e) es) := decidableFollows (next t e) es
    inferInstanceAs (Decidable (ok t e ∧ _))

/-- A run simulated by a system that has a next state for every event, where its own state says which events
may come: the run does not fail, and the simulation holds at its end. -/
theorem simulate_follows {step : σ → ε → Except E σ} {next : τ → ε → τ} {R : σ → τ → Prop} {ok : τ → ε → Prop}
    (hstep : ∀ s t e, R s t → ok t e → ∃ s', step s e = .ok s' ∧ R s' (next t e)) {s : σ} {t : τ} (hR : R s t)
    {es : List ε} (hok : Follows next ok t es) : ∃ s', run step s es = .ok s' ∧ R s' (es.foldl next t) := by
  induction es generalizing s t with
  | nil => exact ⟨s, rfl, hR⟩
  | cons e es ih =>
    obtain ⟨s₁, hs₁, hR₁⟩ := hstep s t e hR hok.1
    obtain ⟨s', hrun, hR'⟩ := ih hR₁ hok.2
    exact ⟨s', (run_cons_ok hs₁ es).trans hrun, hR'⟩

theorem follows_of_forall {next : τ → ε → τ} {ok : ε → Prop} {es : List ε} (h : ∀ e ∈ es, ok e) (t : τ) :
    Follows next (fun _ => ok) t es := by
  induction es generalizing t with
  | nil => trivial
  | cons e es ih => exact ⟨h e List.mem_cons_self, ih (fun f hf => h f (List.mem_cons_of_mem _ hf)) (next t e)⟩

/-- The same where the events alone say whether they may come. -/
theorem simulate {step : σ → ε → Except E σ} {next : τ → ε → τ} {R : σ → τ → Prop} {ok : ε → Prop}
    (hstep : ∀ s t e, R s t → ok e → ∃ s', step s e = .ok s' ∧ R s' (next t e)) {s : σ} {t : τ} (hR : R s t)
    {es : List ε} (hok : ∀ e ∈ es, ok e) : ∃ s', run step s es = .ok s' ∧ R s' (es.foldl next t) :=
  simulate_follows hstep hR (follows_of_forall hok t)

end Run
