import CustomRedis.Lib.Run

/-!
# Two computations side by side

Two computations agree up to a relation if they end in the same fault or return related results. Agreement goes through
a sequence of steps, and from one event to the next through a run. The last rule is about a part of the events that one
observer cannot tell from nothing: the run without them looks the same to the observer.
-/

namespace Run

variable {α β α' β' E : Type}

inductive Agree (R : α → β → Prop) : Except E α → Except E β → Prop
  | ok {a : α} {b : β} (h : R a b) : Agree R (.ok a) (.ok b)
  | error (e : E) : Agree R (.error e) (.error e)

theorem agree_refl (x : Except E α) : Agree (· = ·) x x := by
  cases x with
  | ok a => exact .ok rfl
  | error e => exact .error e

theorem Agree.bind {R : α → β → Prop} {S : α' → β' → Prop} {x : Except E α} {y : Except E β} {f : α → Except E α'}
    {g : β → Except E β'} (h : Agree R x y) (hf : ∀ a b, R a b → Agree S (f a) (g b)) : Agree S (x >>= f) (y >>= g) := by
  cases h with
  | ok h => exact hf _ _ h
  | error e => exact .error e

/-- Two sequences that begin with the same computation. -/
theorem agree_bind_same {S : α' → β' → Prop} (x : Except E α) {f : α → Except E α'} {g : α → Except E β'}
    (hf : ∀ a, Agree S (f a) (g a)) : Agree S (x >>= f) (x >>= g) := by
  refine (agree_refl x).bind fun a b hab => ?_
  rw [← hab]
  exact hf a

theorem Agree.mono {R S : α → β → Prop} {x : Except E α} {y : Except E β} (h : Agree R x y) (hRS : ∀ a b, R a b → S a b) :
    Agree S x y := by
  cases h with
  | ok h => exact .ok (hRS _ _ h)
  | error e => exact .error e

theorem Agree.map_eq {γ : Type} {R : α → β → Prop} {x : Except E α} {y : Except E β} (h : Agree R x y) {f : α → γ} {g : β → γ}
    (hfg : ∀ a b, R a b → f a = g b) : x.map f = y.map g := by
  cases h with
  | ok h => exact congrArg Except.ok (hfg _ _ h)
  | error e => rfl

theorem agree_ite {R : α → β → Prop} {c : Prop} [Decidable c] {x x' : Except E α} {y y' : Except E β}
    (h : c → Agree R x y) (h' : ¬c → Agree R x' y') : Agree R (if c then x else x') (if c then y else y') := by
  by_cases hc : c
  · rw [if_pos hc, if_pos hc]
    exact h hc
  · rw [if_neg hc, if_neg hc]
    exact h' hc

theorem Agree.exists_ok {R : α → β → Prop} {a : α} {y : Except E β} (h : Agree R (.ok a) y) : ∃ b, y = .ok b ∧ R a b := by
  cases h with
  | ok h => exact ⟨_, rfl, h⟩

variable {σ τ ε : Type} {step : σ → ε → Except E σ} {step' : τ → ε → Except E τ} {R : σ → τ → Prop} {shown : ε → Bool}
  {ok : σ → ε → Prop}

/-- If the events that are shown keep the relation, and the others change nothing that the relation sees, the run of the
events that are shown ends in a related state. -/
theorem run_purge (hshown : ∀ s t e, R s t → shown e = true → Agree R (step s e) (step' t e))
    (hhidden : ∀ s t e s', R s t → ok s e → shown e = false → step s e = .ok s' → R s' t) {s s' : σ} {t : τ} (hR : R s t)
    {es : List ε} (hok : Along step ok s es) (hrun : run step s es = .ok s') :
    ∃ t', run step' t (es.filter shown) = .ok t' ∧ R s' t' := by
  induction es generalizing s t with
  | nil =>
    cases hrun
    exact ⟨t, rfl, hR⟩
  | cons e es ih =>
    rw [run] at hrun
    cases hs : step s e with
    | error err =>
      rw [hs] at hrun
      cases hrun
    | ok s₁ =>
      rw [hs] at hrun
      have hrest := (along_cons_ok hs).mp hok
      cases he : shown e with
      | false =>
        rw [List.filter_cons_of_neg (by rw [he]; exact Bool.false_ne_true)]
        exact ih (hhidden s t e s₁ hR hrest.1 he hs) hrest.2 hrun
      | true =>
        obtain ⟨t₁, ht₁, hR₁⟩ := Agree.exists_ok (hs ▸ hshown s t e hR he)
        obtain ⟨t', hrun', hR'⟩ := ih hR₁ hrest.2 hrun
        rw [List.filter_cons_of_pos he]
        exact ⟨t', (run_cons_ok ht₁ _).trans hrun', hR'⟩

end Run
