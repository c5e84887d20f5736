import Mathlib.Order.Defs.Unbundled

/-! Running programs of `EStateM ε σ`: what a sequence does once its first part is known, and pre- and
    postconditions with a condition for the states in which a run may be cut short by an `ε`. -/

namespace Exec
variable {ε σ α β : Type}

@[simp] theorem pure_apply (a : α) (s : σ) : (pure a : EStateM ε σ α) s = .ok a s := rfl
@[simp] theorem get_apply (s : σ) : (get : EStateM ε σ σ) s = .ok s s := rfl
@[simp] theorem set_apply (t s : σ) : (set t : EStateM ε σ PUnit) s = .ok ⟨⟩ t := rfl
@[simp] theorem modify_apply (f : σ → σ) (s : σ) : (modify f : EStateM ε σ PUnit) s = .ok ⟨⟩ (f s) := rfl
@[simp] theorem throw_apply (e : ε) (s : σ) : (throw e : EStateM ε σ α) s = .error e s := rfl

theorem bind_apply (m : EStateM ε σ α) (f : α → EStateM ε σ β) (s : σ) :
    (m >>= f) s = match m s with
      | .ok a t => f a t
      | .error e t => .error e t := rfl

/-- A sequence goes on from where its first part ended. --/
theorem bind_ok {m : EStateM ε σ α} {f : α → EStateM ε σ β} {s t : σ} {a : α} (h : m s = .ok a t) :
    (m >>= f) s = f a t := by
  rw [bind_apply, h]

theorem bind_error {m : EStateM ε σ α} {f : α → EStateM ε σ β} {s t : σ} {e : ε} (h : m s = .error e t) :
    (m >>= f) s = .error e t := by
  rw [bind_apply, h]

/-- A sequence goes on in the same way from first parts that end in the same way. --/
theorem bind_congr_at {m n : EStateM ε σ α} {s : σ} (h : m s = n s) (f : α → EStateM ε σ β) : (m >>= f) s = (n >>= f) s := by
  rw [bind_apply, bind_apply, h]

/-- A sequence that returns is two parts that do. --/
theorem bind_eq_ok {m : EStateM ε σ α} {f : α → EStateM ε σ β} {s t : σ} {b : β} :
    (m >>= f) s = .ok b t ↔ ∃ a u, m s = .ok a u ∧ f a u = .ok b t := by
  rw [bind_apply]
  cases m s with
  | ok a u =>
    refine ⟨fun h => ⟨a, u, rfl, h⟩, ?_⟩
    rintro ⟨a', u', hm, h⟩
    cases hm
    exact h
  | error e u => exact ⟨nofun, fun ⟨_, _, hm, _⟩ => nomatch hm⟩

/-- A sequence that is cut short is cut short in its first part, or after it. --/
theorem bind_eq_error {m : EStateM ε σ α} {f : α → EStateM ε σ β} {s t : σ} {e : ε} :
    (m >>= f) s = .error e t ↔ m s = .error e t ∨ ∃ a u, m s = .ok a u ∧ f a u = .error e t := by
  rw [bind_apply]
  cases m s with
  | ok a u =>
    refine ⟨fun h => Or.inr ⟨a, u, rfl, h⟩, ?_⟩
    rintro (h | ⟨a', u', hm, h⟩)
    · cases h
    · cases hm
      exact h
  | error e' u =>
    refine ⟨fun h => Or.inl (by cases h; rfl), ?_⟩
    rintro (h | ⟨a', u', hm, -⟩)
    · cases h
      rfl
    · cases hm

/-- What evaluates to a value returns it. --/
theorem of_run' {m : EStateM ε σ α} {s : σ} {a : α} (h : m.run' s = some a) : ∃ t, m s = .ok a t := by
  unfold EStateM.run' EStateM.run at h
  split at h
  · rename_i t hr
    cases h
    exact ⟨t, hr⟩
  · cases h

/-- From `s` the run of `m` returns with `Q` or is cut short with `E`. --/
def Meets (m : EStateM ε σ α) (s : σ) (Q : α → σ → Prop) (E : ε → σ → Prop) : Prop :=
  match m s with
  | .ok a t => Q a t
  | .error e t => E e t

/-- The state a run leaves, whether it returned or was cut short. --/
def final : EStateM.Result ε σ α → σ
  | .ok _ s => s
  | .error _ s => s

@[simp] theorem final_ok (a : α) (s : σ) : final (.ok a s : EStateM.Result ε σ α) = s := rfl
@[simp] theorem final_error (e : ε) (s : σ) : final (.error e s : EStateM.Result ε σ α) = s := rfl

/-- Packing the result of a run does not change the state it leaves. --/
theorem final_bind_pure (m : EStateM ε σ α) (g : α → β) (s : σ) :
    final ((m >>= fun a => pure (g a)) s) = final (m s) := by
  rw [bind_apply]
  cases m s <;> rfl

section Rules
variable {m : EStateM ε σ α} {f : α → EStateM ε σ β} {s t : σ} {a : α} {e : ε}
  {Q R : α → σ → Prop} {P : β → σ → Prop} {E F : ε → σ → Prop}

theorem meets_of_ok (h : m s = .ok a t) (q : Q a t) : Meets m s Q E := by
  unfold Meets
  rw [h]
  exact q

theorem Meets.of_eq {n : EStateM ε σ α} (h : Meets n t Q E) (he : m s = n t) : Meets m s Q E := by
  unfold Meets
  rw [he]
  exact h

theorem Meets.ok (h : Meets m s Q E) (hr : m s = .ok a t) : Q a t := by
  unfold Meets at h
  rw [hr] at h
  exact h

/-- The rule of sequences. --/
theorem Meets.bind (h : Meets m s R E) (k : ∀ a t, R a t → Meets (f a) t P E) : Meets (m >>= f) s P E := by
  unfold Meets at h k ⊢
  rw [bind_apply]
  cases hm : m s with
  | ok a t =>
    rw [hm] at h
    exact k a t h
  | error e t =>
    rw [hm] at h
    exact h

/-- A sequence whose first part is known to return. --/
theorem meets_bind_ok {f : α → EStateM ε σ β} (h : m s = .ok a t) (k : Meets (f a) t P E) : Meets (m >>= f) s P E := by
  unfold Meets
  rw [bind_ok h]
  exact k

theorem meets_get_bind {g : σ → EStateM ε σ β} (h : Meets (g s) s P E) : Meets (get >>= g) s P E := h

theorem Meets.mono (h : Meets m s Q E) (hQ : ∀ a t, Q a t → R a t) (hE : ∀ e t, E e t → F e t) : Meets m s R F := by
  unfold Meets at h ⊢
  cases hm : m s with
  | ok a t =>
    rw [hm] at h
    exact hQ a t h
  | error e t =>
    rw [hm] at h
    exact hE e t h

/-- What `m` returns with is also known to be what it returns. --/
theorem Meets.run (h : Meets m s Q E) : Meets m s (fun a t => m s = .ok a t ∧ Q a t) E := by
  unfold Meets at h ⊢
  cases hm : m s with
  | ok a t =>
    rw [hm] at h
    exact ⟨rfl, h⟩
  | error e t =>
    rw [hm] at h
    exact h

/-- A run that cannot be cut short returns. --/
theorem Meets.returns (h : Meets m s Q E) (hE : ∀ e t, ¬E e t) : ∃ a t, m s = .ok a t ∧ Q a t := by
  unfold Meets at h
  cases hm : m s with
  | ok a t =>
    rw [hm] at h
    exact ⟨a, t, rfl, h⟩
  | error e t =>
    rw [hm] at h
    exact absurd h (hE e t)

/-- What holds of every way a run can end holds of the state it leaves. --/
theorem Meets.final {P : σ → Prop} (h : Meets m s Q E) (hQ : ∀ a t, Q a t → P t) (hE : ∀ e t, E e t → P t) :
    P (final (m s)) := by
  unfold Meets at h
  cases hm : m s with
  | ok a t =>
    rw [hm] at h
    exact hQ a t h
  | error e t =>
    rw [hm] at h
    exact hE e t h

end Rules

section Seen
variable {ε' τ γ δ : Type}

/-- A result with the state, the error and what is returned each seen through a function. --/
def mapResult (p : σ → τ) (k : ε → ε') (g : α → β) : EStateM.Result ε σ α → EStateM.Result ε' τ β
  | .ok a s => .ok (g a) (p s)
  | .error e s => .error (k e) (p s)

/-- A sequence looks like another where its parts do. --/
theorem mapResult_bind {p : σ → τ} {k : ε → ε'} {g : α → γ} {g' : β → δ} {m : EStateM ε σ α} {m' : EStateM ε' τ γ}
    {f : α → EStateM ε σ β} {f' : γ → EStateM ε' τ δ} {s : σ} (h : m' (p s) = mapResult p k g (m s))
    (hf : ∀ a t, f' (g a) (p t) = mapResult p k g' (f a t)) : (m' >>= f') (p s) = mapResult p k g' ((m >>= f) s) := by
  rw [bind_apply, bind_apply, h]
  cases m s with
  | ok a t => exact hf a t
  | error e t => rfl

end Seen

section Ended
variable {ε' : Type}

/-- What a run that succeeded returned, and its last state. --/
def succeeded : EStateM.Result ε σ (Except ε' α) → Option (α × σ)
  | .ok (.ok a) s => some (a, s)
  | .ok (.error _) _ => none
  | .error _ _ => none

/-- The error that a run returned, and its last state. --/
def failed : EStateM.Result ε σ (Except ε' α) → Option (ε' × σ)
  | .ok (.error e) s => some (e, s)
  | .ok (.ok _) _ => none
  | .error _ _ => none

/-- What cut a run short. --/
def cutShort : EStateM.Result ε σ α → Option ε
  | .ok _ _ => none
  | .error e _ => some e

theorem of_succeeded {r : EStateM.Result ε σ (Except ε' α)} {a : α} {s : σ} (h : succeeded r = some (a, s)) :
    r = .ok (.ok a) s := by
  rcases r with ⟨_ | _, _⟩ | ⟨_, _⟩ <;> cases h
  rfl

theorem of_failed {r : EStateM.Result ε σ (Except ε' α)} {e : ε'} {s : σ} (h : failed r = some (e, s)) :
    r = .ok (.error e) s := by
  rcases r with ⟨_ | _, _⟩ | ⟨_, _⟩ <;> cases h
  rfl

theorem of_cutShort {r : EStateM.Result ε σ α} {e : ε} (h : cutShort r = some e) : ∃ s, r = .error e s := by
  rcases r with ⟨_, _⟩ | ⟨_, s⟩ <;> cases h
  exact ⟨s, rfl⟩

end Ended

/-- Every run of `m`, returning or cut short, leaves a state that `R` relates to the one in which it began. --/
def Stays (R : σ → σ → Prop) (m : EStateM ε σ α) : Prop := ∀ s, R s (final (m s))

namespace Stays
variable {R R' : σ → σ → Prop} {m m' : EStateM ε σ α} {f : α → EStateM ε σ β}

theorem mono (h : Stays R m) (hR : ∀ s t, R s t → R' s t) : Stays R' m := fun s => hR s _ (h s)

theorem of_ok {s t : σ} {a : α} (h : Stays R m) (hr : m s = .ok a t) : R s t := by
  have hs := h s
  rwa [hr] at hs

theorem get_bind {f : σ → EStateM ε σ α} (hf : ∀ s, Stays R (f s)) : Stays R (get >>= f) := fun s => hf s s

theorem modify {f : σ → σ} (hf : ∀ s, R s (f s)) : Stays R (modify f : EStateM ε σ PUnit) := hf

theorem ite {p : Prop} [Decidable p] (hm : Stays R m) (hm' : Stays R m') : Stays R (if p then m else m') := by
  split
  · exact hm
  · exact hm'

variable [IsPreorder σ R]

theorem pure (a : α) : Stays R (Pure.pure a : EStateM ε σ α) := Std.Refl.refl

theorem throw (e : ε) : Stays R (throw e : EStateM ε σ α) := Std.Refl.refl

theorem throw_bind (e : ε) {f : α → EStateM ε σ β} : Stays R (MonadExcept.throw e >>= f) := Std.Refl.refl

theorem bind (hm : Stays R m) (hf : ∀ a, Stays R (f a)) : Stays R (m >>= f) := by
  intro s
  have h := hm s
  rw [bind_apply]
  cases hr : m s with
  | error e t =>
    rw [hr] at h
    exact h
  | ok a t =>
    rw [hr] at h
    exact IsTrans.trans _ _ _ h (hf a t)

end Stays

/-- Every run of `m` that returns some `a` adds at least `n a` to what `μ` measures. --/
def Gains (μ : σ → Int) (n : α → Int) (m : EStateM ε σ α) : Prop := ∀ s t a, m s = .ok a t → μ s + n a ≤ μ t

namespace Gains
variable {μ : σ → Int} {n k : α → Int} {l : β → Int} {m m' : EStateM ε σ α} {f : α → EStateM ε σ β}

theorem mono (h : Gains μ n m) (hk : ∀ a, k a ≤ n a) : Gains μ k m := fun s t a hr => by
  have := h s t a hr
  have := hk a
  omega

theorem bind (hm : Gains μ n m) (hf : ∀ a, Gains μ (fun b => l b - n a) (f a)) : Gains μ l (m >>= f) := by
  intro s t b hr
  obtain ⟨a, u, hu, ht⟩ := bind_eq_ok.mp hr
  have h₁ := hm s u a hu
  have h₂ : μ u + (l b - n a) ≤ μ t := hf a u t b ht
  omega

theorem pure {a : α} (h : n a ≤ 0) : Gains μ n (Pure.pure a : EStateM ε σ α) := by
  intro s t b hr
  cases hr
  omega

theorem throw (e : ε) : Gains μ n (MonadExcept.throw e : EStateM ε σ α) := fun _ _ _ hr => nomatch hr

theorem get_bind {f : σ → EStateM ε σ α} (hf : ∀ s, Gains μ n (f s)) : Gains μ n (get >>= f) := fun s t a hr => hf s s t a hr

theorem ite {p : Prop} [Decidable p] (hm : Gains μ n m) (hm' : Gains μ n m') : Gains μ n (if p then m else m') := by
  split
  · exact hm
  · exact hm'

/-- What is not changed is not less. --/
theorem of_stays (h : Stays (fun s t => μ t = μ s) m) (hn : ∀ a, n a ≤ 0) : Gains μ n m := fun s t a hr => by
  have : μ t = μ s := h.of_ok hr
  have := hn a
  omega

end Gains

/-- A run of `step` taken again and again leads from one stage to another. --/
inductive Steps (step : α → EStateM ε σ α) : α → σ → α → σ → Prop where
  | refl (a : α) (s : σ) : Steps step a s a s
  | step {a b c : α} {s t u : σ} (h : step a s = .ok b t) (rest : Steps step b t c u) : Steps step a s c u

namespace Steps
variable {step : α → EStateM ε σ α} {a b c : α} {s t u : σ}

theorem one (h : step a s = .ok b t) : Steps step a s b t := .step h (.refl b t)

theorem trans (h : Steps step a s b t) (h' : Steps step b t c u) : Steps step a s c u := by
  induction h with
  | refl => exact h'
  | step hs _ ih => exact .step hs (ih h')

/-- Where each step is one of another machine, so is each run. --/
theorem map {step' : β → EStateM ε σ β} {g : α → β} {P : α → Prop}
    (hs : ∀ a s b t, P a → step a s = .ok b t → step' (g a) s = .ok (g b) t)
    (hend : ∀ a s b t, ¬P a → step a s = .ok b t → b = a ∧ t = s) (h : Steps step a s b t) :
    Steps step' (g a) s (g b) t := by
  induction h with
  | refl => exact .refl _ _
  | @step a b c s t u hab _ ih =>
    by_cases ha : P a
    · exact .step (hs a s b t ha hab) ih
    · obtain ⟨rfl, rfl⟩ := hend a s b t ha hab
      exact ih

end Steps

end Exec
