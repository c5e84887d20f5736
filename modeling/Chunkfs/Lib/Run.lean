import Mathlib.Logic.Basic

/-! Runs of a machine whose steps are partial functions on its states: an event that is not possible in a state
    has no step there. -/

namespace Run
variable {σ ε : Type}

/-- The state after a list of events, if each was possible. --/
def run (step : σ → ε → Option σ) : σ → List ε → Option σ
  | s, [] => some s
  | s, e :: es => (step s e).bind (run step · es)

/-- `P` in every state a run passes through, and `R` of every step it takes. --/
def Always (step : σ → ε → Option σ) (P : σ → Prop) (R : σ → ε → Prop) : σ → List ε → Prop
  | s, [] => P s
  | s, e :: es => P s ∧ R s e ∧ ∀ t, step s e = some t → Always step P R t es

/-- `Q` of every event, in the state in which it comes. --/
def Each (step : σ → ε → Option σ) (Q : σ → ε → Prop) : σ → List ε → Prop
  | _, [] => True
  | s, e :: es => Q s e ∧ ∀ t, step s e = some t → Each step Q t es

instance decidableEach {step : σ → ε → Option σ} {Q : σ → ε → Prop} [∀ s e, Decidable (Q s e)] :
    ∀ s es, Decidable (Each step Q s es)
  | _, [] => isTrue trivial
  | s, e :: es =>
    match h : step s e with
    | none => decidable_of_iff (Q s e) ⟨fun hq => ⟨hq, fun t ht => by rw [h] at ht; cases ht⟩, fun hq => hq.1⟩
    | some t =>
      have : Decidable (Each step Q t es) := decidableEach t es
      decidable_of_iff (Q s e ∧ Each step Q t es)
        ⟨fun hq => ⟨hq.1, fun u hu => by rw [h] at hu; cases hu; exact hq.2⟩, fun hq => ⟨hq.1, hq.2 t h⟩⟩

section Rules
variable {step : σ → ε → Option σ} {P I : σ → Prop} {R Q : σ → ε → Prop} {s t : σ} {e : ε} {es : List ε}

theorem run_cons (h : (run step s (e :: es)).isSome) : ∃ t, step s e = some t ∧ (run step t es).isSome := by
  cases hs : step s e with
  | none =>
    rw [run, hs] at h
    cases h
  | some t =>
    rw [run, hs] at h
    exact ⟨t, rfl, h⟩

/-- The last state of a run is one it passes through. --/
theorem Always.last (ha : Always step P R s es) (h : run step s es = some t) : P t := by
  induction es generalizing s with
  | nil =>
    cases h
    exact ha
  | cons e es ih =>
    obtain ⟨u, hu, hrest⟩ := Option.bind_eq_some_iff.mp h
    exact ih (ha.2.2 u hu) hrest

/-- What every good event preserves and every state needs holds along runs of good events. --/
theorem always_of_each (hI : ∀ s, I s → P s)
    (hkeep : ∀ s e, I s → Q s e → R s e ∧ ∀ t, step s e = some t → I t) (hs : I s) (hq : Each step Q s es) :
    Always step P R s es := by
  induction es generalizing s with
  | nil => exact hI s hs
  | cons e es ih =>
    obtain ⟨hr, hnext⟩ := hkeep s e hs hq.1
    exact ⟨hI s hs, hr, fun t ht => ih (hnext t ht) (hq.2 t ht)⟩

/-- Where besides no other event leaves what is wanted, the good runs are those of good events. --/
theorem always_iff_each (hI : ∀ s, I s → P s)
    (hkeep : ∀ s e, I s → Q s e → R s e ∧ ∀ t, step s e = some t → I t)
    (hbad : ∀ s e t, I s → step s e = some t → R s e → P t → Q s e) (hs : I s) (hrun : (run step s es).isSome) :
    Always step P R s es ↔ Each step Q s es := by
  refine ⟨fun ha => ?_, always_of_each hI hkeep hs⟩
  induction es generalizing s with
  | nil => exact trivial
  | cons e es ih =>
    obtain ⟨t, ht, hrest⟩ := run_cons hrun
    obtain ⟨-, hr, hnext⟩ := ha
    have hlater := hnext t ht
    have hp : P t := by
      cases es with
      | nil => exact hlater
      | cons => exact hlater.1
    have hq := hbad s e t hs ht hr hp
    refine ⟨hq, fun u hu => ?_⟩
    rw [ht] at hu
    cases hu
    exact ih ((hkeep s e hs hq).2 t ht) hrest hlater

theorem each_and {Q' : σ → ε → Prop} :
    Each step (fun s e => Q s e ∧ Q' s e) s es ↔ Each step Q s es ∧ Each step Q' s es := by
  induction es generalizing s with
  | nil => exact ⟨fun _ => ⟨trivial, trivial⟩, fun _ => trivial⟩
  | cons e es ih =>
    constructor
    · rintro ⟨⟨hq, hq'⟩, h⟩
      exact ⟨⟨hq, fun t ht => (ih.mp (h t ht)).1⟩, hq', fun t ht => (ih.mp (h t ht)).2⟩
    · rintro ⟨⟨hq, h⟩, hq', h'⟩
      exact ⟨⟨hq, hq'⟩, fun t ht => ih.mpr ⟨h t ht, h' t ht⟩⟩

/-- What holds of the states and what holds of the steps. --/
theorem always_and_each : Always step P R s es ↔ Always step P (fun _ _ => True) s es ∧ Each step R s es := by
  induction es generalizing s with
  | nil => exact ⟨fun h => ⟨h, trivial⟩, fun h => h.1⟩
  | cons e es ih =>
    constructor
    · rintro ⟨hp, hr, h⟩
      exact ⟨⟨hp, trivial, fun t ht => (ih.mp (h t ht)).1⟩, hr, fun t ht => (ih.mp (h t ht)).2⟩
    · rintro ⟨⟨hp, -, h⟩, hr, h'⟩
      exact ⟨hp, hr, fun t ht => ih.mpr ⟨h t ht, h' t ht⟩⟩

theorem each_of_forall (h : ∀ e ∈ es, ∀ s, Q s e) : Each step Q s es := by
  induction es generalizing s with
  | nil => exact trivial
  | cons e es ih =>
    rw [List.forall_mem_cons] at h
    exact ⟨h.1 s, fun t _ => ih h.2⟩

/-- A condition on the events alone is one on the members of the list. --/
theorem each_iff_forall {q : ε → Prop} (hrun : (run step s es).isSome) :
    Each step (fun _ e => q e) s es ↔ ∀ e ∈ es, q e := by
  induction es generalizing s with
  | nil => exact ⟨fun _ e he => absurd he List.not_mem_nil, fun _ => trivial⟩
  | cons e es ih =>
    obtain ⟨t, ht, hrest⟩ := run_cons hrun
    rw [List.forall_mem_cons, ← ih hrest]
    refine ⟨fun h => ⟨h.1, h.2 t ht⟩, fun h => ⟨h.1, fun u hu => ?_⟩⟩
    rw [ht] at hu
    cases hu
    exact h.2

end Rules

end Run
