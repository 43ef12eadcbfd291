import GemStaging.Effect
import Mathlib.Order.Defs.Unbundled

/-!
Reasoning about effects. A sequence succeeds exactly where each part does (`bind_eq_ok_iff`), and
what every part keeps, the sequence keeps: `Moves R r e` says that at the place `r` the
computation `e` takes each state to one that it is related to, whether it succeeds or fails.
-/

namespace GemStaging.Effect

variable {ρ σ τ ε φ α β : Type}

theorem except_bind_eq_ok_iff {x : Except ε α} {f : α → Except ε β} {b : β} :
    x >>= f = .ok b ↔ ∃ a, x = .ok a ∧ f a = .ok b := by
  cases x <;> simp [bind, Except.bind]

section Results
variable {e : Effect ρ σ ε α} {f : α → Effect ρ σ ε β} {r : ρ} {s s' : σ}

theorem ok_inj {x y : α} (h : ((.ok x : Except ε α), s) = (.ok y, s')) : x = y ∧ s = s' := by
  simpa using h

theorem ne_error_of_ok {x : α} {c : ε} {t : σ} (h : e r s = (.ok x, s')) :
    e r s ≠ (.error c, t) := by
  simp [h]

theorem bind_eq_ok_iff {y : β} :
    (e >>= f) r s = (.ok y, s') ↔ ∃ x t, e r s = (.ok x, t) ∧ f x r t = (.ok y, s') := by
  rw [bind_apply]
  constructor
  · intro h
    split at h
    · rename_i x t ht
      exact ⟨x, t, ht, h⟩
    · simp at h
  · rintro ⟨x, t, ht, h⟩
    rw [ht]
    exact h

theorem bind_eq_error_iff {c : ε} :
    (e >>= f) r s = (.error c, s') ↔
      e r s = (.error c, s') ∨ ∃ x t, e r s = (.ok x, t) ∧ f x r t = (.error c, s') := by
  rw [bind_apply]
  cases h : e r s with
  | mk x t => cases x <;> simp [and_assoc]

theorem mapError_eq_error_iff {g : ε → φ} {c : φ} :
    e.mapError g r s = (.error c, s') ↔ ∃ b, e r s = (.error b, s') ∧ g b = c := by
  simp only [mapError]
  split <;> rename_i h <;> simp [h, and_assoc, and_comm]

theorem mapError_eq_ok_iff {g : ε → φ} {x : α} :
    e.mapError g r s = (.ok x, s') ↔ e r s = (.ok x, s') := by
  simp only [mapError]
  split <;> rename_i h <;> simp [h]

theorem fst_mapError (g : ε → φ) : (e.mapError g r s).1 = (e r s).1.mapError g := by
  simp only [mapError]
  cases e r s with
  | mk x t => cases x <;> rfl

theorem snd_mapError (g : ε → φ) : (e.mapError g r s).2 = (e r s).2 := by
  simp only [mapError]
  split <;> rename_i h <;> simp [h]

theorem snd_bind_pure (g : α → β) : ((e >>= fun x => Pure.pure (g x)) r s).2 = (e r s).2 := by
  rw [bind_apply]
  cases e r s with
  | mk x s' => cases x <;> rfl

/-- After a first part that changes nothing, the results follow as they would without a state. -/
theorem fst_bind_of_still {x : Except ε α} (h : e r s = (x, s)) :
    ((e >>= f) r s).1 = x >>= fun y => (f y r s).1 := by
  rw [bind_apply, h]
  cases x <;> rfl

theorem bind_assoc {γ : Type} (e : Effect ρ σ ε α) (f : α → Effect ρ σ ε β)
    (g : β → Effect ρ σ ε γ) : (e >>= f) >>= g = e >>= fun x => f x >>= g := by
  funext r s
  cases he : e r s with
  | mk x t =>
    cases x with
    | ok x =>
      have hf : (e >>= f) r s = f x r t := bind_apply_ok he
      rw [bind_apply_ok he, bind_apply, hf]
      rfl
    | error c => rw [bind_apply_error he, bind_apply_error (bind_apply_error he)]

theorem error_or_ok (e : Effect ρ σ ε α) (r : ρ) (s : σ) :
    (∃ c t, e r s = (.error c, t)) ∨ ∃ x t, e r s = (.ok x, t) := by
  cases h : e r s with
  | mk x t =>
    cases x with
    | error c => exact .inl ⟨c, t, rfl⟩
    | ok x => exact .inr ⟨x, t, rfl⟩

theorem attempt_apply : (e.attempt : Effect ρ σ φ _) r s = (.ok (e r s).1, (e r s).2) := rfl

theorem attempt_of_eq {x : Except ε α} (h : e r s = (x, s')) :
    (e.attempt : Effect ρ σ φ _) r s = (.ok x, s') := by
  rw [attempt_apply, h]

theorem onPart_apply {get : σ → τ} {put : τ → σ → σ} {e : Effect ρ τ ε α} :
    e.onPart get put r s = ((e r (get s)).1, put (e r (get s)).2 s) := rfl

end Results

/-- Whatever the state, the computation takes it to one that it is related to. -/
def Moves (R : σ → σ → Prop) (r : ρ) (e : Effect ρ σ ε α) : Prop :=
  ∀ s, R s (e r s).2

theorem Moves.of_eq {R : σ → σ → Prop} {r : ρ} {e : Effect ρ σ ε α} (h : Moves R r e)
    {s s' : σ} {x : Except ε α} (he : e r s = (x, s')) : R s s' := by
  have hs := h s
  rwa [he] at hs

/-- A sequence moves the state as it moves it where its first part succeeds, and as that part does
elsewhere. -/
theorem Moves.bind_from {R : σ → σ → Prop} {r : ρ} {e : Effect ρ σ ε α} {f : α → Effect ρ σ ε β}
    (he : Moves R r e) (hf : ∀ s x t, e r s = (.ok x, t) → R s (f x r t).2) :
    Moves R r (e >>= f) := by
  intro s
  rw [bind_apply]
  have hs := he s
  split
  · rename_i x t ht
    exact hf s x t ht
  · rename_i c t ht
    rwa [ht] at hs

instance {f : τ → σ} {R : σ → σ → Prop} [IsPreorder σ R] : IsPreorder τ (InvImage R f) where
  refl _ := refl_of R _
  trans _ _ _ h h' := trans_of R h h'

instance : IsPreorder σ Eq where
  refl := Eq.refl
  trans _ _ _ := Eq.trans

section Preorder
variable {R : σ → σ → Prop} [IsPreorder σ R] {r : ρ}

theorem Moves.still {e : Effect ρ σ ε α} (h : ∀ s, (e r s).2 = s) : Moves R r e := by
  intro s
  rw [h]
  exact refl_of R s

theorem Moves.of_unmoved {e : Effect ρ σ ε α} (h : Moves Eq r e) : Moves R r e :=
  .still fun s => (h s).symm

theorem Moves.pure (x : α) : Moves R r (Pure.pure x : Effect ρ σ ε α) := .still fun _ => rfl

theorem Moves.fail (c : ε) : Moves R r (fail c : Effect ρ σ ε α) := .still fun _ => rfl

theorem Moves.get : Moves R r (get : Effect ρ σ ε σ) := .still fun _ => rfl

theorem Moves.place : Moves R r (place : Effect ρ σ ε ρ) := .still fun _ => rfl

theorem Moves.ofExcept (x : Except ε α) : Moves R r (ofExcept x : Effect ρ σ ε α) :=
  .still fun _ => rfl

/-- The rest of a sequence need only be looked at where its first part can lead. -/
theorem Moves.bind_of {e : Effect ρ σ ε α} {f : α → Effect ρ σ ε β} (he : Moves R r e)
    (hf : ∀ s x t, e r s = (.ok x, t) → R t (f x r t).2) : Moves R r (e >>= f) := by
  refine he.bind_from ?_
  intro s x t ht
  exact trans_of R (he.of_eq ht) (hf s x t ht)

theorem Moves.bind {e : Effect ρ σ ε α} {f : α → Effect ρ σ ε β} (he : Moves R r e)
    (hf : ∀ x, Moves R r (f x)) : Moves R r (e >>= f) :=
  he.bind_of fun _ x t _ => hf x t

omit [IsPreorder σ R]

theorem Moves.mapError {e : Effect ρ σ ε α} (he : Moves R r e) (g : ε → φ) :
    Moves R r (e.mapError g) := by
  intro s
  rw [snd_mapError]
  exact he s

theorem Moves.attempt {e : Effect ρ σ ε α} (he : Moves R r e) :
    Moves R r (e.attempt : Effect ρ σ φ _) := he

theorem Moves.ite {p : Prop} [Decidable p] {e e' : Effect ρ σ ε α} (he : Moves R r e)
    (he' : Moves R r e') : Moves R r (if p then e else e') := by
  split
  · exact he
  · exact he'

theorem Moves.onPart {get : τ → σ} {put : σ → τ → τ} {e : Effect ρ σ ε α}
    (hput : ∀ s t, get (put s t) = s) (he : Moves R r e) :
    Moves (InvImage R get) r (e.onPart get put) := by
  intro t
  rw [onPart_apply, InvImage, hput]
  exact he (get t)

end Preorder

end GemStaging.Effect
