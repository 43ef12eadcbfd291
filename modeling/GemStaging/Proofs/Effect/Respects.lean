import GemStaging.Proofs.Effect.Moves

/-!
Two runs of one computation. `Respects R r e` says that at the place `r` the computation `e`
cannot tell states apart that are related by `R`: from two of them it gives the same result, and
the states that it leaves are related again. What every part of a sequence respects, the sequence
respects.
-/

namespace GemStaging.Effect

variable {ρ σ τ ε φ α β : Type}

/-- The computations do the same on two states: the same result, and states that are related
again. -/
def Alike (R : σ → σ → Prop) (r : ρ) (e e' : Effect ρ σ ε α) (s t : σ) : Prop :=
  (e r s).1 = (e' r t).1 ∧ R (e r s).2 (e' r t).2

/-- Related states are taken to the same result and to related states. -/
def Respects (R : σ → σ → Prop) (r : ρ) (e : Effect ρ σ ε α) : Prop :=
  ∀ s t, R s t → Alike R r e e s t

variable {R : σ → σ → Prop} {r : ρ}

/-- Behind computations that do the same, those that do the same wherever the first ones lead. -/
theorem Alike.bind {e e' : Effect ρ σ ε α} {f f' : α → Effect ρ σ ε β} {s t : σ}
    (he : Alike R r e e' s t)
    (hf : ∀ x s' t', e r s = (.ok x, s') → e' r t = (.ok x, t') → R s' t' →
      Alike R r (f x) (f' x) s' t') : Alike R r (e >>= f) (e' >>= f') s t := by
  obtain ⟨hresult, hrelated⟩ := he
  cases hs : e r s with
  | mk x s' =>
    cases ht : e' r t with
    | mk y t' =>
      rw [hs, ht] at hresult hrelated
      obtain rfl : x = y := hresult
      cases x with
      | ok x =>
        rw [Alike, bind_apply_ok hs, bind_apply_ok ht]
        exact hf x s' t' hs ht hrelated
      | error c =>
        rw [Alike, bind_apply_error hs, bind_apply_error ht]
        exact ⟨rfl, hrelated⟩

theorem Alike.get {f f' : σ → Effect ρ σ ε β} {s t : σ} (h : Alike R r (f s) (f' t) s t) :
    Alike R r (Effect.get >>= f) (Effect.get >>= f') s t := h

namespace Respects

theorem pure (x : α) : Respects R r (Pure.pure x : Effect ρ σ ε α) := fun _ _ h => ⟨rfl, h⟩

theorem fail (c : ε) : Respects R r (fail c : Effect ρ σ ε α) := fun _ _ h => ⟨rfl, h⟩

theorem ofExcept (x : Except ε α) : Respects R r (ofExcept x : Effect ρ σ ε α) :=
  fun _ _ h => ⟨rfl, h⟩

theorem bind {e : Effect ρ σ ε α} {f : α → Effect ρ σ ε β} (he : Respects R r e)
    (hf : ∀ x, Respects R r (f x)) : Respects R r (e >>= f) := fun s t h =>
  (he s t h).bind fun x s' t' _ _ h' => hf x s' t' h'

theorem bind_of {e : Effect ρ σ ε α} {f : α → Effect ρ σ ε β} (he : Respects R r e)
    (hf : ∀ s x s' t', e r s = (.ok x, s') → R s' t' → Alike R r (f x) (f x) s' t') :
    Respects R r (e >>= f) := fun s t h =>
  (he s t h).bind fun x s' t' hs _ h' => hf s x s' t' hs h'

theorem mapError {e : Effect ρ σ ε α} (he : Respects R r e) (g : ε → φ) :
    Respects R r (e.mapError g) := by
  intro s t h
  obtain ⟨hresult, hrelated⟩ := he s t h
  refine ⟨?_, by rwa [snd_mapError, snd_mapError]⟩
  rw [Effect.mapError, Effect.mapError]
  cases hs : e r s with
  | mk x s' =>
    cases ht : e r t with
    | mk y t' =>
      rw [hs, ht] at hresult
      obtain rfl : x = y := hresult
      cases x with
      | ok x => rfl
      | error c => rfl

theorem attempt {e : Effect ρ σ ε α} (he : Respects R r e) :
    Respects R r (e.attempt : Effect ρ σ φ _) := fun s t h =>
  ⟨congrArg Except.ok (he s t h).1, (he s t h).2⟩

theorem ite {p : Prop} [Decidable p] {e e' : Effect ρ σ ε α} (he : Respects R r e)
    (he' : Respects R r e') : Respects R r (if p then e else e') := by
  split
  · exact he
  · exact he'

/-- What respects a relation between parts respects one between wholes, if it changes nothing
else. -/
theorem onPart {S : τ → τ → Prop} {get : τ → σ} {put : σ → τ → τ} {e : Effect ρ σ ε α}
    (hget : ∀ s t, S s t → R (get s) (get t))
    (hput : ∀ s t x y, S s t → R x y → S (put x s) (put y t)) (he : Respects R r e) :
    Respects S r (e.onPart get put) := fun s t h => by
  obtain ⟨hresult, hrelated⟩ := he _ _ (hget s t h)
  exact ⟨hresult, hput s t _ _ h hrelated⟩

end Respects

end GemStaging.Effect
