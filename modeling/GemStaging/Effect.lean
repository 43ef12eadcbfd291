/-!
Computations with effects. An effect sees where it runs, may change a state, and may fail; what it
changed before failing stays changed, as it does on a disk.
-/

namespace GemStaging

/-- A computation that runs at a place `ρ`, works on a state `σ`, and fails with `ε` or gives
`α`. -/
def Effect (ρ σ ε α : Type) : Type := ρ → σ → Except ε α × σ

namespace Effect

variable {ρ σ τ ε φ α β : Type}

protected def pure (x : α) : Effect ρ σ ε α := fun _ s => (.ok x, s)

/-- One computation after another; a failure of the first one ends both. -/
protected def bind (e : Effect ρ σ ε α) (f : α → Effect ρ σ ε β) : Effect ρ σ ε β := fun r s =>
  match e r s with
  | (.ok x, s) => f x r s
  | (.error e, s) => (.error e, s)

instance : Monad (Effect ρ σ ε) where
  pure := Effect.pure
  bind := Effect.bind

def fail (e : ε) : Effect ρ σ ε α := fun _ s => (.error e, s)

/-- The place where the computation runs. -/
def place : Effect ρ σ ε ρ := fun r s => (.ok r, s)

def get : Effect ρ σ ε σ := fun _ s => (.ok s, s)

def modify (f : σ → σ) : Effect ρ σ ε Unit := fun _ s => (.ok (), f s)

/-- A result that is there already. -/
def ofExcept (x : Except ε α) : Effect ρ σ ε α := fun _ s => (x, s)

/-- The computation with its failures put into other words. -/
def mapError (f : ε → φ) (e : Effect ρ σ ε α) : Effect ρ σ φ α := fun r s =>
  match e r s with
  | (.ok x, s) => (.ok x, s)
  | (.error e, s) => (.error (f e), s)

/-- The computation that shows its failure as a result. -/
def attempt (e : Effect ρ σ ε α) : Effect ρ σ φ (Except ε α) := fun r s =>
  match e r s with
  | (x, s) => (.ok x, s)

/-- A computation on a part of a larger state. -/
def onPart (get : σ → τ) (put : τ → σ → σ) (e : Effect ρ τ ε α) : Effect ρ σ ε α := fun r s =>
  match e r (get s) with
  | (x, t) => (x, put t s)

@[simp] theorem pure_apply (x : α) (r : ρ) (s : σ) :
    (pure x : Effect ρ σ ε α) r s = (.ok x, s) := rfl

theorem bind_apply (e : Effect ρ σ ε α) (f : α → Effect ρ σ ε β) (r : ρ) (s : σ) :
    (e >>= f) r s = match e r s with
      | (.ok x, s) => f x r s
      | (.error e, s) => (.error e, s) := rfl

@[simp] theorem bind_apply_ok {e : Effect ρ σ ε α} {f : α → Effect ρ σ ε β} {r : ρ} {s s' : σ}
    {x : α} (h : e r s = (.ok x, s')) : (e >>= f) r s = f x r s' := by
  rw [bind_apply, h]

@[simp] theorem bind_apply_error {e : Effect ρ σ ε α} {f : α → Effect ρ σ ε β} {r : ρ} {s s' : σ}
    {c : ε} (h : e r s = (.error c, s')) : (e >>= f) r s = (.error c, s') := by
  rw [bind_apply, h]

@[simp] theorem fail_apply (e : ε) (r : ρ) (s : σ) :
    (fail e : Effect ρ σ ε α) r s = (.error e, s) := rfl

@[simp] theorem get_apply (r : ρ) (s : σ) : (get : Effect ρ σ ε σ) r s = (.ok s, s) := rfl

@[simp] theorem place_apply (r : ρ) (s : σ) : (place : Effect ρ σ ε ρ) r s = (.ok r, s) := rfl

@[simp] theorem modify_apply (f : σ → σ) (r : ρ) (s : σ) :
    (modify f : Effect ρ σ ε Unit) r s = (.ok (), f s) := rfl

@[simp] theorem ofExcept_apply (x : Except ε α) (r : ρ) (s : σ) :
    (ofExcept x : Effect ρ σ ε α) r s = (x, s) := rfl

end Effect

end GemStaging
