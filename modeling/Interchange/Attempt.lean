/-!
# Attempts

An attempt runs over a state, and either returns a value or fails.  Unlike a computation that
throws its state away with its value, a failed attempt still leaves a state behind: a reader that
refuses an item has consumed the bytes it looked at, a writer that refuses an item keeps what it
wrote before, and a conversion that fails half way keeps the streams it pulled from pulled.
-/

namespace Interchange

/-- A computation over a state that returns or fails, and leaves a state in both cases. -/
def Attempt (σ ε α : Type) : Type := σ → Except ε α × σ

namespace Attempt

variable {σ τ ε δ α β : Type}

/-- The outcome and the state after it. -/
def run (x : Attempt σ ε α) (s : σ) : Except ε α × σ := x s

/-- The outcome alone. -/
def outcome (x : Attempt σ ε α) (s : σ) : Except ε α := (x.run s).1

@[ext] theorem ext {x y : Attempt σ ε α} (h : ∀ s, x.run s = y.run s) : x = y := funext h

/-- A bind stops at the first failure, in the state that the failure left. -/
instance instMonad : Monad (Attempt σ ε) where
  pure a := fun s ↦ (.ok a, s)
  bind x k := fun s ↦ match x s with
    | (.ok a, s') => k a s'
    | (.error e, s') => (.error e, s')

/-- `pure` leaves the state alone. -/
@[simp] theorem run_pure (a : α) (s : σ) : (pure a : Attempt σ ε α).run s = (.ok a, s) := rfl

theorem run_bind (x : Attempt σ ε α) (k : α → Attempt σ ε β) (s : σ) :
    (x >>= k).run s = match x.run s with
      | (.ok a, s') => (k a).run s'
      | (.error e, s') => (.error e, s') := rfl

/-- A bind goes on from a value that was returned. -/
theorem run_bind_of_ok {x : Attempt σ ε α} {s s' : σ} {a : α} (h : x.run s = (.ok a, s'))
    (k : α → Attempt σ ε β) : (x >>= k).run s = (k a).run s' := by
  rw [run_bind, h]

/-- A bind is over with the first failure. -/
theorem run_bind_of_error {x : Attempt σ ε α} {s s' : σ} {e : ε} (h : x.run s = (.error e, s'))
    (k : α → Attempt σ ε β) : (x >>= k).run s = (.error e, s') := by
  rw [run_bind, h]

instance instLawfulMonad : LawfulMonad (Attempt σ ε) := LawfulMonad.mk' (Attempt σ ε)
  (fun x ↦ by
    funext s
    change (match x s with | (.ok a, s') => (.ok a, s') | (.error e, s') => (.error e, s')) = x s
    rcases x s with ⟨_ | _, _⟩ <;> rfl)
  (fun _ _ ↦ rfl)
  (fun x f g ↦ by
    funext s
    change (match (match x s with | (.ok a, s') => f a s' | (.error e, s') => (.error e, s')) with
      | (.ok b, s') => g b s' | (.error e, s') => (.error e, s')) =
      match x s with
      | (.ok a, s') => (match f a s' with
        | (.ok b, s'') => g b s'' | (.error e, s'') => (.error e, s''))
      | (.error e, s') => (.error e, s')
    rcases x s with ⟨_ | _, _⟩ <;> rfl)

/-- A handler takes over in the state that the failure left. -/
instance : MonadExceptOf ε (Attempt σ ε) where
  throw e := fun s ↦ (.error e, s)
  tryCatch x handle := fun s ↦ match x s with
    | (.ok a, s') => (.ok a, s')
    | (.error e, s') => handle e s'

@[simp] theorem run_throw (e : ε) (s : σ) : (throw e : Attempt σ ε α).run s = (.error e, s) := rfl

instance : MonadStateOf σ (Attempt σ ε) where
  get := fun s ↦ (.ok s, s)
  set s := fun _ ↦ (.ok (), s)
  modifyGet f := fun s ↦ let (a, s') := f s; (.ok a, s')

@[simp] theorem run_get (s : σ) : (get : Attempt σ ε σ).run s = (.ok s, s) := rfl

@[simp] theorem run_set (s t : σ) : (set t : Attempt σ ε PUnit).run s = (.ok (), t) := rfl

@[simp] theorem run_modify (f : σ → σ) (s : σ) :
    (modify f : Attempt σ ε PUnit).run s = (.ok (), f s) := rfl

/-- An outcome that does not depend on the state. -/
def ofExcept (x : Except ε α) : Attempt σ ε α := fun s ↦ (x, s)

@[simp] theorem run_ofExcept (x : Except ε α) (s : σ) :
    (ofExcept x : Attempt σ ε α).run s = (x, s) := rfl

/-- Runs on a part of a larger state. -/
def focus (view : τ → σ) (put : σ → τ → τ) (x : Attempt σ ε α) : Attempt τ ε α := fun t ↦
  let (r, s) := x (view t)
  (r, put s t)

@[simp] theorem run_focus (view : τ → σ) (put : σ → τ → τ) (x : Attempt σ ε α) (t : τ) :
    (focus view put x).run t = ((x.run (view t)).1, put (x.run (view t)).2 t) := rfl

/-- Restates the failure. -/
def mapError (f : ε → δ) (x : Attempt σ ε α) : Attempt σ δ α := fun s ↦ match x s with
  | (.ok a, s') => (.ok a, s')
  | (.error e, s') => (.error (f e), s')

end Attempt

end Interchange
