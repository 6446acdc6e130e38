import Interchange.Attempt
import Mathlib.Order.Defs.Unbundled

/-!
# Runs of attempts

How a run of a step built from others is found from runs of those.  `Within` says that whatever
state a step starts in and however it ends, the state it leaves is related to the one it started in;
for a reflexive and transitive relation it passes from steps to what is built from them.  `Ends`
says what a step comes to from any state in which an invariant holds.
-/

namespace Interchange

/-! ## Outcomes -/

section

variable {ε α β : Type}

@[simp] theorem pure_eq_ok (a : α) : (pure a : Except ε α) = .ok a := rfl

@[simp] theorem throw_eq_error (e : ε) : (throw e : Except ε α) = .error e := rfl

@[simp] theorem ok_bind (a : α) (f : α → Except ε β) : (Except.ok a >>= f) = f a := rfl

@[simp] theorem error_bind (e : ε) (f : α → Except ε β) :
    ((Except.error e : Except ε α) >>= f) = .error e := rfl

@[simp] theorem map_ok (f : α → β) (a : α) : f <$> (Except.ok a : Except ε α) = .ok (f a) := rfl

@[simp] theorem map_error (f : α → β) (e : ε) :
    f <$> (Except.error e : Except ε α) = .error e := rfl

@[simp] theorem bind_ok (x : Except ε α) : (x >>= fun a ↦ .ok a) = x := bind_pure x

theorem exists_of_isOk {x : Except ε α} (h : x.isOk) : ∃ a, x = .ok a := by
  cases x with
  | ok a => exact ⟨a, rfl⟩
  | error e => cases h

theorem bind_eq_ok {x : Except ε α} {f : α → Except ε β} {b : β} :
    (x >>= f) = .ok b ↔ ∃ a, x = .ok a ∧ f a = .ok b := by
  cases x <;> simp

theorem map_eq_ok {x : Except ε α} {f : α → β} {b : β} :
    f <$> x = .ok b ↔ ∃ a, x = .ok a ∧ f a = b := by
  cases x <;> simp

end

/-! ## Runs -/

namespace Attempt

variable {σ τ ε δ α β : Type} {x : Attempt σ ε α} {s s' : σ} {a : α} {e : ε}

theorem run_map (f : α → β) (x : Attempt σ ε α) (s : σ) :
    (f <$> x).run s = ((x.run s).1.map f, (x.run s).2) := by
  rw [map_eq_pure_bind, run_bind]
  rcases x.run s with ⟨_ | _, _⟩ <;> rfl

theorem run_map_of_ok (h : x.run s = (.ok a, s')) (f : α → β) :
    (f <$> x).run s = (.ok (f a), s') := by
  rw [run_map, h]
  rfl

theorem outcome_of_run {r : Except ε α} (h : x.run s = (r, s')) : x.outcome s = r := by
  rw [outcome, h]

theorem outcome_eq_ok : x.outcome s = .ok a ↔ ∃ s', x.run s = (.ok a, s') := by
  rw [outcome]
  rcases x.run s with ⟨e | b, u⟩ <;> simp

/-- A bind returns if both of its steps do, one after the other. -/
theorem run_bind_eq_ok {k : α → Attempt σ ε β} {b : β} :
    (x >>= k).run s = (.ok b, s') ↔
      ∃ a u, x.run s = (.ok a, u) ∧ (k a).run u = (.ok b, s') := by
  rw [run_bind]
  rcases x.run s with ⟨e | a, u⟩ <;> simp [and_assoc]

theorem run_map_eq_ok {f : α → β} {b : β} :
    (f <$> x).run s = (.ok b, s') ↔ ∃ a, x.run s = (.ok a, s') ∧ f a = b := by
  rw [run_map]
  rcases x.run s with ⟨e | a, u⟩ <;> simp [Except.map, and_assoc, and_comm]

theorem run_ofExcept_bind_eq_ok {r : Except ε α} {k : α → Attempt σ ε β} {b : β} :
    (ofExcept r >>= k).run s = (.ok b, s') ↔ ∃ a, r = .ok a ∧ (k a).run s = (.ok b, s') := by
  rw [run_bind]
  cases r <;> simp

theorem run_tryCatch (x : Attempt σ ε α) (handle : ε → Attempt σ ε α) (s : σ) :
    (tryCatch x handle).run s = match x.run s with
      | (.ok a, s') => (.ok a, s')
      | (.error e, s') => (handle e).run s' := rfl

theorem run_mapError (f : ε → δ) (x : Attempt σ ε α) (s : σ) :
    (x.mapError f).run s = ((x.run s).1.mapError f, (x.run s).2) := by
  show (match x.run s with
    | (.ok a, s') => ((.ok a : Except δ α), s')
    | (.error e, s') => (.error (f e), s')) = _
  rcases x.run s with ⟨_ | _, _⟩ <;> rfl

/-! ## States before and after -/

/-- Whatever state a step starts in and however it ends, the state it leaves is related to it. -/
def Within (R : σ → σ → Prop) (x : Attempt σ ε α) : Prop := ∀ s, R s (x.run s).2

section

variable {R S : σ → σ → Prop} {k : α → Attempt σ ε β}

theorem Within.mono (h : Within R x) (hRS : ∀ s s', R s s' → S s s') : Within S x :=
  fun s ↦ hRS s _ (h s)

theorem Within.of_run (h : Within R x) {r : Except ε α} (hr : x.run s = (r, s')) : R s s' := by
  have hs := h s
  rwa [hr] at hs

theorem Within.map (hx : Within R x) (f : α → β) : Within R (f <$> x) := by
  intro s
  rw [run_map]
  exact hx s

variable [IsPreorder σ R]

theorem Within.pure (a : α) : Within R (pure a : Attempt σ ε α) := fun s ↦ refl_of R s

theorem Within.throw (e : ε) : Within R (throw e : Attempt σ ε α) := fun s ↦ refl_of R s

theorem Within.ofExcept (r : Except ε α) : Within R (.ofExcept r : Attempt σ ε α) :=
  fun s ↦ refl_of R s

/-- What follows only has to do with values that are returned. -/
theorem Within.bind_of_run (hx : Within R x)
    (hk : ∀ {s a s'}, x.run s = (.ok a, s') → Within R (k a)) : Within R (x >>= k) := by
  intro s
  have hs := hx s
  rw [run_bind]
  rcases hrun : x.run s with ⟨e | a, s'⟩ <;> rw [hrun] at hs
  · exact hs
  · exact trans_of R hs (hk hrun s')

theorem Within.bind (hx : Within R x) (hk : ∀ a, Within R (k a)) : Within R (x >>= k) :=
  hx.bind_of_run fun _ ↦ hk _

theorem Within.tryCatch {handle : ε → Attempt σ ε α} (hx : Within R x)
    (hh : ∀ e, Within R (handle e)) : Within R (tryCatch x handle) := by
  intro s
  have hs := hx s
  rw [run_tryCatch]
  rcases hrun : x.run s with ⟨e | a, s'⟩ <;> rw [hrun] at hs
  · exact trans_of R hs (hh e s')
  · exact hs

end

/-! ## How steps end -/

/-- From any state in which an invariant holds a step ends in such a state, with a value as promised
or a failure as allowed. -/
def Ends (I : σ → Prop) (P : α → Prop) (E : ε → Prop) (x : Attempt σ ε α) : Prop :=
  ∀ s, I s → I (x.run s).2 ∧ match (x.run s).1 with
    | .ok a => P a
    | .error e => E e

section

variable {I : σ → Prop} {P P' : α → Prop} {Q : β → Prop} {E E' : ε → Prop}
  {k : α → Attempt σ ε β}

theorem Ends.of_ok (h : Ends I P E x) (hs : I s) (hrun : x.run s = (.ok a, s')) : I s' ∧ P a := by
  have hends := h s hs
  rwa [hrun] at hends

theorem Ends.of_error (h : Ends I P E x) (hs : I s) (hrun : x.run s = (.error e, s')) :
    I s' ∧ E e := by
  have hends := h s hs
  rwa [hrun] at hends

theorem Ends.mono (h : Ends I P E x) (hP : ∀ a, P a → P' a) (hE : ∀ e, E e → E' e) :
    Ends I P' E' x := by
  intro s hs
  rcases hrun : x.run s with ⟨e | a, s'⟩
  · exact ⟨(h.of_error hs hrun).1, hE e (h.of_error hs hrun).2⟩
  · exact ⟨(h.of_ok hs hrun).1, hP a (h.of_ok hs hrun).2⟩

theorem Ends.pure (h : P a) : Ends I P E (pure a : Attempt σ ε α) := fun _ hs ↦ ⟨hs, h⟩

theorem Ends.throw (h : E e) : Ends I P E (throw e : Attempt σ ε α) := fun _ hs ↦ ⟨hs, h⟩

/-- What follows only has to do with values that were promised. -/
theorem Ends.bind (hx : Ends I P E x) (hk : ∀ a, P a → Ends I Q E (k a)) :
    Ends I Q E (x >>= k) := by
  intro s hs
  rw [run_bind]
  rcases hrun : x.run s with ⟨e | a, s'⟩
  · exact hx.of_error hs hrun
  · obtain ⟨hs', ha⟩ := hx.of_ok hs hrun
    exact hk a ha s' hs'

/-- What follows a result that does not depend on the state only has to do with that result. -/
theorem Ends.bind_ofExcept {r : Except ε α} (he : ∀ e, r = .error e → E e)
    (hk : ∀ a, r = .ok a → Ends I Q E (k a)) : Ends I Q E (.ofExcept r >>= k) := by
  cases r with
  | error e => exact .throw (he e rfl)
  | ok a => exact hk a rfl

theorem Ends.map {f : α → β} (hx : Ends I P E x) (h : ∀ a, P a → Q (f a)) :
    Ends I Q E (f <$> x) := by
  rw [map_eq_pure_bind]
  exact hx.bind fun a ha ↦ .pure (h a ha)

theorem Ends.tryCatch {handle : ε → Attempt σ ε α} (hx : Ends I P E x)
    (hh : ∀ e, E e → Ends I P E' (handle e)) : Ends I P E' (tryCatch x handle) := by
  intro s hs
  rw [run_tryCatch]
  rcases hrun : x.run s with ⟨e | a, s'⟩
  · obtain ⟨hs', he⟩ := hx.of_error hs hrun
    exact hh e he s' hs'
  · exact hx.of_ok hs hrun

/-- Without a failure that is allowed, a value is returned. -/
theorem Ends.run_eq_ok (h : Ends I P (fun _ ↦ False) x) (hs : I s) :
    ∃ a s', x.run s = (.ok a, s') ∧ I s' ∧ P a := by
  rcases hrun : x.run s with ⟨e | a, s'⟩
  · exact (h.of_error hs hrun).2.elim
  · exact ⟨a, s', rfl, h.of_ok hs hrun⟩

end

end Attempt

end Interchange
