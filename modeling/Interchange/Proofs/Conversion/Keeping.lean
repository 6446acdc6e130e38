import Interchange.Conversion.Infer
import Interchange.Proofs.Conversion.Pervading

/-!
# Conversions keep what is remembered

Describing is the only thing that changes what a session remembers, so every conversion keeps a
coherent session coherent and forgets nothing, however it ends.  Encoding and decoding do so because
it is compositional; guessing, which goes on after a failure, by a lemma for each function.
-/

namespace Interchange

open Session Attempt

variable {r : Registry} {α : Type}

theorem keeps_describe (levels : Nat) (place : Place) (t : HostType) :
    Keeps r (r.describe levels place t) := (Registry.describes_describe levels place t).within

theorem pervades_keeps (r : Registry) : Pervades r fun _ x ↦ Keeps r x where
  toCompositional := compositional_keeps r
  describe := keeps_describe

/-- What the worker may ask for keeps sessions coherent. -/
abbrev Delegate.Keeping (r : Registry) (ask : Delegate) : Prop := ask.Has fun _ x ↦ Keeps r x

namespace Registry

variable {worker : Option Delegate}

/-- Encoding keeps sessions coherent and forgets nothing. -/
theorem keeps_encode (hw : ∀ ask, worker = some ask → ask.Keeping r) (levels : Nat) (place : Place)
    (t : HostType) (v : Value) (d : Descriptor) : Keeps r (r.encode worker levels place t v d) :=
  (pervades_keeps r).encode hw levels place t v d

/-- Decoding keeps sessions coherent and forgets nothing. -/
theorem keeps_decode (hw : ∀ ask, worker = some ask → ask.Keeping r) (levels : Nat) (place : Place)
    (t : HostType) (l : Literal) : Keeps r (r.decode worker levels place t l) :=
  (pervades_keeps r).decode hw levels place t l

end Registry

/-! ## Guessing -/

theorem keeps_guessAll {parts : List (Descriptor × Conversion HostType)}
    (h : ∀ part ∈ parts, Keeps r part.2) : Keeps r (guessAll parts) := by
  induction parts with
  | nil => exact .pure _
  | cons part parts ih =>
    obtain ⟨hpart, hparts⟩ := List.forall_mem_cons.mp h
    exact .bind hpart fun _ ↦ .bind (ih hparts) fun _ ↦ .pure _

namespace Registry

theorem keeps_recordDescribed? {describe : HostType → Conversion Descriptor}
    (h : ∀ t, Keeps r (describe t)) (d : Descriptor) (schemas : List Schema) :
    Keeps r (recordDescribed? describe d schemas) := by
  induction schemas with
  | nil => exact .pure _
  | cons schema schemas ih =>
    refine .bind (.tryCatch ((h _).map _) fun _ ↦ .pure _) ?_
    intro isDescribed
    cases isDescribed with
    | false => exact ih
    | true => exact .pure _

variable {levels : Nat} {place : Place} {c : Converter} {d : Descriptor}

theorem keeps_inferBy {parts : List (Descriptor × Conversion HostType)}
    (h : ∀ part ∈ parts, Keeps r part.2) : Keeps r (r.inferBy levels place c d parts) := by
  have hinner {inner : Conversion HostType}
      (hi : d.optionalInner?.bind (parts.lookup ·) = some inner) : Keeps r inner := by
    obtain ⟨part, -, hlookup⟩ := Option.bind_eq_some_iff.mp hi
    obtain ⟨before, after, rfl, -⟩ := List.lookup_eq_some_iff.mp hlookup
    exact h (part, inner) (by simp)
  cases c with
  | primitive kind =>
    dsimp only [inferBy]
    split
    · exact .pure _
    · exact .throw _
  | reference name extent =>
    cases d with
    | blob type =>
      dsimp only [inferBy]
      split
      · exact .pure _
      · exact .throw _
    | _ => exact .throw _
  | jsonLines =>
    dsimp only [inferBy]
    split
    · exact .pure _
    · exact .throw _
  | plugin p => exact .ofExcept _
  | sequence =>
    cases d with
    | collection d =>
      rcases parts with _ | ⟨part, _ | _⟩
      · exact .throw _
      · exact (h part List.mem_cons_self).map _
      · exact .throw _
    | _ => exact .throw _
  | mapping =>
    cases d with
    | mapping d =>
      rcases parts with _ | ⟨part, _ | _⟩
      · exact .throw _
      · exact (h part List.mem_cons_self).map _
      · exact .throw _
    | _ => exact .throw _
  | optional =>
    dsimp only [inferBy]
    split
    · next hi => exact (hinner hi).map _
    · exact .throw _
  | union =>
    cases d with
    | union members tagField =>
      dsimp only [inferBy]
      split
      · next hi => exact (hinner hi).map _
      · exact (keeps_guessAll h).map _
    | _ => exact .throw _
  | record =>
    cases d with
    | record fields =>
      refine .bind (keeps_recordDescribed? (fun t ↦ keeps_describe _ _ t) _ _) ?_
      intro found
      cases found with
      | none => exact .bind (keeps_guessAll h) fun _ ↦ .pure _
      | some t => exact .pure _
    | _ => exact .throw _

/-- Guessing keeps sessions coherent and forgets nothing. -/
theorem keeps_infer (levels : Nat) (place : Place) (d : Descriptor) :
    Keeps r (r.infer levels place d) := by
  induction d using Descriptor.parts_induction with
  | step d ih =>
    rw [infer, Descriptor.fold_eq]
    refine .bind (.ofExcept _) fun c ↦ keeps_inferBy ?_
    intro part hpart
    obtain ⟨d, hd, rfl⟩ := List.mem_map.mp hpart
    exact ih d hd

theorem keeps_inferAs (levels : Nat) (c : Converter) (place : Place) (d : Descriptor) :
    Keeps r (r.inferAs levels c place d) := by
  refine keeps_inferBy ?_
  intro part hpart
  obtain ⟨d, hd, rfl⟩ := List.mem_map.mp hpart
  exact keeps_infer levels place d

end Registry

end Interchange
