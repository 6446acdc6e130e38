import Interchange.Proofs.Attempt
import Interchange.Proofs.Conversion.Steps
import Interchange.Proofs.Induction

/-!
# How remembered types are described

A session remembers descriptors by their host types alone, whatever the registry and the level at
which they were found.  `Composes` says how a converter puts a descriptor together from those of
other types, and `Described` that a type is known to be described in a way all the way down: each
type that its descriptor was put together from is known as well.  A session is coherent when all
that it remembers is described so; describing a type keeps that, and forgets nothing.
-/

namespace Interchange

/-- The only members of a union that are no types of the absent value, if there is one such. -/
def HostType.valued? (members : List HostType) : Option HostType := members.find? (!·.isNone)

theorem valued?_map {α : Type} (members : List HostType) (f : HostType → α) :
    valued? (members.map fun t ↦ (t, f t)) =
      (HostType.valued? members).map fun t ↦ (t, f t) := by
  rw [valued?, HostType.valued?, List.find?_map]
  rfl

/-- Which host types are known to be described how. -/
abbrev Knowledge := HostType → Descriptor → Prop

namespace Registry

variable (r : Registry)

/-- How a converter puts the descriptor of a type together from types and their descriptors. -/
inductive Composes : Converter → List (HostType × Descriptor) → HostType → Descriptor → Prop
  | primitive {t : HostType} {kind : Kind} : Composes (.primitive kind) [] t (.primitive kind)
  | reference {t : HostType} {name : String} {extent : Extent} :
      Composes (.reference name extent) [] t (.blob ⟨"", extent⟩)
  | jsonLines {t : HostType} : Composes .jsonLines [] t (.blob JsonLines.blobType)
  | plugin {t : HostType} {p : Plugin} {d : Descriptor}
      (described : p.describe r.directory t = .ok d) : Composes (.plugin p) [] t d
  | list {t : HostType} {d : Descriptor} : Composes .sequence [(t, d)] (.list t) (.collection d)
  | dict {t : HostType} {d : Descriptor} : Composes .mapping [(t, d)] (.dict t) (.mapping d)
  | optional {t : HostType} {d : Descriptor} :
      Composes .optional [(t, d)] (.optional t) d.orNone
  | plain {members : List HostType} {t : HostType} {d : Descriptor}
      (form : HostType.unionForm members = .plain) (member : HostType.valued? members = some t) :
      Composes .union [(t, d)] (.union members) d
  | orNone {members : List HostType} {t : HostType} {d : Descriptor}
      (form : HostType.unionForm members = .optional)
      (member : HostType.valued? members = some t) :
      Composes .union [(t, d)] (.union members) d.orNone
  | tagged {members : List HostType} {parts : List (HostType × Descriptor)}
      (form : HostType.unionForm members = .tagged) (types : members = parts.map (·.1))
      (distinct : (parts.map (·.2)).Nodup) :
      Composes .union parts (.union members)
        (.ofMembers (parts.map (·.2)) Descriptor.defaultTagField)
  | record {t : HostType} {s : Schema} {fields : List (String × HostType × Descriptor)}
      {parts : List (HostType × Descriptor)} (schema : r.schemaOf t = .ok s)
      (declared : s.fields = fields.map fun f ↦ (f.1, f.2.1))
      (types : parts = fields.map (·.2)) :
      Composes .record parts t (.record (fields.map fun f ↦ (f.1, f.2.2)))

/-- A type is known to be described in a way, and so are all types that this was put together
from. -/
inductive Described (known : Knowledge) : HostType → Descriptor → Prop
  | intro {c : Converter} {parts : List (HostType × Descriptor)} {t : HostType} {d : Descriptor}
      (isKnown : known t d) (resolved : r.resolve t = .ok c) (composed : r.Composes c parts t d)
      (described : ∀ part ∈ parts, Described known part.1 part.2) : Described known t d

variable {r} {c : Converter} {parts parts' : List (HostType × Descriptor)} {t : HostType}
  {d d' : Descriptor} {known known' : Knowledge}

theorem Described.isKnown (h : r.Described known t d) : known t d := by
  cases h
  assumption

theorem Described.mono (h : r.Described known t d) (hk : ∀ t d, known t d → known' t d) :
    r.Described known' t d := by
  induction h with
  | intro isKnown resolved composed _ ih => exact .intro (hk _ _ isKnown) resolved composed ih

/-- The same types with unambiguous descriptors have the same descriptors. -/
theorem eq_of_map_fst_eq (hk : ∀ t d d', known t d → known t d' → d = d')
    (hp : ∀ part ∈ parts, known part.1 part.2) (hp' : ∀ part ∈ parts', known part.1 part.2)
    (h : parts.map (·.1) = parts'.map (·.1)) : parts = parts' := by
  induction parts generalizing parts' with
  | nil => exact (List.map_eq_nil_iff.mp h.symm).symm
  | cons part parts ih =>
    cases parts' with
    | nil => cases h
    | cons part' parts' =>
      obtain ⟨hfst, hrest⟩ : part.1 = part'.1 ∧ parts.map (·.1) = parts'.map (·.1) :=
        List.cons.inj h
      obtain ⟨hpart, hparts⟩ := List.forall_mem_cons.mp hp
      obtain ⟨hpart', hparts'⟩ := List.forall_mem_cons.mp hp'
      have hsnd : part.2 = part'.2 := hk _ _ _ hpart (by rwa [hfst])
      rw [ih hparts hparts' hrest, Prod.ext hfst hsnd]

theorem eq_of_map_eq {α β : Type} {as bs : List (α × β)} (hfst : as.map (·.1) = bs.map (·.1))
    (hsnd : as.map (·.2) = bs.map (·.2)) : as = bs := by
  rw [← List.zip_unzip as, ← List.zip_unzip bs]
  simp only [List.unzip_eq_map, hfst, hsnd]

/-- Where descriptors are unambiguous, a converter puts only one together for a type. -/
theorem Composes.unique (h : r.Composes c parts t d) (h' : r.Composes c parts' t d')
    (hk : ∀ t d d', known t d → known t d' → d = d') (hp : ∀ part ∈ parts, known part.1 part.2)
    (hp' : ∀ part ∈ parts', known part.1 part.2) : d = d' := by
  have hparts (h : parts.map (·.1) = parts'.map (·.1)) : parts = parts' :=
    eq_of_map_fst_eq hk hp hp' h
  cases h with
  | primitive | reference | jsonLines => cases h'; rfl
  | plugin described =>
    cases h' with
    | plugin described' => exact Except.ok.inj (described.symm.trans described')
  | list | dict | optional =>
    cases h'
    cases hparts rfl
    rfl
  | plain form member =>
    cases h' with
    | plain form' member' =>
      cases member.symm.trans member'
      cases hparts rfl
      rfl
    | orNone form' _ | tagged form' _ _ => cases form.symm.trans form'
  | orNone form member =>
    cases h' with
    | orNone form' member' =>
      cases member.symm.trans member'
      cases hparts rfl
      rfl
    | plain form' _ | tagged form' _ _ => cases form.symm.trans form'
  | tagged form types _ =>
    cases h' with
    | tagged _ types' _ => rw [hparts (types.symm.trans types')]
    | plain form' _ | orNone form' _ => cases form.symm.trans form'
  | @record _ s fields _ schema declared types =>
    cases h' with
    | @record _ _ fields' _ schema' declared' types' =>
      cases schema.symm.trans schema'
      have hdeclared := declared.symm.trans declared'
      have hnames : fields.map (·.1) = fields'.map (·.1) := by
        simpa [Function.comp_def] using congrArg (List.map Prod.fst) hdeclared
      have htypes : parts.map (·.1) = parts'.map (·.1) := by
        simpa [types, types', Function.comp_def] using congrArg (List.map Prod.snd) hdeclared
      rw [eq_of_map_eq hnames (types ▸ types' ▸ hparts htypes)]

end Registry

/-! ## Coherent sessions -/

namespace Session

variable {r : Registry} {s s' : Session} {t : HostType} {d : Descriptor}

/-- What a session remembers. -/
def known (s : Session) : Knowledge := fun t d ↦ s.described? t = some d

theorem known_unique (s : Session) (t : HostType) (d d' : Descriptor) (h : s.known t d)
    (h' : s.known t d') : d = d' := Option.some.inj (h.symm.trans h')

/-- All that is remembered is described as the registry has it, from what is remembered as well. -/
def Coherent (r : Registry) (s : Session) : Prop :=
  ∀ t d, s.known t d → r.Described s.known t d

theorem coherent_of_described_eq_nil (h : s.described = []) : s.Coherent r := by
  intro t d hd
  simp [known, described?, h] at hd

/-- A coherent session stays coherent and forgets nothing. -/
def Grows (r : Registry) (s s' : Session) : Prop :=
  s.Coherent r → s'.Coherent r ∧ ∀ t d, s.known t d → s'.known t d

instance : IsPreorder Session (Grows r) where
  refl _ hs := ⟨hs, fun _ _ h ↦ h⟩
  trans _ _ _ h h' hs := by
    obtain ⟨hs', hk⟩ := h hs
    obtain ⟨hs'', hk'⟩ := h' hs'
    exact ⟨hs'', fun t d hd ↦ hk' t d (hk t d hd)⟩

theorem known_of_described_eq (h : s'.described = s.described) : s'.known = s.known := by
  funext t d
  rw [known, known, described?, described?, h]

theorem grows_of_described_eq (h : s'.described = s.described) : Grows r s s' := by
  have hk := known_of_described_eq h
  intro hs
  rw [Coherent, hk]
  exact ⟨hs, fun _ _ hd ↦ hd⟩

theorem known_remember {t' : HostType} {d' : Descriptor} :
    (s.remember t d).known t' d' ↔ if t' = t then d' = d else s.known t' d' := by
  by_cases ht : t' = t
  · subst ht
    simp [known, eq_comm]
  · have hne : (t' == t) = false := beq_eq_false_iff_ne.mpr ht
    rw [if_neg ht, known, described?, remember, List.lookup_cons, hne]
    exact Iff.rfl

/-- Remembering a type as its converter describes it from what is remembered keeps a session
coherent.  What the type may have been described as before is the same. -/
theorem grows_remember {c : Converter} {parts : List (HostType × Descriptor)}
    (hr : r.resolve t = .ok c) (hc : r.Composes c parts t d)
    (hp : ∀ part ∈ parts, s.known part.1 part.2) : Grows r s (s.remember t d) := by
  intro hs
  have hk (t' : HostType) (d' : Descriptor) (h : s.known t' d') : (s.remember t d).known t' d' := by
    refine known_remember.mpr ?_
    split
    · next ht =>
      subst ht
      cases hs t' d' h with
      | intro _ resolved composed described =>
        cases hr.symm.trans resolved
        exact composed.unique hc s.known_unique
          (fun part hpart ↦ (described part hpart).isKnown) hp
    · exact h
  refine ⟨fun t' d' h ↦ ?_, hk⟩
  by_cases ht : t' = t
  · subst ht
    have hd : d' = d := by simpa using known_remember.mp h
    subst hd
    exact .intro h hr hc fun part hpart ↦ (hs _ _ (hp part hpart)).mono hk
  · have h' : s.known t' d' := by simpa [ht] using known_remember.mp h
    exact (hs t' d' h').mono hk

end Session

end Interchange
