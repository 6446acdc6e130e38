import Interchange.Proofs.Conversion.Anew
import Interchange.Proofs.Descriptor
import Interchange.Proofs.Registry.Standard

/-!
# Guessing inverts describing

With the built-in converters and declared records alone, only certain descriptors are those of
types: a union is one type or none, or it forks, and no union has a member twice.  From each of
these a type is guessed, and what is guessed is described by it.

Whether an engine describes the guess is another matter.  A record that was described from memory
took no levels; where it is rebuilt for the guess, it does.
-/

namespace Interchange

open Session Attempt

/-! ## Types of the absent value -/

namespace HostType

theorem isNone_iff {t : HostType} : t.isNone = true ↔ t = .ofKind .none := by simp [isNone]

theorem unionForm_eq_tagged {members : List HostType} : unionForm members = .tagged ↔
    members ≠ [] ∧ ∀ t, members.filter (!·.isNone) ≠ [t] := by
  unfold unionForm
  split
  · simp
  · next hne =>
    split
    · next t hfilter =>
      refine ⟨fun h ↦ ?_, fun h ↦ absurd hfilter (h.2 t)⟩
      split at h <;> cases h
    · next hfilter =>
      exact ⟨fun _ ↦ ⟨hne, fun t h ↦ hfilter t h⟩, fun _ ↦ rfl⟩

end HostType

/-! ## Descriptors of types -/

/-- What a type can be described as where nothing but records is declared. -/
inductive Describable : Descriptor → Prop
  | primitive (kind : Kind) : Describable (.primitive kind)
  | blob (extent : Extent) : Describable (.blob ⟨"", extent⟩)
  | collection {d : Descriptor} (element : Describable d) : Describable (.collection d)
  | mapping {d : Descriptor} (value : Describable d) : Describable (.mapping d)
  | record {fields : List (String × Descriptor)} (types : ∀ f ∈ fields, Describable f.2) :
      Describable (.record fields)
  | optional {d : Descriptor} (inner : Describable d) (valued : d ≠ .primitive .none)
      (noUnion : ∀ members tagField, d ≠ .union members tagField) :
      Describable (.union [d, .primitive .none] Descriptor.defaultTagField)
  | tagged {members : List Descriptor} (forks : Descriptor.Forks members) (nodup : members.Nodup)
      (each : ∀ d ∈ members, Describable d) :
      Describable (.union members Descriptor.defaultTagField)

theorem Describable.orNone {d : Descriptor} (h : Describable d) : Describable d.orNone := by
  rcases d.none_or_union with rfl | ⟨members, _, rfl⟩ | ⟨hn, noUnion⟩
  · exact .tagged Descriptor.forks_none (List.nodup_singleton _) (by simpa using h)
  · cases h with
    | optional inner valued noUnion =>
      rw [Descriptor.orNone_of_optionalInner? (Descriptor.optionalInner?_union valued _)]
      exact .optional inner valued noUnion
    | tagged forks nodup each =>
      by_cases hmem : .primitive .none ∈ members
      · rw [Descriptor.orNone_union_of_mem nodup hmem]
        exact .tagged forks nodup each
      · rw [Descriptor.orNone_union_of_notMem nodup hmem]
        refine .tagged forks.append_none (Descriptor.nodup_append_none nodup hmem) ?_
        rw [List.forall_mem_append, List.forall_mem_singleton]
        exact ⟨each, .primitive .none⟩
  · rw [Descriptor.orNone_of_ne noUnion hn]
    exact .optional h hn noUnion

namespace Registry

variable {r : Registry} {t : HostType} {d : Descriptor} {known : Knowledge}
  {parts : List (HostType × Descriptor)}

/-- Only the type of the absent value is described as none. -/
theorem RecordsOnly.isNone_iff (hr : r.RecordsOnly) (h : r.IsDescribed t d) :
    t.isNone = true ↔ d = .primitive .none := by
  constructor
  · intro hnone
    rw [HostType.isNone_iff.mp hnone] at h
    cases h with
    | intro _ resolved composed _ =>
      rw [hr.standard.resolve_ofKind] at resolved
      cases resolved
      cases composed
      rfl
  · intro hd
    -- A union of one type is described as that type, so this goes by induction; but the one type is
    -- not that of the absent value.
    induction h with
    | intro _ resolved composed _ ih =>
      cases composed with
      | primitive =>
        cases hd
        exact HostType.isNone_iff.mpr (hr.eq_ofKind resolved)
      | plugin => cases hr.standard.builtin.resolve resolved
      | plain form member =>
        have hsome := List.find?_some member
        rw [ih _ List.mem_cons_self hd] at hsome
        cases hsome
      | optional | orNone => exact absurd hd (Descriptor.orNone_ne_primitive _ _)
      | _ => cases hd

/-- A union is tagged just if its descriptor forks. -/
theorem RecordsOnly.forks_iff (hr : r.RecordsOnly)
    (h : ∀ part ∈ parts, r.IsDescribed part.1 part.2) :
    Descriptor.Forks (parts.map (·.2)) ↔ HostType.unionForm (parts.map (·.1)) = .tagged := by
  -- The types and the descriptors that are something come from the same parts.
  have hfilter : (parts.map (·.1)).filter (!·.isNone) =
      (parts.filter (·.2 ≠ .primitive .none)).map (·.1) := by
    rw [List.filter_map]
    refine congrArg _ (List.filter_congr fun part hp ↦ ?_)
    simp [← hr.isNone_iff (h part hp)]
  have hsingle {α : Type} (f : HostType × Descriptor → α) (parts : List (HostType × Descriptor)) :
      (∀ a, parts.map f ≠ [a]) ↔ ∀ part, parts ≠ [part] := by
    simp only [ne_eq, List.map_eq_singleton_iff, not_exists, not_and]
    exact ⟨fun h part hpart ↦ h _ part hpart rfl, fun h _ part hpart _ ↦ h part hpart⟩
  rw [HostType.unionForm_eq_tagged, Descriptor.Forks, List.filter_map, hfilter]
  simp only [hsingle, ne_eq, List.map_eq_nil_iff]
  exact Iff.rfl

/-- Whatever a type is described as is a descriptor of the kinds above. -/
theorem RecordsOnly.describable (hr : r.RecordsOnly) (h : r.Described known t d) :
    Describable d := by
  induction h with
  | intro _ resolved composed described ih =>
    cases composed with
    | primitive => exact .primitive _
    | reference => exact .blob _
    | jsonLines | plugin => cases hr.standard.builtin.resolve resolved
    | list => exact .collection (ih _ List.mem_cons_self)
    | dict => exact .mapping (ih _ List.mem_cons_self)
    | optional | orNone => exact (ih _ List.mem_cons_self).orNone
    | plain => exact ih _ List.mem_cons_self
    | tagged form types distinct =>
      rw [Descriptor.ofMembers_of_nodup distinct]
      subst types
      refine .tagged ((hr.forks_iff fun part hp ↦ (described part hp).isDescribed).mpr form)
        distinct ?_
      simpa using fun d t hp ↦ ih (t, d) hp
    | record _ _ types =>
      subst types
      refine .record fun f hf ↦ ?_
      obtain ⟨f, hmem, rfl⟩ := List.mem_map.mp hf
      exact ih f.2 (List.mem_map_of_mem hmem)

end Registry

/-! ## Guesses -/

/-- A type is found that is described in a way, from any session that remembers what it should. -/
abbrev Guesses (r : Registry) (d : Descriptor) (x : Conversion HostType) : Prop :=
  Ends (Coherent r) (fun t ↦ r.IsDescribed t d) (fun _ ↦ False) x

namespace Registry

variable {r : Registry} {levels : Nat} {place : Place} {t : HostType} {d : Descriptor}
  {parts : List (HostType × Descriptor)} {guess : Descriptor → Conversion HostType}

theorem infer_eq (r : Registry) (levels : Nat) (place : Place) (d : Descriptor) :
    r.infer levels place d = r.inferStep levels place d
      (d.parts.map fun part ↦ (part, r.infer levels place part)) := Descriptor.fold_eq _ d

theorem ends_guessAll {ds : List Descriptor} (h : ∀ d ∈ ds, Guesses r d (guess d)) :
    Ends (Coherent r) (fun ts ↦ ∃ parts : List (HostType × Descriptor),
        ts = parts.map (·.1) ∧ ds = parts.map (·.2) ∧
          ∀ part ∈ parts, r.IsDescribed part.1 part.2)
      (fun _ ↦ False) (guessAll (ds.map fun d ↦ (d, guess d))) := by
  induction ds with
  | nil => exact .pure ⟨[], rfl, rfl, List.forall_mem_nil _⟩
  | cons d ds ih =>
    obtain ⟨hd, hds⟩ := List.forall_mem_cons.mp h
    refine hd.bind fun t ht ↦ (ih hds).bind ?_
    rintro _ ⟨parts, rfl, rfl, hparts⟩
    exact .pure ⟨(t, d) :: parts, rfl, rfl, List.forall_mem_cons.mpr ⟨ht, hparts⟩⟩

/-- A declared record that is found goes by its name and is described as it should be. -/
theorem ends_recordDescribed? {describe : HostType → Conversion Descriptor}
    (h : ∀ t, Ends (Coherent r) (r.IsDescribed t) (fun _ ↦ True) (describe t)) (d : Descriptor)
    (schemas : List Schema) :
    Ends (Coherent r)
      (fun found ↦ ∀ t, found = some t → (∃ name, t = .named name) ∧ r.IsDescribed t d)
      (fun _ ↦ False) (recordDescribed? describe d schemas) := by
  induction schemas with
  | nil => exact .pure fun _ h ↦ nomatch h
  | cons s schemas ih =>
    have hs : Ends (Coherent r) (fun found ↦ found = true → r.IsDescribed (.named s.name) d)
        (fun _ ↦ False) (tryCatch ((decide <| · = d) <$> describe (.named s.name))
          fun _ ↦ pure false) := by
      refine .tryCatch ((h _).map ?_) fun _ _ ↦ .pure fun h ↦ nomatch h
      intro d' hd' heq
      exact of_decide_eq_true heq ▸ hd'
    refine hs.bind ?_
    rintro (_ | _) hfound
    · exact ih
    · refine .pure ?_
      rintro _ ⟨⟩
      exact ⟨⟨s.name, rfl⟩, hfound rfl⟩

/-- Fields and the types that are described like theirs can be put together. -/
theorem exists_named {fields : List (String × Descriptor)}
    (h : fields.map (·.2) = parts.map (·.2)) :
    ∃ named : List (String × HostType × Descriptor), fields = named.map (fun f ↦ (f.1, f.2.2)) ∧
      (fields.map (·.1)).zip (parts.map (·.1)) = named.map (fun f ↦ (f.1, f.2.1)) ∧
      ∀ f ∈ named, f.2 ∈ parts := by
  refine ⟨(fields.map (·.1)).zip parts, ?_, ?_, fun f hf ↦ (List.of_mem_zip hf).2⟩
  · have hzip : fields = (fields.map (·.1)).zip (fields.map (·.2)) := by
      rw [← List.unzip_fst, ← List.unzip_snd, List.zip_unzip]
    calc
      fields = (fields.map (·.1)).zip (parts.map (·.2)) := by rwa [← h]
      _ = ((fields.map (·.1)).zip parts).map fun f ↦ (f.1, f.2.2) := by
        rw [List.zip_map_right]
        rfl
  · rw [List.zip_map_right]
    rfl

/-- A record of types is described as the record of what they are described as. -/
theorem Standard.isDescribed_record (hr : r.Standard) (name : String)
    (fields : List (String × HostType × Descriptor)) (isOpen : Bool)
    (h : ∀ f ∈ fields, r.IsDescribed f.2.1 f.2.2) :
    r.IsDescribed (.record name (fields.map fun f ↦ (f.1, f.2.1)) isOpen)
      (.record (fields.map fun f ↦ (f.1, f.2.2))) := by
  refine Composes.isDescribed (.record rfl rfl rfl) (hr.resolve_generic (o := .record) rfl) ?_
  intro part hp
  obtain ⟨f, hf, rfl⟩ := List.mem_map.mp hp
  exact h f hf

theorem infer_of_describable (hr : r.RecordsOnly) (h : Describable d) :
    r.infer levels place d = r.inferBy levels place (guesserFor d) d
      (d.parts.map fun part ↦ (part, r.infer levels place part)) := by
  have hguesser : r.guesser d = .ok (guesserFor d) := by
    refine hr.guesser fun type htype ↦ ?_
    cases h <;> cases htype
    rfl
  rw [infer_eq, inferStep, hguesser]
  rfl

/-- From whatever a type is described as, a type is guessed that is described so. -/
theorem guesses_infer (hr : r.RecordsOnly) (h : Describable d) (levels : Nat) (place : Place) :
    Guesses r d (r.infer levels place d) := by
  have hgeneric {t : HostType} {o : Origin} (ht : t.origin? = some o) :
      r.resolve t = .ok (builtinFor o) := hr.standard.resolve_generic ht
  induction h with
  | primitive kind =>
    rw [infer_of_describable hr (.primitive kind)]
    dsimp only [inferBy, guesserFor]
    rw [if_pos rfl]
    exact .pure (Composes.primitive.isDescribed (hr.standard.resolve_ofKind kind)
      (List.forall_mem_nil _))
  | blob extent =>
    rw [infer_of_describable hr (.blob extent)]
    cases extent with
    | single =>
      exact .pure (Composes.reference.isDescribed
        (resolve_of_exact (hr.standard (.exact "file"))) (List.forall_mem_nil _))
    | multipart =>
      exact .pure (Composes.reference.isDescribed
        (resolve_of_exact (hr.standard (.exact "directory"))) (List.forall_mem_nil _))
  | collection element ih =>
    rw [infer_of_describable hr (.collection element)]
    refine Ends.map ih fun t ht ↦ ?_
    exact Composes.list.isDescribed (hgeneric (o := .sequence) rfl) (by simpa using ht)
  | mapping value ih =>
    rw [infer_of_describable hr (.mapping value)]
    refine Ends.map ih fun t ht ↦ ?_
    exact Composes.dict.isDescribed (hgeneric (o := .mapping) rfl) (by simpa using ht)
  | @record fields types ih =>
    rw [infer_of_describable hr (.record types)]
    refine (ends_recordDescribed? (ends_describe levels place) _ _).bind fun found hfound ↦ ?_
    cases found with
    | some t => exact .pure (hfound t rfl).2
    | none =>
      -- No declared record is described so: the fields are guessed, in a record without a name.
      have hparts : ∀ d ∈ fields.map (·.2), Guesses r d (r.infer levels place d) := by
        simpa using fun d name hf ↦ ih (name, d) hf
      refine (ends_guessAll hparts).bind ?_
      rintro _ ⟨parts, rfl, hfields, hparts⟩
      obtain ⟨named, hdescribed, htypes, hnamed⟩ := exists_named hfields
      rw [htypes, hdescribed]
      exact .pure (hr.standard.isDescribed_record _ named false fun f hf ↦ hparts _ (hnamed f hf))
  | @optional d inner valued noUnion ih =>
    rw [infer_of_describable hr (.optional inner valued noUnion)]
    have hinner := Descriptor.optionalInner?_union valued Descriptor.defaultTagField
    simp only [guesserFor, hinner, Option.isSome_some, if_true, inferBy, Descriptor.parts,
      List.map_cons, Option.bind_some, List.lookup_cons_self]
    refine Ends.map ih fun t ht ↦ ?_
    -- The type within is no union, so adding none to it makes the union that was given.
    rw [← Descriptor.orNone_of_ne noUnion valued]
    exact Composes.optional.isDescribed (hgeneric (o := .optional) rfl) (by simpa using ht)
  | @tagged members forks nodup each ih =>
    rw [infer_of_describable hr (.tagged forks nodup each)]
    have hinner := forks.optionalInner?_eq_none Descriptor.defaultTagField
    simp only [guesserFor, hinner, Option.isSome_none, Bool.false_eq_true, if_false, inferBy,
      Descriptor.parts, Option.bind_none]
    refine (ends_guessAll ih).map ?_
    rintro _ ⟨parts, rfl, rfl, hparts⟩
    have hform := (hr.forks_iff hparts).mp forks
    have hcomposed := Composes.tagged (r := r) hform rfl nodup
    rw [Descriptor.ofMembers_of_nodup nodup] at hcomposed
    exact hcomposed.isDescribed (hgeneric (o := .union) rfl) hparts

end Registry

/-! ## Guesses of engines -/

namespace Engine

variable {u : Setup} {e : Engine} {t : HostType} {d : Descriptor}

theorem Under.isDescribed (he : e.Under u) {place : Place}
    (h : (convert fun u ↦ u.describe place t).outcome e = .ok d) : u.registry.IsDescribed t d := by
  obtain ⟨he, rfl⟩ := he
  exact he.isDescribed h

/-- A type is guessed from whatever a type is described as. -/
theorem Under.outcome_infer (he : e.Under u) (hr : u.registry.RecordsOnly)
    (h : u.registry.IsDescribed t d) (place : Place) :
    ∃ g, (convert fun u ↦ u.infer place d).outcome e = .ok g ∧ u.registry.IsDescribed g d := by
  obtain ⟨he, rfl⟩ := he
  have hends := Registry.guesses_infer hr (hr.describable h) (e.setup.levels place) place
  obtain ⟨g, s', hrun, -, hg⟩ := hends.run_eq_ok he.coherent
  exact ⟨g, outcome_of_run (run_convert_of_run hrun), hg⟩

/-- From what a type is described as on one engine, another with the same setup guesses a type, and
a third describes that in the same way or refuses to for want of levels. -/
theorem describe_guess {e₁ e₂ e₃ : Engine} {place₁ : Place} (h₁ : e₁.Under u) (h₂ : e₂.Under u)
    (h₃ : e₃.Under u) (hr : u.registry.RecordsOnly)
    (h : (convert fun u ↦ u.describe place₁ t).outcome e₁ = .ok d) (place₂ place₃ : Place) :
    ∃ g, (convert fun u ↦ u.infer place₂ d).outcome e₂ = .ok g ∧
      ((convert fun u ↦ u.describe place₃ g).outcome e₃ = .ok d ∨
        u.levels place₃ < d.recordDepth ∧
          ∃ path, (convert fun u ↦ u.describe place₃ g).outcome e₃ =
            .error (.nestingLimit path)) := by
  obtain ⟨g, hg, hd⟩ := h₂.outcome_infer hr (h₁.isDescribed h) place₂
  exact ⟨g, hg, h₃.outcome_describe hd place₃⟩

/-! ## A record in two places -/

/-- A record type with one field. -/
def oneField (name field : String) (t : HostType) : HostType := .record name [(field, t)] false

def sharedType : HostType := oneField "shared" "x" (.ofKind .integer)

/-- A record type that holds the shared one. -/
def nearType : HostType := oneField "near" "shared" sharedType

/-- A record type that holds the shared one two levels further in. -/
def farType : HostType := oneField "far" "middle" (oneField "middle" "inner" sharedType)

def sharedDescriptor : Descriptor := .record [("x", .primitive .integer)]

def nearDescriptor : Descriptor := .record [("shared", sharedDescriptor)]

def eitherDescriptor : Descriptor :=
  let middleDescriptor := Descriptor.record [("inner", sharedDescriptor)]
  .union [nearDescriptor, .record [("middle", middleDescriptor)]] Descriptor.defaultTagField

/-- A declared record that is described like the near one, by a record of its own. -/
def alikeSchema : Schema :=
  ⟨"alike", [("shared", oneField "other" "x" (.ofKind .integer))], false⟩

/-- An engine that takes values two levels deep. -/
def alikeEngine : Engine :=
  let settings := { Settings.defaults with maxDepth := 2 }
  let registry := Registry.defaults.declareRecord alikeSchema
  start settings registry ⟨Settings.sharedWorker⟩ (.inMemory "")

theorem recordsOnly_alikeEngine : alikeEngine.setup.registry.RecordsOnly :=
  Registry.recordsOnly_defaults.declareRecord _

theorem reachable_alikeEngine : alikeEngine.Reachable := reachable_start _ _ _ _

/-- Near records are described again as they were, by the declared record. -/
theorem describe_guess_near :
    ∃ g, (convert fun u ↦ u.infer .root nearDescriptor).outcome alikeEngine = .ok g ∧
      (convert fun u ↦ u.describe .root g).outcome alikeEngine = .ok nearDescriptor := by
  have h : alikeEngine.Under alikeEngine.setup := ⟨reachable_alikeEngine, rfl⟩
  have hnear : (convert fun u ↦ u.describe .root nearType).outcome alikeEngine =
      .ok nearDescriptor := rfl
  obtain ⟨g, hg, hd | ⟨hlt, -⟩⟩ :=
    describe_guess h h h recordsOnly_alikeEngine hnear .root .root
  · exact ⟨g, hg, hd⟩
  · exact absurd hlt (by decide)

def eitherType : HostType := .union [nearType, farType]

/-- The engine once it has described near and far records. -/
def eitherEngine : Engine := ((convert fun u ↦ u.describe .root eitherType).run alikeEngine).2

/-- Once the near record is guessed to be the declared one, nothing remembers how the record that is
shared with the far one is described. -/
theorem not_describe_guess :
    ¬ ∀ (e e' e'' : Engine) (t g : HostType) (d : Descriptor), e.Reachable →
      e.setup.registry.RecordsOnly → e.session.described = [] →
      (convert fun u ↦ u.describe .root t).run e = (.ok d, e') →
      (convert fun u ↦ u.infer .root d).run e' = (.ok g, e'') →
      (convert fun u ↦ u.describe .root g).outcome e'' = .ok d := by
  intro h
  have hdescribe : (convert fun u ↦ u.describe .root eitherType).run alikeEngine =
      (.ok eitherDescriptor, eitherEngine) := Prod.ext rfl rfl
  let middleType := oneField "record" "inner" (oneField "record" "x" (.ofKind .integer))
  let guess := HostType.union [.named "alike", oneField "record" "middle" middleType]
  have hguess : (convert fun u ↦ u.infer .root eitherDescriptor).run eitherEngine =
      (.ok guess, _) := Prod.ext rfl rfl
  have hagain := h _ _ _ _ _ _ reachable_alikeEngine recordsOnly_alikeEngine rfl hdescribe hguess
  have hdeep : (convert fun u ↦ u.describe .root guess).outcome
      ((convert fun u ↦ u.infer .root eitherDescriptor).run eitherEngine).2 =
      .error (.nestingLimit [.field "middle", .field "inner", .field "x"]) := rfl
  cases hagain.symm.trans hdeep

end Engine

end Interchange
