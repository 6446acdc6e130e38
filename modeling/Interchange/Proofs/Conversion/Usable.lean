import Interchange.Proofs.Conversion.Guess
import Interchange.Proofs.Registry.History

/-!
# Guessed types that nothing converts

A type is guessed by what is registered for the shape of a descriptor, and found again by its own
shape or by its name.  The two go apart in two ways only.  A union of one type or none is guessed to
be an optional type also where nothing is registered for those, since the converter of unions takes
it then.  And what is registered under a name other than its own guesses its own, which nothing need
be registered under.  Everything else in a guess is converted by something.
-/

namespace Interchange

open Session Attempt

/-- The types that a type is made of directly. -/
def HostType.nested : HostType → List HostType
  | record _ fields _ => fields.map (·.2)
  | t => t.parts

/-- A type is another one or is nested in it, however deep. -/
def HostType.Occurs (t u : HostType) : Prop := Relation.ReflTransGen (fun u t ↦ t ∈ u.nested) u t

/-- The keys that are looked up, one after the other, for what guesses the host type of a descriptor;
stored payloads are claimed instead. -/
def Descriptor.guessKeys : Descriptor → List Key
  | primitive kind => [.exact kind.hostName]
  | collection _ => [.origin .sequence]
  | mapping _ => [.origin .mapping]
  | union members tagField =>
    if (union members tagField).optionalInner?.isSome then [.origin .optional, .origin .union]
    else [.origin .union]
  | blob _ => []
  | record _ => [.origin .record]

namespace Registry

variable {r : Registry} {history : List Change} {t : HostType} {c : Converter}

/-! ## Registries of the library's own converters -/

/-- Whether a change registers nothing from outside the library. -/
def Change.isOwn : Change → Bool
  | register _ (.plugin _) _ => false
  | _ => true

theorem Unplugged.after (h : r.Unplugged) (hown : ∀ change ∈ history, change.isOwn) :
    (r.after history).Unplugged := by
  intro k entry hk p hp
  rcases get?_of_after hk with hk | hmem
  · exact h k entry hk p hp
  · have hregister := hown _ hmem
    rw [hp] at hregister
    cases hregister

/-- What guesses find in a registry of the library's own converters: what claims a type of stored
payloads is registered under the name the claim is for, and plain data has its converters. -/
structure Grounded (r : Registry) : Prop where
  unplugged : r.Unplugged
  claimed : ∀ claim ∈ r.claims, (r.exact claim.host).map (·.converter) = some claim.converter
  kinds : ∀ kind : Kind, (r.exact kind.hostName).map (·.converter) = some (.primitive kind)

/-- Whatever is done to the registry of the built-in converters with the library's own, it stays
grounded. -/
theorem grounded_after (hown : ∀ change ∈ history, change.isOwn) :
    (defaults.after history).Grounded where
  unplugged := builtin_defaults.unplugged.after hown
  claimed claim h := by
    rw [← after_installs, ← after_append] at h ⊢
    exact (exact_of_mem_claims h).1
  kinds kind := by
    have hkind : (defaults.get? (.exact kind.hostName)).map (·.converter) =
        some (.primitive kind) := standard_defaults.exact_primitive kind
    obtain ⟨entry, hentry, he⟩ := Option.map_eq_some_iff.mp hkind
    have hafter := get?_after_of_protected history hentry (by rw [he]; rfl)
    rw [← get?_exact, hafter, Option.map_some, he]

/-! ## Types that nothing converts -/

/-- How a type that is guessed can be one that nothing converts. -/
inductive Adrift (r : Registry) : HostType → Prop
  /-- Nothing is registered for optional types. -/
  | optional {inner : HostType} (removed : r.get? (.origin .optional) = none)
      (noWildcard : r.get? .wildcard = none) : Adrift r (.optional inner)
  /-- What goes by the name is registered under another one, and the name leads to nothing. -/
  | renamed {name host : String} {entry : Registration} (registered : r.exact host = some entry)
      (own : entry.converter.key = .exact name) (other : host ≠ name)
      (nothing : ∀ n ∈ name :: r.ancestors name, r.byName? n = none)
      (noWildcard : r.get? .wildcard = none) : Adrift r (.named name)

/-- A name leads to something that converts, or to nothing. -/
theorem resolve_named_cases (r : Registry) (name : String) :
    (∃ c, r.resolve (.named name) = .ok c) ∨
      (∀ n ∈ name :: r.ancestors name, r.byName? n = none) ∧ r.get? .wildcard = none := by
  simp only [resolve]
  cases hfound : (name :: r.ancestors name).findSome? r.byName? with
  | some c => exact .inl ⟨c, rfl⟩
  | none =>
    cases hwildcard : r.wildcard with
    | some entry => exact .inl ⟨entry.converter, rfl⟩
    | none => exact .inr ⟨List.findSome?_eq_none_iff.mp hfound, hwildcard⟩

/-- Nothing converts a type that is adrift. -/
theorem Adrift.resolve_ne (h : r.Adrift t) (c : Converter) : r.resolve t ≠ .ok c := by
  cases h with
  | optional removed noWildcard =>
    have hremoved : r.origins .optional = none := removed
    have hwildcard : r.wildcard = none := noWildcard
    simp [resolve, HostType.origin?, hremoved, hwildcard]
  | @renamed name _ _ _ _ _ nothing noWildcard =>
    have hwildcard : r.wildcard = none := noWildcard
    have hnothing : (name :: r.ancestors name).findSome? r.byName? = none :=
      List.findSome?_eq_none_iff.mpr nothing
    simp [resolve, hnothing, hwildcard]

/-- Whether something converts a type, or it is adrift. -/
def Settled (r : Registry) (t : HostType) : Prop := (∃ c, r.resolve t = .ok c) ∨ r.Adrift t

theorem settled_optional (r : Registry) (inner : HostType) : r.Settled (.optional inner) := by
  cases hoptional : r.get? (.origin .optional) with
  | some entry => exact .inl ⟨_, resolve_of_origin rfl hoptional⟩
  | none =>
    have hnone : r.origins .optional = none := hoptional
    cases hwildcard : r.wildcard with
    | some entry => exact .inl ⟨entry.converter, by simp [resolve, HostType.origin?, hnone, hwildcard]⟩
    | none => exact .inr (.optional hoptional hwildcard)

/-- What claims a type of stored payloads goes by a name that is converted, or is adrift. -/
theorem Grounded.settled_of_claim (hr : r.Grounded) {claim : Claim} (h : claim ∈ r.claims)
    {name : String} (hkey : claim.converter.key = .exact name) : r.Settled (.named name) := by
  obtain ⟨entry, hentry, he⟩ := Option.map_eq_some_iff.mp (hr.claimed claim h)
  rcases r.resolve_named_cases name with hresolve | ⟨hnothing, hwildcard⟩
  · exact .inl hresolve
  · refine .inr (.renamed hentry (he ▸ hkey) ?_ hnothing hwildcard)
    rintro rfl
    have hname := hnothing _ List.mem_cons_self
    simp [byName?, hentry] at hname

/-! ## What guesses -/

/-- What guesses the type of a stored payload made a claim. -/
theorem exists_claim_of_claimant {type : BlobType} (h : r.claimant type = .ok c) :
    ∃ claim ∈ r.claims, claim.converter = c := by
  unfold claimant at h
  split at h
  · next claim hclaim =>
    cases h
    exact ⟨claim, List.mem_reverse.mp (List.mem_of_find?_eq_some hclaim), rfl⟩
  · dsimp only at h
    split at h
    · next claim hclaim =>
      cases h
      have hmem : claim ∈ (r.claims.filter (·.format.extent = type.extent)).filter
          (·.format.format = "") := by
        rw [hclaim]
        exact List.mem_cons_self
      exact ⟨claim, List.mem_of_mem_filter (List.mem_of_mem_filter hmem), rfl⟩
    · split at h <;> cases h

/-- What guesses the type of a descriptor that is not one of stored payloads is the first that is
registered for the keys of its shape. -/
theorem guesser_eq {d : Descriptor} (hd : ∀ type, d ≠ .blob type) : r.guesser d =
    match d.guessKeys.findSome? fun k ↦ (r.get? k).map (·.converter) with
    | some c => .ok c
    | none => .error (.unsupportedType d.text) := by
  cases d with
  | primitive kind =>
    simp only [guesser, Descriptor.guessKeys, List.findSome?_cons, List.findSome?_nil, get?]
    cases r.exact kind.hostName <;> rfl
  | collection d =>
    simp only [guesser, Descriptor.guessKeys, List.findSome?_cons, List.findSome?_nil, get?]
    cases r.origins .sequence <;> rfl
  | mapping d =>
    simp only [guesser, Descriptor.guessKeys, List.findSome?_cons, List.findSome?_nil, get?]
    cases r.origins .mapping <;> rfl
  | union members tagField =>
    simp only [guesser, Descriptor.guessKeys]
    cases (Descriptor.union members tagField).optionalInner? <;>
      cases hoptional : r.origins .optional <;> cases hunion : r.origins .union <;>
      simp [get?, hoptional, hunion]
  | blob type => exact absurd rfl (hd type)
  | record fields =>
    simp only [guesser, Descriptor.guessKeys, List.findSome?_cons, List.findSome?_nil, get?]
    cases r.origins .record <;> rfl

/-- What guesses the type of a descriptor is registered for one of the keys that are looked up for
its shape, or made a claim to a type of stored payloads. -/
theorem guesser_eq_ok {d : Descriptor} (h : r.guesser d = .ok c) :
    (∃ k ∈ d.guessKeys, ∃ entry, r.get? k = some entry ∧ entry.converter = c) ∨
      ∃ type, d = .blob type ∧ ∃ claim ∈ r.claims, claim.converter = c := by
  by_cases hd : ∃ type, d = .blob type
  · obtain ⟨type, rfl⟩ := hd
    rw [guesser_blob] at h
    exact .inr ⟨type, rfl, exists_claim_of_claimant h⟩
  · rw [guesser_eq fun type he ↦ hd ⟨type, he⟩] at h
    split at h
    · next c' hfound =>
      cases h
      obtain ⟨k, hk, hc⟩ := List.exists_of_findSome?_eq_some hfound
      exact .inl ⟨k, hk, Option.map_eq_some_iff.mp hc⟩
    · cases h

/-- A converter that guesses is not from outside the library. -/
theorem Grounded.guesser_ne_plugin (hr : r.Grounded) {d : Descriptor} (h : r.guesser d = .ok c)
    (p : Plugin) : c ≠ .plugin p := by
  rcases guesser_eq_ok h with ⟨k, -, entry, hentry, rfl⟩ | ⟨_, -, claim, hclaim, rfl⟩
  · exact hr.unplugged k entry hentry p
  · obtain ⟨entry, hentry, he⟩ := Option.map_eq_some_iff.mp (hr.claimed claim hclaim)
    exact he ▸ hr.unplugged (.exact claim.host) entry hentry p

/-- What is guessed for a descriptor of a shape with a single key is converted if it has that
shape. -/
theorem settled_of_guesser {d : Descriptor} {o : Origin} (h : r.guesser d = .ok c)
    (hd : d.guessKeys = [.origin o]) (ht : t.origin? = some o) : r.Settled t := by
  rcases guesser_eq_ok h with ⟨k, hk, entry, hentry, -⟩ | ⟨type, rfl, -⟩
  · rw [hd, List.mem_singleton] at hk
    exact .inl ⟨_, resolve_of_origin ht (hk ▸ hentry)⟩
  · cases hd

/-! ## What is guessed -/

/-- A type and all that is nested in it is converted or adrift. -/
def Usable (r : Registry) (t : HostType) : Prop := ∀ u, u.Occurs t → r.Settled u

theorem Settled.usable (h : r.Settled t) (hnested : ∀ u ∈ t.nested, r.Usable u) : r.Usable t := by
  intro u hu
  rcases hu.cases_head with rfl | ⟨t', hmem, hu⟩
  · exact h
  · exact hnested t' hmem u hu

theorem Settled.usable_named {name : String} (h : r.Settled (.named name)) :
    r.Usable (.named name) := h.usable (List.forall_mem_nil _)

/-- What is described is converted. -/
theorem settled_of_isDescribed {d : Descriptor} (h : r.IsDescribed t d) : r.Settled t := by
  cases h with
  | intro _ resolved => exact .inl ⟨_, resolved⟩

/-- A guess comes to a usable type or fails. -/
abbrev GuessesUsable (r : Registry) (x : Conversion HostType) : Prop :=
  Ends (Coherent r) r.Usable (fun _ ↦ True) x

theorem ends_guessAll_usable {parts : List (Descriptor × Conversion HostType)}
    (h : ∀ part ∈ parts, r.GuessesUsable part.2) :
    Ends (Coherent r) (fun ts ↦ ∀ t ∈ ts, r.Usable t) (fun _ ↦ True) (guessAll parts) := by
  induction parts with
  | nil => exact .pure (List.forall_mem_nil _)
  | cons part parts ih =>
    obtain ⟨hpart, hparts⟩ := List.forall_mem_cons.mp h
    refine hpart.bind fun t ht ↦ (ih hparts).bind fun ts hts ↦ ?_
    exact .pure (List.forall_mem_cons.mpr ⟨ht, hts⟩)

/-- A declared record that is found is converted by something. -/
theorem ends_recordDescribed?_usable (levels : Nat) (place : Place) (d : Descriptor)
    (schemas : List Schema) :
    Ends (Coherent r) (fun found ↦ ∀ t, found = some t → r.Usable t) (fun _ ↦ True)
      (recordDescribed? (r.describe levels place) d schemas) := by
  have hdescribe (t : HostType) := ends_describe (r := r) (t := t) levels place
  refine (ends_recordDescribed? hdescribe d schemas).mono (fun found hfound t ht ↦ ?_)
    fun _ _ ↦ trivial
  obtain ⟨⟨name, rfl⟩, hd⟩ := hfound t ht
  exact (settled_of_isDescribed hd).usable_named

theorem usable_optional {inner : HostType} (h : r.Usable inner) : r.Usable (.optional inner) :=
  (r.settled_optional inner).usable (List.forall_mem_singleton.mpr h)

theorem guessesUsable_of_lookup {d : Descriptor} {parts : List (Descriptor × Conversion HostType)}
    {x : Conversion HostType} (h : ∀ part ∈ parts, r.GuessesUsable part.2)
    (hx : parts.lookup d = some x) : r.GuessesUsable x := by
  obtain ⟨before, after, rfl, -⟩ := List.lookup_eq_some_iff.mp hx
  exact h _ (List.mem_append_right _ List.mem_cons_self)

/-- A union whose other member beside none is not among its parts is looked up as a union only. -/
theorem guessKeys_of_lookup_eq_none {members : List Descriptor} {tagField : String}
    {parts : List (Descriptor × Conversion HostType)} (hparts : members = parts.map (·.1))
    (h : (Descriptor.union members tagField).optionalInner?.bind (parts.lookup ·) = none) :
    (Descriptor.union members tagField).guessKeys = [.origin .union] := by
  cases hinner : (Descriptor.union members tagField).optionalInner? with
  | none => simp [Descriptor.guessKeys, hinner]
  | some inner =>
    have hmem : inner ∈ members := by
      obtain ⟨-, _, hd | hd⟩ := Descriptor.optionalInner?_eq_some.mp hinner <;> cases hd <;> simp
    rw [hparts] at hmem
    obtain ⟨part, hpart, rfl⟩ := List.mem_map.mp hmem
    rw [hinner, Option.bind_some, List.lookup_eq_none_iff] at h
    simpa using h part hpart

/-- What a converter guesses for a descriptor that it is picked for is usable. -/
theorem Grounded.ends_inferBy (hr : r.Grounded) {levels : Nat} {place : Place} {d : Descriptor}
    {parts : List (Descriptor × Conversion HostType)} (hc : r.guesser d = .ok c)
    (hd : d.parts = parts.map (·.1)) (hparts : ∀ part ∈ parts, r.GuessesUsable part.2) :
    r.GuessesUsable (r.inferBy levels place c d parts) := by
  have hclaimed {name : String} (hkeys : d.guessKeys = []) (hkey : c.key = .exact name) :
      r.Settled (.named name) := by
    rcases guesser_eq_ok hc with ⟨k, hk, -⟩ | ⟨_, -, claim, hclaim, rfl⟩
    · rw [hkeys] at hk
      cases hk
    · exact hr.settled_of_claim hclaim hkey
  unfold inferBy
  split
  · split
    · exact .pure (Settled.usable_named (.inl ⟨_, resolve_of_exact (hr.kinds _)⟩))
    · exact .throw trivial
  · split
    · split
      · exact .pure (hclaimed rfl rfl).usable_named
      · exact .throw trivial
    · exact .throw trivial
  · split
    · next hblob =>
      subst hblob
      exact .pure (hclaimed rfl rfl).usable_named
    · exact .throw trivial
  · exact absurd rfl (hr.guesser_ne_plugin hc _)
  · exact (hparts _ List.mem_cons_self).map fun t ht ↦
      (settled_of_guesser hc rfl rfl).usable (List.forall_mem_singleton.mpr ht)
  · exact (hparts _ List.mem_cons_self).map fun t ht ↦
      (settled_of_guesser hc rfl rfl).usable (List.forall_mem_singleton.mpr ht)
  · split
    · next inner hinner =>
      obtain ⟨d', -, hlookup⟩ := Option.bind_eq_some_iff.mp hinner
      exact (guessesUsable_of_lookup hparts hlookup).map fun _ ↦ usable_optional
    · exact .throw trivial
  · split
    · next inner hinner =>
      obtain ⟨d', -, hlookup⟩ := Option.bind_eq_some_iff.mp hinner
      exact (guessesUsable_of_lookup hparts hlookup).map fun _ ↦ usable_optional
    · next hinner =>
      have hkeys := guessKeys_of_lookup_eq_none hd hinner
      exact (ends_guessAll_usable hparts).map fun ts hts ↦
        (settled_of_guesser hc hkeys rfl).usable hts
  · refine (ends_recordDescribed?_usable levels place _ _).bind fun found hfound ↦ ?_
    cases found with
    | some t => exact .pure (hfound t rfl)
    | none =>
      refine (ends_guessAll_usable hparts).bind fun ts hts ↦ ?_
      refine .pure ((settled_of_guesser hc rfl rfl).usable ?_)
      intro t ht
      obtain ⟨f, hf, rfl⟩ := List.mem_map.mp ht
      exact hts _ (List.of_mem_zip hf).2
  · exact .throw trivial

/-- Whatever is guessed is usable. -/
theorem Grounded.guessesUsable_infer (hr : r.Grounded) (levels : Nat) (place : Place)
    (d : Descriptor) : r.GuessesUsable (r.infer levels place d) := by
  induction d using Descriptor.parts_induction with
  | step d ih =>
    rw [infer_eq, inferStep]
    refine .bind_ofExcept (fun _ _ ↦ trivial) fun c hc ↦ hr.ends_inferBy hc ?_ ?_
    · rw [List.map_map]
      exact (List.map_id _).symm
    · intro _ hmem
      obtain ⟨part, hpart, rfl⟩ := List.mem_map.mp hmem
      exact ih part hpart

end Registry

/-! ## Guesses of engines -/

namespace Engine

open Registry

variable {e : Engine} {history : List Change} {place : Place} {d : Descriptor} {t u : HostType}

/-- Whatever the library's own converters were registered for or removed from, each type in a guess
is converted by something, unless it is adrift. -/
theorem resolve_of_infer (he : e.Reachable) (hr : e.setup.registry = defaults.after history)
    (hown : ∀ change ∈ history, change.isOwn)
    (h : (convert fun u ↦ u.infer place d).outcome e = .ok t) (hu : u.Occurs t) :
    (∃ c, e.setup.registry.resolve u = .ok c) ↔ ¬ e.setup.registry.Adrift u := by
  constructor
  · rintro ⟨c, hc⟩ hadrift
    exact hadrift.resolve_ne c hc
  · intro hadrift
    have hgrounded : e.setup.registry.Grounded := hr ▸ grounded_after hown
    have hends := hgrounded.guessesUsable_infer (e.setup.levels place) place d
    have husable := of_outcome_eq_ok (fun u ↦ u.infer place d) hends he.coherent h
    exact (husable u hu).resolve_right hadrift

/-- An engine with a history of its registry. -/
def startAfter (history : List Change) : Engine :=
  start Settings.defaults (defaults.after history) ⟨Settings.sharedWorker⟩ (.inMemory "")

/-- The converter of JSON lines under its own name, and none for dictionaries. -/
def linesHistory : List Change :=
  [.register (.exact JsonLines.typeName) .jsonLines false, .unregister (.origin .mapping)]

/-- Lists of streams of JSON lines are guessed, and the streams among them are converted. -/
theorem resolve_of_infer_lines :
    (convert fun u ↦ u.infer .root (.collection (.blob JsonLines.blobType))).outcome
        (startAfter linesHistory) = .ok (.list (.named JsonLines.typeName)) ∧
      ((∃ c, (startAfter linesHistory).setup.registry.resolve (.named JsonLines.typeName) =
          .ok c) ↔
        ¬ (startAfter linesHistory).setup.registry.Adrift (.named JsonLines.typeName)) := by
  have hguess : (convert fun u ↦ u.infer .root (.collection (.blob JsonLines.blobType))).outcome
      (startAfter linesHistory) = .ok (.list (.named JsonLines.typeName)) := rfl
  refine ⟨hguess, resolve_of_infer (reachable_start _ _ _ _) rfl ?_ hguess ?_⟩
  · decide
  · exact .single List.mem_cons_self

/-- A type that is guessed need not be converted by anything: without a converter for optional
types, that of unions still guesses one. -/
theorem not_resolve_of_infer :
    ¬ ∀ (e : Engine) (history : List Change) (place : Place) (d : Descriptor) (t u : HostType),
      e.Reachable → e.setup.registry = defaults.after history →
      (∀ change ∈ history, change.isOwn) →
      (convert fun u ↦ u.infer place d).outcome e = .ok t → u.Occurs t →
      ∃ c, e.setup.registry.resolve u = .ok c := by
  intro h
  let integerOrNone := Descriptor.union [.primitive .integer, .primitive .none] "tag"
  let e := startAfter [.unregister (.origin .optional)]
  have hguess : (convert fun u ↦ u.infer .root integerOrNone).outcome e =
      .ok (.optional (.ofKind .integer)) := rfl
  obtain ⟨c, hc⟩ := h e _ _ _ _ _ (reachable_start _ _ _ _) rfl (by decide) hguess .refl
  have hnothing : e.setup.registry.resolve (.optional (.ofKind .integer)) =
      .error (.unsupportedType "Optional[int]") := rfl
  cases hc.symm.trans hnothing

end Engine

end Interchange
