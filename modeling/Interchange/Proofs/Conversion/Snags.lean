import Interchange.Proofs.Conversion.Checks

/-!
# What a check does not see

A value that passes the check of a type can still be refused when it is encoded.  `Snag` says where:
a check does not ask a list that stands for a stream for an item, does not look into the fields that
an open record takes beside its own, and does not go one level further in for them.  A value that
passes the check and has no snag in it is `Encodable`.

`Finds` leads from a value to what is inside it, along the path that encoding takes: into items and
declared fields, and from a tagged union to the first member that accepts the value.
-/

namespace Interchange

/-- The generic shape that a converter is for. -/
def Converter.origin? : Converter → Option Origin
  | sequence => some .sequence
  | mapping => some .mapping
  | optional => some .optional
  | union => some .union
  | record => some .record
  | _ => none

namespace Registry

/-- A predicate of a value that stands at a place where so many levels are left, to be encoded as a
host type, and of a fault. -/
abbrev Finding := Nat → Place → HostType → Value → Fault → Prop

/-- What a predicate says of a value or of anything inside it that is encoded by its type. -/
inductive Finds (r : Registry) (P : Finding) : Finding
  | here {levels : Nat} {place : Place} {t : HostType} {v : Value} {f : Fault}
      (holds : P levels place t v f) : Finds r P levels place t v f
  | item {levels : Nat} {place : Place} {t : HostType} {vs : List Value} {item : Value × Nat}
      {f : Fault} (resolved : r.resolve (.list t) = .ok .sequence) (mem : item ∈ vs.zipIdx)
      (inside : Finds r P levels (place.child (.index item.2)) t item.1 f) :
      Finds r P (levels + 1) place (.list t) (.list vs) f
  | entry {levels : Nat} {place : Place} {t : HostType} {es : List (String × Value)}
      {e : String × Value} {f : Fault} (resolved : r.resolve (.dict t) = .ok .mapping)
      (mem : e ∈ es) (inside : Finds r P levels (place.child (.key e.1)) t e.2 f) :
      Finds r P (levels + 1) place (.dict t) (.map es) f
  | field {levels : Nat} {place : Place} {t : HostType} {s : Schema} {field : String × HostType}
      {name : Option String} {fields : List (String × Value)} {v : Value} {f : Fault}
      (resolved : r.resolve t = .ok .record) (schema : r.schemaOf t = .ok s)
      (mem : field ∈ s.fields) (found : Entries.get? field.1 fields = some v)
      (inside : Finds r P levels (place.child (.field field.1)) field.2 v f) :
      Finds r P (levels + 1) place t (.record name fields) f
  | present {levels : Nat} {place : Place} {t inner : HostType} {v : Value} {f : Fault}
      (nullable : r.Nullable t inner) (isSome : v.isNone = false)
      (inside : Finds r P levels place inner v f) : Finds r P levels place t v f
  | plain {levels : Nat} {place : Place} {members : List HostType} {t : HostType} {v : Value}
      {f : Fault} (plain : r.Plain members t) (inside : Finds r P levels place t v f) :
      Finds r P levels place (.union members) v f
  | member {levels : Nat} {place : Place} {members : List HostType} {t : HostType} {v : Value}
      {f : Fault} (resolved : r.resolve (.union members) = .ok .union)
      (form : HostType.unionForm members = .tagged)
      (accepted : members.find? (fun t ↦ (r.check levels place t v).isOk) = some t)
      (inside : Finds r P levels place t v f) : Finds r P levels place (.union members) v f

/-- A value that encoding refuses with a fault for a reason that its check does not look for. -/
inductive Snag (r : Registry) : Finding
  /-- A list that is stored as a stream has to have an item. -/
  | nothing {levels : Nat} {place : Place} {t : HostType}
      (resolved : r.resolve t = .ok .jsonLines) :
      Snag r levels place t (.list []) (.emptyStream place.path)
  /-- All fields of a record stand one level further in, the undeclared ones as well. -/
  | noLevel {place : Place} {t : HostType} {name : Option String} {fields : List (String × Value)}
      {field : String × Value} (resolved : r.resolve t = .ok .record) (mem : field ∈ fields) :
      Snag r 0 place t (.record name fields) (.nestingLimit (place.path.child (.field field.1)))
  /-- An undeclared field is written by its shape, which a foreign value does not have. -/
  | shapeless {levels : Nat} {place : Place} {t : HostType} {s : Schema} {name : Option String}
      {fields : List (String × Value)} {field : String × Value} {key : String}
      (resolved : r.resolve t = .ok .record) (schema : r.schemaOf t = .ok s) (mem : field ∈ fields)
      (undeclared : s.get? field.1 = none) (held : key ∈ field.2.foreignKeys) :
      Snag r levels place t (.record name fields) (.unsupportedType key)

/-- Snags in a value. -/
abbrev Snags (r : Registry) : Finding := r.Finds r.Snag

/-- Snags in a value, and the faults with which what is inside it fails its check. -/
abbrev Faults (r : Registry) : Finding :=
  r.Finds fun levels place t v f ↦ r.Snag levels place t v f ∨ r.check levels place t v = .error f

/-- A value passes the check and has no snag in it. -/
structure Encodable (r : Registry) (levels : Nat) (place : Place) (t : HostType) (v : Value) :
    Prop where
  accepted : r.check levels place t v = .ok ()
  smooth : ∀ f, ¬ r.Snags levels place t v f

variable {r : Registry} {P Q : Finding} {known : Knowledge} {levels : Nat} {place : Place}
  {t inner : HostType} {members : List HostType} {v : Value} {f : Fault}

theorem Finds.mono (h : r.Finds P levels place t v f)
    (hPQ : ∀ levels place t v f, P levels place t v f → Q levels place t v f) :
    r.Finds Q levels place t v f := by
  induction h with
  | here holds => exact .here (hPQ _ _ _ _ _ holds)
  | item resolved mem _ ih => exact .item resolved mem ih
  | entry resolved mem _ ih => exact .entry resolved mem ih
  | field resolved schema mem found _ ih => exact .field resolved schema mem found ih
  | present nullable isSome _ ih => exact .present nullable isSome ih
  | plain plain _ ih => exact .plain plain ih
  | member resolved form accepted _ ih => exact .member resolved form accepted ih

/-- The carried fields of a record that passes its check are those of the value. -/
theorem check_record_eq_ok {s : Schema} (resolved : r.resolve t = .ok .record)
    (schema : r.schemaOf t = .ok s) {name : Option String} {fields : List (String × Value)} :
    r.check levels place t (.record name fields) = .ok () ↔
      r.fieldsFor place s (.record name fields) = .ok fields ∧
        ∀ field ∈ s.fields, ∀ v, Entries.get? field.1 fields = some v →
          r.checkIn levels place (.field field.1) field.2 v = .ok () := by
  rw [check_record resolved schema]
  cases hfields : r.fieldsFor place s (.record name fields) with
  | error e => simp
  | ok carried =>
    obtain ⟨⟨_, hv⟩, -⟩ := fieldsFor_eq_ok hfields
    cases hv
    rw [ok_bind, forM_eq_ok]
    constructor
    · refine fun h ↦ ⟨rfl, fun field hfield v hv ↦ ?_⟩
      simpa [checkField, hv] using h field hfield
    · rintro ⟨-, h⟩ field hfield
      unfold checkField
      split
      · rfl
      · next v hv => exact h field hfield v hv

theorem check_of_isOk (h : (r.check levels place t v).isOk = true) :
    r.check levels place t v = .ok () := by
  cases hc : r.check levels place t v with
  | ok _ => rfl
  | error e =>
    rw [hc] at h
    cases h

/-- In a value that passes its check, all that is found passes its own. -/
theorem Finds.of_check (h : r.Finds P levels place t v f)
    (hc : r.check levels place t v = .ok ()) :
    r.Finds (fun levels place t v f ↦ r.check levels place t v = .ok () ∧ P levels place t v f)
      levels place t v f := by
  induction h with
  | here holds => exact .here ⟨hc, holds⟩
  | item resolved mem _ ih =>
    rw [check_list resolved] at hc
    exact .item resolved mem (ih (forM_eq_ok.mp hc _ mem))
  | entry resolved mem _ ih =>
    rw [check_dict resolved] at hc
    exact .entry resolved mem (ih (forM_eq_ok.mp hc _ mem))
  | field resolved schema mem found _ ih =>
    have hfields := ((check_record_eq_ok resolved schema).mp hc).2
    exact .field resolved schema mem found (ih (hfields _ mem _ found))
  | present nullable isSome _ ih =>
    rw [check_nullable nullable, isSome] at hc
    exact .present nullable isSome (ih hc)
  | plain plain _ ih =>
    rw [check_plain plain] at hc
    exact .plain plain (ih hc)
  | member resolved form accepted _ ih =>
    have haccepts := List.find?_some accepted
    exact .member resolved form accepted (ih (check_of_isOk haccepts))

/-- An encodable value has no fault in it at all. -/
theorem Encodable.not_faults (h : r.Encodable levels place t v) :
    ¬ r.Faults levels place t v f := by
  intro hf
  refine h.smooth f ((hf.of_check h.accepted).mono ?_)
  rintro levels place t v f ⟨hc, hsnag | hfault⟩
  · exact hsnag
  · cases hc.symm.trans hfault

/-! ## What is found at a type -/

theorem Nullable.unique {inner' : HostType} (h : r.Nullable t inner) (h' : r.Nullable t inner') :
    inner = inner' := by
  cases h with
  | optional =>
    cases h'
    rfl
  | union _ _ member =>
    cases h' with
    | union _ _ member' => exact Option.some.inj (member.symm.trans member')

theorem Finds.of_nullable (h : r.Finds P levels place t v f) (hn : r.Nullable t inner) :
    P levels place t v f ∨ v.isNone = false ∧ r.Finds P levels place inner v f := by
  cases h with
  | here holds => exact .inl holds
  | present nullable isSome inside =>
    rw [hn.unique nullable]
    exact .inr ⟨isSome, inside⟩
  | item | entry => cases hn
  | field resolved =>
    cases hn with
    | optional resolved' | union resolved' => cases resolved.symm.trans resolved'
  | plain plain =>
    cases hn with
    | union _ form => cases plain.form.symm.trans form
  | member _ form =>
    cases hn with
    | union _ form' => cases form.symm.trans form'

theorem Finds.of_plain (h : r.Finds P levels place (.union members) v f) (hp : r.Plain members t) :
    P levels place (.union members) v f ∨ r.Finds P levels place t v f := by
  cases h with
  | here holds => exact .inl holds
  | plain plain inside =>
    rw [Option.some.inj (hp.member.symm.trans plain.member)]
    exact .inr inside
  | field resolved => cases resolved.symm.trans hp.resolved
  | present nullable =>
    cases nullable with
    | union _ form => cases hp.form.symm.trans form
  | member _ form => cases hp.form.symm.trans form

theorem Finds.of_tagged (h : r.Finds P levels place (.union members) v f)
    (resolved : r.resolve (.union members) = .ok .union)
    (form : HostType.unionForm members = .tagged) :
    P levels place (.union members) v f ∨
      ∃ t, members.find? (fun t ↦ (r.check levels place t v).isOk) = some t ∧
        r.Finds P levels place t v f := by
  cases h with
  | here holds => exact .inl holds
  | member _ _ accepted inside => exact .inr ⟨_, accepted, inside⟩
  | field resolved' => cases resolved.symm.trans resolved'
  | present nullable =>
    cases nullable with
    | union _ form' => cases form.symm.trans form'
  | plain plain => cases form.symm.trans plain.form

/-- The members of a union are looked at in the same order with their descriptors. -/
theorem find?_accepting {α : Type} (parts : List (HostType × α)) :
    (parts.map (·.1)).find? (fun t ↦ (r.check levels place t v).isOk) =
      (r.accepting? levels place v parts).map (·.1) := by
  rw [List.find?_map]
  rfl

/-- Snags are of records and of streams only. -/
theorem Snag.resolve (h : r.Snag levels place t v f) :
    r.resolve t = .ok .jsonLines ∨ r.resolve t = .ok .record := by
  cases h with
  | nothing resolved => exact .inl resolved
  | noLevel resolved | shapeless resolved => exact .inr resolved

/-- A type that is no generic shape has nothing inside. -/
theorem Finds.of_leaf (h : r.Finds P levels place t v f) {c : Converter}
    (resolved : r.resolve t = .ok c) (hc : c.origin? = none) : P levels place t v f := by
  cases h with
  | here holds => exact holds
  | item resolved' | entry resolved' | field resolved' | member resolved' =>
    cases resolved.symm.trans resolved'
    cases hc
  | present nullable =>
    cases nullable with
    | optional resolved' | union resolved' =>
      cases resolved.symm.trans resolved'
      cases hc
  | plain plain =>
    cases resolved.symm.trans plain.resolved
    cases hc

/-! ## Encodable values by type -/

/-- At a type without snags of its own, a value is encodable that passes its check. -/
theorem encodable_leaf {c : Converter} (resolved : r.resolve t = .ok c) (hc : c.origin? = none)
    (hsnag : ∀ f, ¬ r.Snag levels place t v f) (h : r.check levels place t v = .ok ()) :
    r.Encodable levels place t v := by
  refine ⟨h, ?_⟩
  intro f hf
  exact hsnag f (hf.of_leaf resolved hc)

theorem encodable_list {vs : List Value} (resolved : r.resolve (.list t) = .ok .sequence)
    (h : ∀ item ∈ vs.zipIdx, ∃ n, levels = n + 1 ∧
      r.Encodable n (place.child (.index item.2)) t item.1) :
    r.Encodable levels place (.list t) (.list vs) := by
  constructor
  · rw [check_list resolved, forM_eq_ok]
    intro item hitem
    obtain ⟨n, hn, hencodable⟩ := h item hitem
    exact checkIn_eq_ok.mpr ⟨n, hn, hencodable.accepted⟩
  · intro f hf
    cases hf with
    | here hsnag => cases hsnag with
      | nothing resolved' => cases resolved.symm.trans resolved'
    | item _ mem inside =>
      obtain ⟨n, hn, hencodable⟩ := h _ mem
      cases hn
      exact hencodable.smooth f inside
    | present nullable => cases nullable

theorem encodable_dict {es : List (String × Value)} (resolved : r.resolve (.dict t) = .ok .mapping)
    (h : ∀ e ∈ es, ∃ n, levels = n + 1 ∧ r.Encodable n (place.child (.key e.1)) t e.2) :
    r.Encodable levels place (.dict t) (.map es) := by
  constructor
  · rw [check_dict resolved, forM_eq_ok]
    intro e he
    obtain ⟨n, hn, hencodable⟩ := h e he
    exact checkIn_eq_ok.mpr ⟨n, hn, hencodable.accepted⟩
  · intro f hf
    cases hf with
    | here hsnag => cases hsnag
    | entry _ mem inside =>
      obtain ⟨n, hn, hencodable⟩ := h _ mem
      cases hn
      exact hencodable.smooth f inside
    | present nullable => cases nullable

theorem Nullable.no_snag (hn : r.Nullable t inner) : ¬ r.Snag levels place t v f := by
  intro hsnag
  cases hn with
  | optional resolved | union resolved =>
    rcases hsnag.resolve with resolved' | resolved' <;> cases resolved.symm.trans resolved'

theorem encodable_absent (hn : r.Nullable t inner) : r.Encodable levels place t .none := by
  constructor
  · rw [check_nullable hn]
    rfl
  · intro f hf
    rcases hf.of_nullable hn with hsnag | ⟨hsome, -⟩
    · exact hn.no_snag hsnag
    · cases hsome

theorem encodable_present (hn : r.Nullable t inner) (isSome : v.isNone = false)
    (h : r.Encodable levels place inner v) : r.Encodable levels place t v := by
  constructor
  · rw [check_nullable hn, isSome]
    exact h.accepted
  · intro f hf
    rcases hf.of_nullable hn with hsnag | ⟨-, inside⟩
    · exact hn.no_snag hsnag
    · exact h.smooth f inside

theorem no_snag_union (resolved : r.resolve (.union members) = .ok .union) :
    ¬ r.Snag levels place (.union members) v f := by
  intro hsnag
  rcases hsnag.resolve with resolved' | resolved' <;> cases resolved.symm.trans resolved'

theorem encodable_plain (hp : r.Plain members t) (h : r.Encodable levels place t v) :
    r.Encodable levels place (.union members) v := by
  constructor
  · rw [check_plain hp]
    exact h.accepted
  · intro f hf
    rcases hf.of_plain hp with hsnag | inside
    · exact no_snag_union hp.resolved hsnag
    · exact h.smooth f inside

/-- The first member of a tagged union that accepts a value decides. -/
theorem encodable_tagged {parts : List (HostType × Descriptor)} {part : HostType × Descriptor}
    (ht : r.Tagged known parts)
    (hfirst : firstAccepting (place.noMember (.union (parts.map (·.1))) v)
      (fun part ↦ r.check levels place part.1 v) parts = .ok part)
    (h : r.Encodable levels place part.1 v) :
    r.Encodable levels place (.union (parts.map (·.1))) v := by
  constructor
  · rw [check_tagged ht, hfirst]
    rfl
  · intro f hf
    rcases hf.of_tagged ht.resolved ht.form with hsnag | ⟨t, haccepted, inside⟩
    · exact no_snag_union ht.resolved hsnag
    · rw [find?_accepting, accepting?_of_firstAccepting hfirst] at haccepted
      cases haccepted
      exact h.smooth f inside

theorem encodable_record {s : Schema} {name : Option String} {fields : List (String × Value)}
    (resolved : r.resolve t = .ok .record) (schema : r.schemaOf t = .ok s)
    (hfields : r.fieldsFor place s (.record name fields) = .ok fields)
    (room : fields ≠ [] → ∃ n, levels = n + 1)
    (declared : ∀ field ∈ s.fields, ∀ v, Entries.get? field.1 fields = some v →
      ∃ n, levels = n + 1 ∧ r.Encodable n (place.child (.field field.1)) field.2 v)
    (undeclared : ∀ field ∈ fields, s.get? field.1 = none → field.2.foreignKeys = []) :
    r.Encodable levels place t (.record name fields) := by
  constructor
  · rw [check_record_eq_ok resolved schema]
    refine ⟨hfields, fun field hfield v hv ↦ ?_⟩
    obtain ⟨n, hn, hencodable⟩ := declared field hfield v hv
    exact checkIn_eq_ok.mpr ⟨n, hn, hencodable.accepted⟩
  · intro f hf
    cases hf with
    | here hsnag =>
      cases hsnag with
      | noLevel _ mem =>
        obtain ⟨n, hn⟩ := room (List.ne_nil_of_mem mem)
        cases hn
      | shapeless _ schema' mem hget held =>
        cases schema.symm.trans schema'
        rw [undeclared _ mem hget] at held
        cases held
    | field _ schema' mem found inside =>
      cases schema.symm.trans schema'
      obtain ⟨n, hn, hencodable⟩ := declared _ mem _ found
      cases hn
      exact hencodable.smooth f inside
    | present nullable isSome inside =>
      cases nullable with
      | optional resolved' | union resolved' => cases resolved.symm.trans resolved'
    | plain plain => cases resolved.symm.trans plain.resolved
    | member resolved' => cases resolved.symm.trans resolved'

end Registry

end Interchange
