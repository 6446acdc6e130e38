import Interchange.Conversion.Describe
import Interchange.Registry.Lookup
import Mathlib.Logic.Relation

/-!
# Standard registries

A registry is standard while it has just the built-in converters, whatever parents and records are
declared in it.  Then no type is converted by a plugged-in converter or on the worker.

A record type can declare a name twice; only the first declaration counts where the value of a field
is looked at, the descriptor has both.  `DistinctFields` excludes this for all records that a type
is about.
-/

namespace Interchange

/-- Whether a converter is one for plain data, references or a generic shape. -/
def Converter.isBuiltin : Converter → Bool
  | jsonLines | plugin _ => false
  | _ => true

namespace Registry

variable {r : Registry} {c : Converter} {t : HostType}

/-! ## What is registered -/

@[simp] theorem get?_addClaim (host : String) (c : Converter) (r : Registry) (format : BlobType)
    (k : Key) : (addClaim host c r format).get? k = r.get? k := by cases k <;> rfl

@[simp] theorem get?_claimFormats (r : Registry) (host : String) (c : Converter) (k : Key) :
    (r.claimFormats host c).get? k = r.get? k := by
  have hfold (formats : List BlobType) (r : Registry) :
      (formats.foldl (addClaim host c) r).get? k = r.get? k := by
    induction formats generalizing r with
    | nil => rfl
    | cons format formats ih => rw [List.foldl_cons, ih, get?_addClaim]
  rw [claimFormats, hfold]
  cases k <;> rfl

/-- A registration is for its key alone. -/
theorem get?_of_register {k k' : Key} {isDefault : Bool} {previous : Option Converter}
    {r' : Registry} (h : r.register k c isDefault = .ok (previous, r')) :
    r'.get? k' = if k' = k then some ⟨c, isDefault⟩ else r.get? k' := by
  unfold register at h
  split at h
  · cases h
    have hput : (r.put k (some ⟨c, isDefault⟩)).get? k' =
        if k' = k then some ⟨c, isDefault⟩ else r.get? k' := by
      split
      · next hk => rw [hk, get?_put_self]
      · next hk => exact get?_put_of_ne r hk _
    cases k <;> simpa using hput
  · cases h

/-- Every registration is one of a built-in converter. -/
def Builtin (r : Registry) : Prop := ∀ k entry, r.get? k = some entry → entry.converter.isBuiltin

/-- What is found under a key after a converter is installed was there or is the converter. -/
theorem get?_install {k : Key} {entry : Registration} (h : (r.install c).get? k = some entry) :
    (entry.converter = c ∧ c.key = k) ∨ r.get? k = some entry := by
  unfold Registry.install at h
  split at h
  · next hr =>
    rw [get?_of_register hr] at h
    split at h
    · next hk =>
      cases h
      exact .inl ⟨rfl, hk.symm⟩
    · exact .inr h
  · exact .inr h

/-- The registry of the built-in converters has each under a key of its own. -/
theorem converter_of_get?_defaults {k : Key} {entry : Registration}
    (h : defaults.get? k = some entry) :
    entry.converter ∈ builtins ∧ entry.converter.key = k := by
  have hfold (cs : List Converter) (r : Registry) (h : (cs.foldl install r).get? k = some entry) :
      (entry.converter ∈ cs ∧ entry.converter.key = k) ∨ r.get? k = some entry := by
    induction cs generalizing r with
    | nil => exact .inr h
    | cons c cs ih =>
      rcases ih _ h with ⟨hmem, hkey⟩ | h
      · exact .inl ⟨List.mem_cons_of_mem _ hmem, hkey⟩
      · rcases get?_install h with ⟨rfl, hkey⟩ | h
        · exact .inl ⟨List.mem_cons_self, hkey⟩
        · exact .inr h
  rcases hfold builtins empty h with h | h
  · exact h
  · rw [get?_empty] at h
    cases h

theorem builtin_defaults : defaults.Builtin := by
  intro k entry h
  have hall : builtins.all Converter.isBuiltin = true := rfl
  exact List.all_eq_true.mp hall _ (converter_of_get?_defaults h).1

/-- The registry has the built-in converters under their keys and no others.  Any parents and
records may be declared. -/
def Standard (r : Registry) : Prop :=
  ∀ k, (r.get? k).map (·.converter) = (defaults.get? k).map (·.converter)

theorem standard_defaults : defaults.Standard := fun _ ↦ rfl

theorem Standard.declareParents (h : r.Standard) (child : String) (parents : List String) :
    (r.declareParents child parents).Standard := fun k ↦ by
  rw [← h k]
  cases k <;> rfl

theorem Standard.declareRecord (h : r.Standard) (s : Schema) : (r.declareRecord s).Standard :=
  fun k ↦ by
  rw [← h k]
  cases k <;> rfl

theorem Standard.get?_defaults (h : r.Standard) {k : Key} {entry : Registration}
    (hk : r.get? k = some entry) :
    ∃ entry', defaults.get? k = some entry' ∧ entry'.converter = entry.converter := by
  have hd := h k
  rw [hk] at hd
  exact Option.map_eq_some_iff.mp hd.symm

theorem Standard.builtin (h : r.Standard) : r.Builtin := by
  intro k entry hk
  obtain ⟨entry', hk', he⟩ := h.get?_defaults hk
  have hbuiltin : entry'.converter.isBuiltin := builtin_defaults k entry' hk'
  rwa [he] at hbuiltin

/-- The key that something is registered under is its own. -/
theorem Standard.key (h : r.Standard) {k : Key} {entry : Registration}
    (hk : r.get? k = some entry) : entry.converter.key = k := by
  obtain ⟨entry', hk', he⟩ := h.get?_defaults hk
  rw [← he]
  exact (converter_of_get?_defaults hk').2

theorem name_of_schema? {name : String} {s : Schema} (h : r.schema? name = some s) :
    s.name = name := by
  simpa using List.find?_some h

/-- What is registered for a type itself: under its name, or for records if it is declared as one. -/
theorem byName?_eq (r : Registry) (name : String) : r.byName? name =
    ((r.exact name).or ((r.schema? name).bind fun _ ↦ r.origins .record)).map (·.converter) := by
  unfold byName?
  cases r.exact name with
  | some entry => rfl
  | none => cases r.schema? name <;> cases r.origins .record <;> rfl

theorem byName?_eq_some_iff {name : String} : r.byName? name = some c ↔
    (∃ entry, r.exact name = some entry ∧ entry.converter = c) ∨
      r.exact name = none ∧ ∃ s entry, r.schema? name = some s ∧ r.origins .record = some entry ∧
        entry.converter = c := by
  rw [byName?_eq, Option.map_eq_some_iff]
  simp only [Option.or_eq_some_iff, Option.bind_eq_some_iff, or_and_right, exists_or, and_assoc,
    exists_and_left, exists_and_right]

theorem byName?_eq_none_iff {name : String} : r.byName? name = none ↔
    r.exact name = none ∧ (r.schema? name = none ∨ r.origins .record = none) := by
  rw [byName?_eq, Option.map_eq_none_iff, Option.or_eq_none_iff]
  cases r.schema? name <;> simp

theorem byName?_eq_some {name : String} (h : r.byName? name = some c) :
    ∃ k entry, r.get? k = some entry ∧ entry.converter = c := by
  rcases byName?_eq_some_iff.mp h with ⟨entry, hentry, he⟩ | ⟨-, -, entry, -, hentry, he⟩
  · exact ⟨.exact name, entry, hentry, he⟩
  · exact ⟨.origin .record, entry, hentry, he⟩

/-- What converts a type is registered for some key. -/
theorem resolve_eq_ok (h : r.resolve t = .ok c) :
    ∃ k entry, r.get? k = some entry ∧ entry.converter = c := by
  have horigin {o : Option Origin}
      (h : (do return (← r.origins (← o)).converter : Option Converter) = some c) :
      ∃ k entry, r.get? k = some entry ∧ entry.converter = c := by
    obtain ⟨o, -, h⟩ := Option.bind_eq_some_iff.mp h
    obtain ⟨entry, hentry, h⟩ := Option.bind_eq_some_iff.mp h
    cases h
    exact ⟨.origin o, entry, hentry, rfl⟩
  simp only [Registry.resolve] at h
  split at h
  · next hfound =>
    cases h
    rcases Option.or_eq_some_iff.mp hfound with hfound | ⟨-, hfound⟩
    · cases t with
      | named name =>
        obtain ⟨name', -, hname⟩ := List.exists_of_findSome?_eq_some hfound
        exact byName?_eq_some hname
      | _ => exact horigin hfound
    · obtain ⟨entry, hentry, he⟩ := Option.map_eq_some_iff.mp hfound
      exact ⟨.wildcard, entry, hentry, he⟩
  · cases h

/-- What a registry of built-in converters resolves a type to is built-in. -/
theorem Builtin.resolve (h : r.Builtin) (hr : r.resolve t = .ok c) : c.isBuiltin := by
  obtain ⟨k, entry, hk, rfl⟩ := resolve_eq_ok hr
  exact h k entry hk

/-- No converter from outside the library is registered.  Streams of JSON lines may be. -/
def Unplugged (r : Registry) : Prop :=
  ∀ k entry, r.get? k = some entry → ∀ p, entry.converter ≠ .plugin p

theorem Builtin.unplugged (h : r.Builtin) : r.Unplugged := by
  intro k entry hk p hp
  have hbuiltin := h k entry hk
  rw [hp] at hbuiltin
  cases hbuiltin

theorem Unplugged.register (h : r.Unplugged) {k : Key} {isDefault : Bool}
    {previous : Option Converter} {r' : Registry} (hc : ∀ p, c ≠ .plugin p)
    (hr : r.register k c isDefault = .ok (previous, r')) : r'.Unplugged := by
  intro k' entry hk'
  rw [get?_of_register hr] at hk'
  split at hk'
  · cases hk'
    exact hc
  · exact h k' entry hk'

theorem Unplugged.of_get? {r' : Registry} (h : r.Unplugged) (hr : ∀ k, r'.get? k = r.get? k) :
    r'.Unplugged := by
  intro k entry hk
  rw [hr k] at hk
  exact h k entry hk

theorem Unplugged.declareParents (h : r.Unplugged) (child : String) (parents : List String) :
    (r.declareParents child parents).Unplugged := h.of_get? fun k ↦ by cases k <;> rfl

theorem Unplugged.declareRecord (h : r.Unplugged) (s : Schema) : (r.declareRecord s).Unplugged :=
  h.of_get? fun k ↦ by cases k <;> rfl

theorem Unplugged.resolve (h : r.Unplugged) (hr : r.resolve t = .ok c) (p : Plugin) :
    c ≠ .plugin p := by
  obtain ⟨k, entry, hk, rfl⟩ := resolve_eq_ok hr
  exact h k entry hk p

/-! ## Built-in types -/

/-- The built-in converter for a generic shape. -/
def builtinFor : Origin → Converter
  | .sequence => .sequence
  | .mapping => .mapping
  | .optional => .optional
  | .union => .union
  | .record => .record

theorem Standard.origins (h : r.Standard) (o : Origin) :
    (r.origins o).map (·.converter) = some (builtinFor o) := by
  have ho := h (.origin o)
  cases o <;> exact ho

theorem Standard.exact_primitive (h : r.Standard) (kind : Kind) :
    (r.exact kind.hostName).map (·.converter) = some (.primitive kind) := by
  have hk := h (.exact kind.hostName)
  cases kind <;> exact hk

/-- A generic type is resolved to what is registered for its shape. -/
theorem resolve_of_origin {o : Origin} {entry : Registration} (ht : t.origin? = some o)
    (h : r.origins o = some entry) : r.resolve t = .ok entry.converter := by
  cases t <;> cases ht <;> simp [resolve, HostType.origin?, h]

theorem Standard.resolve_generic (h : r.Standard) {o : Origin} (ht : t.origin? = some o) :
    r.resolve t = .ok (builtinFor o) := by
  obtain ⟨entry, hentry, he⟩ := Option.map_eq_some_iff.mp (h.origins o)
  rw [resolve_of_origin ht hentry, he]

theorem resolve_of_exact {name : String} (h : (r.exact name).map (·.converter) = some c) :
    r.resolve (.named name) = .ok c := by
  obtain ⟨entry, hentry, he⟩ := Option.map_eq_some_iff.mp h
  simp [resolve, byName?, hentry, he]

theorem Standard.resolve_ofKind (h : r.Standard) (kind : Kind) :
    r.resolve (.ofKind kind) = .ok (.primitive kind) := resolve_of_exact (h.exact_primitive kind)

/-! ## Registries with records only -/

/-- Nothing but records was added to the registry of the built-in converters. -/
def RecordsOnly (r : Registry) : Prop := r = { defaults with records := r.records }

theorem recordsOnly_defaults : defaults.RecordsOnly := rfl

theorem RecordsOnly.declareRecord (h : r.RecordsOnly) (s : Schema) :
    (r.declareRecord s).RecordsOnly := by
  rw [RecordsOnly, Registry.declareRecord, h]

theorem RecordsOnly.standard (h : r.RecordsOnly) : r.Standard := by
  rw [h]
  intro k
  cases k <;> rfl

theorem RecordsOnly.ancestors (h : r.RecordsOnly) (name : String) : r.ancestors name = [] := by
  have hparents : r.parents = [] := by
    rw [h]
    rfl
  simp [Registry.ancestors, parentsOf, hparents, walk]

/-- What converts a type by its name has that name for its key, or the type is a declared record. -/
theorem RecordsOnly.key_of_named (h : r.RecordsOnly) {name : String}
    (hr : r.resolve (.named name) = .ok c) : c.key = .exact name ∨ c = .record := by
  have hwildcard : r.wildcard = none := by
    rw [h]
    rfl
  have hname : r.byName? name = some c := by
    simp only [resolve, h.ancestors, hwildcard, List.findSome?_cons, List.findSome?_nil] at hr
    cases hname : r.byName? name with
    | none => simp [hname] at hr
    | some c' => simpa [hname] using hr
  rcases byName?_eq_some_iff.mp hname with ⟨entry, hentry, he⟩ | ⟨-, -, entry, -, hentry, he⟩
  · rw [← he]
    exact .inl (h.standard.key (k := .exact name) hentry)
  · have horigin := h.standard.origins .record
    rw [hentry, Option.map_some, he] at horigin
    exact .inr (Option.some.inj horigin)

/-- Only the type of its name is converted as plain data of a kind. -/
theorem RecordsOnly.eq_ofKind (h : r.RecordsOnly) {kind : Kind}
    (hr : r.resolve t = .ok (.primitive kind)) : t = .ofKind kind := by
  have hgeneric {o : Origin} (ht : t.origin? = some o) : t = .ofKind kind := by
    rw [h.standard.resolve_generic ht] at hr
    cases o <;> cases hr
  cases t with
  | named name =>
    rcases h.key_of_named hr with hkey | hrecord
    · rw [HostType.ofKind, Key.exact.inj hkey]
    · cases hrecord
  | _ => exact hgeneric rfl

/-- The built-in converter that guesses the type of a descriptor. -/
def guesserFor : Descriptor → Converter
  | .primitive kind => .primitive kind
  | .blob ⟨_, .single⟩ => .reference "file" .single
  | .blob ⟨_, .multipart⟩ => .reference "directory" .multipart
  | .collection _ => .sequence
  | .mapping _ => .mapping
  | .union members tagField =>
    if (Descriptor.union members tagField).optionalInner?.isSome then .optional else .union
  | .record _ => .record

/-- No format of stored payloads is claimed but for the references to those of any format. -/
theorem RecordsOnly.claimant (h : r.RecordsOnly) (extent : Extent) :
    r.claimant ⟨"", extent⟩ = .ok (guesserFor (.blob ⟨"", extent⟩)) := by
  rw [h]
  cases extent <;> rfl

theorem RecordsOnly.guesser (h : r.RecordsOnly) {d : Descriptor}
    (hd : ∀ type, d = .blob type → type.format = "") : r.guesser d = .ok (guesserFor d) := by
  cases d with
  | primitive kind => simp [Registry.guesser, h.standard.exact_primitive, guesserFor]
  | blob type =>
    obtain ⟨format, extent⟩ := type
    cases hd _ rfl
    simp only [Registry.guesser, h.claimant]
    rfl
  | union members tagField =>
    simp only [Registry.guesser, h.standard.origins, guesserFor]
    cases (Descriptor.union members tagField).optionalInner? <;> rfl
  | _ => simp [Registry.guesser, h.standard.origins, guesserFor, builtinFor]

/-! ## Fields with distinct names -/

/-- What a type is about directly: a part at its own level, or the type of a field of the record
that it is converted as. -/
inductive Contains (r : Registry) : HostType → HostType → Prop
  | part {t part : HostType} (mem : part ∈ t.parts) : Contains r t part
  | field {t : HostType} {s : Schema} {f : String × HostType} (resolved : r.resolve t = .ok .record)
      (schema : r.schemaOf t = .ok s) (mem : f ∈ s.fields) : Contains r t f.2

/-- No record that a type is about declares two fields of one name. -/
def DistinctFields (r : Registry) (t : HostType) : Prop :=
  ∀ u s, Relation.ReflTransGen r.Contains t u → r.resolve u = .ok .record → r.schemaOf u = .ok s →
    (s.fields.map (·.1)).Nodup

theorem DistinctFields.nodup {s : Schema} (h : r.DistinctFields t) (hr : r.resolve t = .ok .record)
    (hs : r.schemaOf t = .ok s) : (s.fields.map (·.1)).Nodup := h t s .refl hr hs

theorem DistinctFields.of_contains {u : HostType} (h : r.DistinctFields t) (hu : r.Contains t u) :
    r.DistinctFields u := fun u' s hu' ↦ h u' s (.head hu hu')

/-- Whether types are only about each other, and the records among them have distinct names. -/
def closes (r : Registry) (ts : List HostType) : Bool :=
  ts.all fun t ↦ t.parts.all ts.contains && match r.resolve t with
    | .ok .record => match r.schemaOf t with
      | .ok s => s.fields.all (fun f ↦ ts.contains f.2) && decide (s.fields.map (·.1)).Nodup
      | .error _ => true
    | _ => true

theorem of_closes {ts : List HostType} (h : r.closes ts = true) {u : HostType} (hu : u ∈ ts) :
    (∀ part ∈ u.parts, part ∈ ts) ∧
      ∀ s, r.resolve u = .ok .record → r.schemaOf u = .ok s →
        (∀ f ∈ s.fields, f.2 ∈ ts) ∧ (s.fields.map (·.1)).Nodup := by
  have hcloses := List.all_eq_true.mp h u hu
  rw [Bool.and_eq_true] at hcloses
  refine ⟨by simpa using hcloses.1, fun s hr hs ↦ ?_⟩
  have hrecord := hcloses.2
  simp only [hr, hs] at hrecord
  simpa using hrecord

/-- What a type is about is in any list that closes. -/
theorem mem_of_closes {ts : List HostType} (h : r.closes ts = true) (ht : t ∈ ts) {u : HostType}
    (hu : Relation.ReflTransGen r.Contains t u) : u ∈ ts := by
  induction hu with
  | refl => exact ht
  | tail _ hstep ih =>
    cases hstep with
    | part mem => exact (of_closes h ih).1 _ mem
    | field resolved schema mem => exact ((of_closes h ih).2 _ resolved schema).1 _ mem

/-- Fields with distinct names can be told from a list of types that holds all that they are
about. -/
theorem distinctFields_of_closes {ts : List HostType} (h : r.closes ts = true) (ht : t ∈ ts) :
    r.DistinctFields t :=
  fun _ s hu hr hs ↦ ((of_closes h (mem_of_closes h ht hu)).2 s hr hs).2

end Registry

end Interchange
