import Interchange.Proofs.Conversion.Canon
import Interchange.Proofs.Conversion.Encoding
import Interchange.Proofs.Registry.Ancestors
import Interchange.Proofs.Registry.Resolution

/-!
# Names of records

A record value may carry the name of its type.  When it is encoded as a type that is known by name,
this name is compared with that of the type that declares the fields, which is the type itself or
its nearest ancestor with a declaration.  So a type without a declaration of its own takes whatever
its ancestor takes: values of the ancestor, and of all other types below it.  What is decoded always
goes by the name of the type that was asked for.
-/

namespace Interchange

open Session Attempt

namespace Registry

variable {r : Registry} {t : HostType} {s : Schema} {place : Place} {n name : String}
  {fields : List (String × Value)}

/-- A name that a record carries only decides whether its fields are looked at. -/
theorem fieldsFor_named :
    r.fieldsFor place s (.record (some n) fields) =
      if r.isSubtype n s.name then r.fieldsFor place s (.record none fields)
      else .error (place.mismatch s.name (.record (some n) fields)) := by
  simp only [fieldsFor, Option.map_some, Option.map_none]
  cases r.isSubtype n s.name <;> rfl

theorem encode_named {worker : Option Delegate} {levels : Nat} {d : Descriptor}
    (resolved : r.resolve t = .ok .record) (schema : r.schemaOf t = .ok s) :
    r.encode worker levels place t (.record (some n) fields) d =
      if r.isSubtype n s.name then r.encode worker levels place t (.record none fields) d
      else throw (place.mismatch s.name (.record (some n) fields)) := by
  rw [encode_of_resolve resolved, encode_of_resolve resolved]
  show (Attempt.ofExcept (r.schemaOf t) >>= _) =
    if _ then Attempt.ofExcept (r.schemaOf t) >>= _ else _
  rw [schema]
  show (Attempt.ofExcept (r.fieldsFor place s (.record (some n) fields)) >>= _) =
    if _ then Attempt.ofExcept (r.fieldsFor place s (.record none fields)) >>= _ else _
  rw [fieldsFor_named]
  split <;> rfl

/-- What is converted as a record by its name has a declaration, its own or that of an ancestor. -/
theorem Standard.exists_nearestSchema? (hr : r.Standard)
    (h : r.resolve (.named name) = .ok .record) : ∃ s, r.nearestSchema? name = some s := by
  obtain ⟨a, hstop⟩ := hr.recordsByShape.exists_stopsAt h
  obtain ⟨s, -, -, -, hnearest, -⟩ := hr.recordsByShape.declared hstop
  exact ⟨s, hnearest⟩

/-- What is decoded as a record goes by the name of the type that was asked for. -/
theorem decode_named {worker : Option Delegate} {levels : Nat} {l : Literal} {w : Value}
    {σ σ' : Session} (resolved : r.resolve (.named name) = .ok .record)
    (h : (r.decode worker levels place (.named name) l).run σ = (.ok w, σ')) :
    ∃ fields, w = .record (some name) fields := by
  rw [decode_of_resolve resolved, decodeBy] at h
  obtain ⟨s, -, h⟩ := run_ofExcept_bind_eq_ok.mp h
  split at h
  · obtain ⟨decoded, σ₁, -, h⟩ := run_bind_eq_ok.mp h
    cases h
    exact ⟨_, rfl⟩
  · cases h

end Registry

namespace Engine

variable {e : Engine} {name : String}

/-- A record that carries a name is written as a type known by name if and only if the name is that
of a type below the one that declares the fields, and a record without a name is written the same.
-/
theorem outcome_toLiteral_named {s : Schema}
    (resolved : e.setup.registry.resolve (.named name) = .ok .record)
    (declared : e.setup.registry.nearestSchema? name = some s) (place : Place) (n : String)
    (fields : List (String × Value)) (l : Literal) :
    (convert fun u ↦ u.toLiteral place (.named name) (.record (some n) fields)).outcome e = .ok l ↔
      e.setup.registry.isSubtype n s.name = true ∧
      (convert fun u ↦ u.toLiteral place (.named name) (.record none fields)).outcome e = .ok l := by
  have hschema : e.setup.registry.schemaOf (.named name) = .ok s := by
    rw [Registry.schemaOf, declared]
  have hencode (d : Descriptor) :
      e.setup.registry.encode (some e.setup.delegate) (e.setup.levels place) place (.named name)
          (.record (some n) fields) d =
        if e.setup.registry.isSubtype n s.name then
          e.setup.registry.encode (some e.setup.delegate) (e.setup.levels place) place
            (.named name) (.record none fields) d
        else throw (place.mismatch s.name (.record (some n) fields)) :=
    Registry.encode_named resolved hschema
  by_cases hsub : e.setup.registry.isSubtype n s.name
  · have hsame : e.setup.toLiteral place (.named name) (.record (some n) fields) =
        e.setup.toLiteral place (.named name) (.record none fields) := by
      simp only [Setup.toLiteral, Setup.toLiteralBy, hencode, if_pos hsub]
    simp only [outcome, run_convert, hsame, hsub, true_and]
  · refine iff_of_false ?_ fun h ↦ hsub h.1
    intro h
    obtain ⟨s', h, -⟩ := run_convert_eq_ok.mp (Prod.ext h rfl)
    obtain ⟨d, s₁, -, h⟩ := run_bind_eq_ok.mp h
    obtain ⟨l', s₂, h, -⟩ := run_bind_eq_ok.mp h
    rw [hencode, if_neg hsub] at h
    cases h

/-- A type that is converted as a record by its name takes the names of just the types below the one
that declares its fields.  So all that it takes are types below itself if and only if the one that
declares the fields is below it too, as it is when they are the same, or if it takes nothing at all.
What is read as the type goes by its name, whatever it was before. -/
theorem toLiteral_named_iff (hr : e.setup.registry.Standard)
    (resolved : e.setup.registry.resolve (.named name) = .ok .record) :
    ∃ s, e.setup.registry.nearestSchema? name = some s ∧
      (∀ place n fields l,
        (convert fun u ↦ u.toLiteral place (.named name) (.record (some n) fields)).outcome e =
            .ok l ↔
          e.setup.registry.isSubtype n s.name = true ∧
          (convert fun u ↦ u.toLiteral place (.named name) (.record none fields)).outcome e =
            .ok l) ∧
      ((∀ place n fields l,
        (convert fun u ↦ u.toLiteral place (.named name) (.record (some n) fields)).outcome e =
          .ok l → e.setup.registry.isSubtype n name = true) ↔
        e.setup.registry.isSubtype s.name name = true ∨ ∀ place fields l,
          (convert fun u ↦ u.toLiteral place (.named name) (.record none fields)).outcome e ≠
            .ok l) ∧
      ∀ place l w, (convert fun u ↦ u.toValue place (.named name) l).outcome e = .ok w →
        ∃ fields, w = .record (some name) fields := by
  obtain ⟨s, declared⟩ := hr.exists_nearestSchema? resolved
  have htakes := outcome_toLiteral_named resolved declared
  refine ⟨s, declared, htakes, ?_, ?_⟩
  · constructor
    · intro hbelow
      by_cases hsome : ∃ place fields l,
          (convert fun u ↦ u.toLiteral place (.named name) (.record none fields)).outcome e = .ok l
      · obtain ⟨place, fields, l, hl⟩ := hsome
        left
        apply hbelow place s.name fields l
        exact (htakes place s.name fields l).mpr ⟨Registry.isSubtype_refl _ _, hl⟩
      · right
        intro place fields l hl
        exact hsome ⟨place, fields, l, hl⟩
    · rintro (hsub | hnothing) place n fields l hl
      · exact Registry.isSubtype_trans ((htakes place n fields l).mp hl).1 hsub
      · exact absurd ((htakes place n fields l).mp hl).2 (hnothing place fields l)
  · intro place l w hw
    obtain ⟨s', hw, -⟩ := run_convert_eq_ok.mp (Prod.ext hw rfl)
    exact Registry.decode_named resolved hw

/-! ## Points on a grid -/

/-- Points on a grid are points, and so are vectors; the fields are declared for points. -/
def gridRegistry : Registry :=
  ((Registry.defaults.declareRecord ⟨"Point", [("x", .ofKind .integer)], false⟩).declareParents
    "GridPoint" ["Point"]).declareParents "Vector" ["Point"]

def gridEngine : Engine :=
  start Settings.defaults gridRegistry ⟨Settings.sharedWorker⟩ (.inMemory Settings.defaults.area)

theorem standard_gridEngine : gridEngine.setup.registry.Standard :=
  ((Registry.standard_defaults.declareRecord _).declareParents _ _).declareParents _ _

/-- A vector. -/
def vectorFields : List (String × Value) := [("x", .scalar (.integer 1))]

def vectorLiteral : Literal := .record [("x", .scalar (.integer 1))]

/-- Points on a grid and vectors are just below points. -/
theorem ancestors_gridRegistry {name : String} (h : name = "GridPoint" ∨ name = "Vector") :
    gridRegistry.ancestors name = ["Point"] := by
  rcases h with rfl | rfl
  · show Registry.walk [("Vector", ["Point"]), ("GridPoint", ["Point"])] ["GridPoint"] ["Point"] = _
    simp [Registry.walk_cons, Registry.parentsIn, Registry.without, List.lookup_cons, Registry.walk]
  · show Registry.walk [("Vector", ["Point"]), ("GridPoint", ["Point"])] ["Vector"] ["Point"] = _
    simp [Registry.walk_cons, Registry.parentsIn, Registry.without, List.lookup_cons, Registry.walk]

theorem isSubtype_vector : gridRegistry.isSubtype "Vector" "Point" = true := by
  rw [Registry.isSubtype, ancestors_gridRegistry (.inr rfl)]
  rfl

theorem resolve_gridPoint : gridRegistry.resolve (.named "GridPoint") = .ok .record := by
  unfold Registry.resolve
  dsimp only
  rw [ancestors_gridRegistry (.inl rfl)]
  rfl

theorem nearestSchema?_gridPoint : gridRegistry.nearestSchema? "GridPoint" =
    some ⟨"Point", [("x", .ofKind .integer)], false⟩ := by
  rw [Registry.nearestSchema?, ancestors_gridRegistry (.inl rfl)]
  rfl

theorem schemaOf_gridPoint : gridRegistry.schemaOf (.named "GridPoint") =
    .ok ⟨"Point", [("x", .ofKind .integer)], false⟩ := by
  rw [Registry.schemaOf, nearestSchema?_gridPoint]

theorem run_describe_gridPoint :
    ∃ s, (gridRegistry.describe 64 .root (.named "GridPoint")).run gridEngine.session =
      (.ok (.record [("x", .primitive .integer)]), s) := by
  have hdescribe : gridRegistry.describe 64 .root (.named "GridPoint") =
      remembering (.named "GridPoint") (do
        let s ← .ofExcept (gridRegistry.schemaOf (.named "GridPoint"))
        return .record (← describeFields (some (gridRegistry.describe 63)) .root s.fields)) := by
    rw [Registry.describe_eq, Registry.describeStep, resolve_gridPoint]
    rfl
  rw [hdescribe, schemaOf_gridPoint]
  exact ⟨_, rfl⟩

theorem run_encode_gridPoint (s : Session) :
    (gridRegistry.encode (some gridEngine.setup.delegate) 64 .root (.named "GridPoint")
      (.record none vectorFields) (.record [("x", .primitive .integer)])).run s =
        (.ok vectorLiteral, s) := by
  rw [Registry.encode_of_resolve resolve_gridPoint]
  show (Attempt.ofExcept (gridRegistry.schemaOf (.named "GridPoint")) >>= _).run s = _
  rw [schemaOf_gridPoint]
  rfl

/-- The fields of a vector are written as a point on a grid. -/
theorem outcome_toLiteral_gridPoint :
    (convert fun u ↦ u.toLiteral .root (.named "GridPoint")
      (.record none vectorFields)).outcome gridEngine = .ok vectorLiteral := by
  obtain ⟨s, hdescribe⟩ := run_describe_gridPoint
  show ((gridRegistry.describe 64 .root (.named "GridPoint") >>= _ : Conversion Literal).run
    gridEngine.session).1 = _
  rw [run_bind_of_ok hdescribe]
  show ((gridRegistry.encode _ 64 .root _ _ _ >>= _ : Conversion Literal).run s).1 = _
  rw [run_bind_of_ok (run_encode_gridPoint s)]
  rfl

/-- They are read as one. -/
theorem outcome_toValue_gridPoint :
    (convert fun u ↦ u.toValue .root (.named "GridPoint") vectorLiteral).outcome gridEngine =
      .ok (.record (some "GridPoint") vectorFields) := by
  show ((gridRegistry.decode _ 64 .root (.named "GridPoint") vectorLiteral).run _).1 = _
  rw [Registry.decode_of_resolve resolve_gridPoint]
  show ((Attempt.ofExcept (gridRegistry.schemaOf (.named "GridPoint")) >>= _).run _).1 = _
  rw [schemaOf_gridPoint]
  rfl

/-- A vector is written as a point on a grid and comes back as one, and what comes back is not
written as something else than a point. -/
theorem toLiteral_named_iff_gridPoint :
    (convert fun u ↦ u.toLiteral .root (.named "GridPoint")
      (.record (some "Vector") vectorFields)).outcome gridEngine = .ok vectorLiteral ∧
    (convert fun u ↦ u.toLiteral .root (.named "GridPoint")
      (.record (some "Line") vectorFields)).outcome gridEngine ≠ .ok vectorLiteral ∧
    ∃ fields, (convert fun u ↦ u.toValue .root (.named "GridPoint") vectorLiteral).outcome
      gridEngine = .ok (.record (some "GridPoint") fields) := by
  obtain ⟨s, declared, htakes, -, hnamed⟩ :=
    toLiteral_named_iff standard_gridEngine resolve_gridPoint
  obtain rfl : s = ⟨"Point", [("x", .ofKind .integer)], false⟩ :=
    Option.some.inj (declared.symm.trans nearestSchema?_gridPoint)
  refine ⟨?_, ?_, ?_⟩
  · rw [htakes]
    exact ⟨isSubtype_vector, outcome_toLiteral_gridPoint⟩
  · rw [Ne, htakes]
    rintro ⟨hsub, -⟩
    have hline : gridRegistry.isSubtype "Line" "Point" = false := by
      have hancestors : gridRegistry.ancestors "Line" = [] := by
        show Registry.walk _ ["Line"] [] = []
        rw [Registry.walk]
      rw [Registry.isSubtype, hancestors]
      rfl
    cases hsub.symm.trans hline
  · obtain ⟨fields, hfields⟩ := hnamed _ _ _ outcome_toValue_gridPoint
    exact ⟨fields, hfields ▸ outcome_toValue_gridPoint⟩

/-- A vector, which is not below the points on a grid, is written as one of them. -/
theorem not_isSubtype_of_toLiteral :
    ¬ ∀ (e : Engine) (name n : String) (fields : List (String × Value)) (l : Literal),
      e.Reachable → e.setup.registry.Standard →
      e.setup.registry.resolve (.named name) = .ok .record →
      (convert fun u ↦ u.toLiteral .root (.named name) (.record (some n) fields)).outcome e =
        .ok l → n = name ∨ name ∈ e.setup.registry.ancestors n := by
  intro h
  have htakes := outcome_toLiteral_named (e := gridEngine) resolve_gridPoint
    nearestSchema?_gridPoint .root "Vector" vectorFields vectorLiteral
  have hbelow := h gridEngine "GridPoint" "Vector" vectorFields vectorLiteral
    (reachable_start _ _ _ _) standard_gridEngine resolve_gridPoint
    (htakes.mpr ⟨isSubtype_vector, outcome_toLiteral_gridPoint⟩)
  have hancestors : gridEngine.setup.registry.ancestors "Vector" = ["Point"] :=
    ancestors_gridRegistry (.inr rfl)
  rw [hancestors] at hbelow
  simp at hbelow

end Engine

end Interchange
