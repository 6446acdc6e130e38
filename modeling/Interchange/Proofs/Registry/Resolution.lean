import Interchange.Proofs.Registry.Ancestors
import Interchange.Proofs.Registry.History

/-!
# Where a lookup by name stops

A type known by name is looked up through itself and its ancestors, in their order.  The lookup
stops at the first of them that something is registered for by its name, or that is declared as a
record while something is registered for the shape of records (`StopsAt`).  Where it stops at none,
the wildcard is left.

The fields of a record are looked up on their own, through the same types but among the declarations
alone.  As long as the converter for records is registered for their shape and for nothing else, a
type that is converted as a record has its fields from where the lookup for the converter stopped:
nothing before it has a declaration, or something registered under its name.
-/

namespace Interchange.Registry

variable {r : Registry} {name a b : String} {names : List String} {c c' : Converter}

/-! ## The lookup -/

/-- A lookup through types, one after the other, stops at one of them and finds what converts it. -/
inductive StopsAt (r : Registry) : List String → String → Converter → Prop
  /-- Something is registered under the name of a type. -/
  | registered {a : String} {names : List String} {entry : Registration}
      (here : r.exact a = some entry) : StopsAt r (a :: names) a entry.converter
  /-- A type is declared as a record, and something is registered for records. -/
  | declared {a : String} {names : List String} {s : Schema} {entry : Registration}
      (free : r.exact a = none) (schema : r.schema? a = some s)
      (shape : r.origins .record = some entry) : StopsAt r (a :: names) a entry.converter
  /-- A type is passed. -/
  | onward {a b : String} {names : List String} {c : Converter} (free : r.exact a = none)
      (passed : r.schema? a = none ∨ r.origins .record = none) (beyond : StopsAt r names b c) :
      StopsAt r (a :: names) b c

/-- One step of a lookup: it stops at a type that something converts, and goes on from another. -/
theorem stopsAt_cons_iff : r.StopsAt (a :: names) b c ↔
    b = a ∧ r.byName? a = some c ∨ r.byName? a = none ∧ r.StopsAt names b c := by
  constructor
  · intro h
    cases h with
    | registered here => exact .inl ⟨rfl, byName?_eq_some_iff.mpr (.inl ⟨_, here, rfl⟩)⟩
    | declared free schema shape =>
      exact .inl ⟨rfl, byName?_eq_some_iff.mpr (.inr ⟨free, _, _, schema, shape, rfl⟩)⟩
    | onward free passed beyond => exact .inr ⟨byName?_eq_none_iff.mpr ⟨free, passed⟩, beyond⟩
  · rintro (⟨rfl, h⟩ | ⟨h, beyond⟩)
    · rcases byName?_eq_some_iff.mp h with
        ⟨entry, here, rfl⟩ | ⟨free, s, entry, schema, shape, rfl⟩
      · exact .registered here
      · exact .declared free schema shape
    · obtain ⟨free, passed⟩ := byName?_eq_none_iff.mp h
      exact .onward free passed beyond

/-- A lookup stops at one type only. -/
theorem StopsAt.unique (h : r.StopsAt names a c) (h' : r.StopsAt names b c') : a = b ∧ c = c' := by
  induction names with
  | nil => cases h
  | cons name names ih =>
    rcases stopsAt_cons_iff.mp h with ⟨rfl, hc⟩ | ⟨hnone, beyond⟩ <;>
      rcases stopsAt_cons_iff.mp h' with ⟨rfl, hc'⟩ | ⟨hnone', beyond'⟩
    · exact ⟨rfl, Option.some.inj (hc.symm.trans hc')⟩
    · cases hc.symm.trans hnone'
    · cases hc'.symm.trans hnone
    · exact ih beyond beyond'

/-- Nothing converts what a lookup passes before it stops. -/
theorem StopsAt.exists_before (h : r.StopsAt names a c) : ∃ before after,
    names = before ++ a :: after ∧ r.byName? a = some c ∧ ∀ b ∈ before, r.byName? b = none := by
  induction names with
  | nil => cases h
  | cons name names ih =>
    rcases stopsAt_cons_iff.mp h with ⟨rfl, hc⟩ | ⟨hnone, beyond⟩
    · refine ⟨[], names, rfl, hc, ?_⟩
      simp
    · obtain ⟨before, after, rfl, ha, hbefore⟩ := ih beyond
      exact ⟨name :: before, after, rfl, ha, List.forall_mem_cons.mpr ⟨hnone, hbefore⟩⟩

theorem exists_stopsAt_iff : (∃ a, r.StopsAt names a c) ↔ names.findSome? r.byName? = some c := by
  induction names with
  | nil =>
    constructor
    · rintro ⟨a, ⟨⟩⟩
    · intro h
      cases h
  | cons name names ih =>
    simp only [stopsAt_cons_iff, exists_or, exists_and_left, exists_eq_left, ih,
      List.findSome?_cons]
    cases r.byName? name <;> simp

/-- A type known by name is converted by what its lookup stops with, or else by the wildcard. -/
theorem resolve_named_eq_ok_iff : r.resolve (.named name) = .ok c ↔
    (∃ a, r.StopsAt (name :: r.ancestors name) a c) ∨
      (∀ a c', ¬ r.StopsAt (name :: r.ancestors name) a c') ∧
        ∃ entry, r.wildcard = some entry ∧ entry.converter = c := by
  have hnone : (∀ a c', ¬ r.StopsAt (name :: r.ancestors name) a c') ↔
      (name :: r.ancestors name).findSome? r.byName? = none := by
    rw [Option.eq_none_iff_forall_ne_some, forall_comm]
    simp only [ne_eq, ← exists_stopsAt_iff, not_exists]
  rw [exists_stopsAt_iff, hnone, ← Option.map_eq_some_iff, ← Option.or_eq_some_iff]
  simp only [resolve]
  split
  · next c' hc' => rw [hc', Except.ok.injEq, Option.some.injEq]
  · next hc' => simp [hc']

/-! ## Records -/

/-- The converter for records is registered for their shape and for nothing else. -/
def RecordsByShape (r : Registry) : Prop :=
  ∀ k entry, r.get? k = some entry → entry.converter = .record → k = .origin .record

theorem Standard.recordsByShape (h : r.Standard) : r.RecordsByShape := by
  intro k entry hk he
  rw [← h.key hk, he]
  rfl

/-- Whatever is done to a registry, the converter for records stays for their shape alone unless it
is registered for something else. -/
theorem RecordsByShape.after {history : List Change} (h : r.RecordsByShape)
    (hhistory : ∀ k isDefault, Change.register k .record isDefault ∈ history →
      k = .origin .record) : (r.after history).RecordsByShape := by
  intro k entry hk he
  rcases get?_of_after hk with hk | hmem
  · exact h k entry hk he
  · rw [he] at hmem
    exact hhistory k _ hmem

/-- The wildcard converts nothing as a record. -/
theorem RecordsByShape.exists_stopsAt (hr : r.RecordsByShape)
    (h : r.resolve (.named name) = .ok .record) :
    ∃ a, r.StopsAt (name :: r.ancestors name) a .record := by
  rcases resolve_named_eq_ok_iff.mp h with hstops | ⟨-, entry, hentry, he⟩
  · exact hstops
  · cases hr .wildcard entry hentry he

/-- Where a lookup stops for the converter for records there is a declaration, the first one on its
way, and nothing is registered under the names that it passed. -/
theorem RecordsByShape.declared (hr : r.RecordsByShape) (h : r.StopsAt names a .record) :
    ∃ s before after, r.schema? a = some s ∧ names.findSome? r.schema? = some s ∧
      names = before ++ a :: after ∧ ∀ b ∈ before, r.exact b = none ∧ r.schema? b = none := by
  obtain ⟨before, after, hnames, ha, hpassed⟩ := h.exists_before
  rcases byName?_eq_some_iff.mp ha with ⟨entry, hentry, he⟩ | ⟨-, s, entry, hs, hshape, -⟩
  · cases hr (.exact a) entry hentry he
  · have hbefore : ∀ b ∈ before, r.exact b = none ∧ r.schema? b = none := by
      intro b hb
      obtain ⟨hexact, hschema | hnoShape⟩ := byName?_eq_none_iff.mp (hpassed b hb)
      · exact ⟨hexact, hschema⟩
      -- Records have a converter where the lookup stops, so it passed no declaration before.
      · cases hshape.symm.trans hnoShape
    refine ⟨s, before, after, hs, ?_, hnames, hbefore⟩
    rw [List.findSome?_eq_some_iff]
    exact ⟨before, a, after, hnames, hs, fun b hb ↦ (hbefore b hb).2⟩

/-- A type that is converted as a record by its name has its fields from the very type where the
lookup for its converter stops, which is itself or an ancestor, and which the declaration is named
for.  What comes before in the order of the ancestors has no declaration, and nothing is registered
under its name. -/
theorem nearestSchema?_of_resolve_record (hr : r.RecordsByShape)
    (resolved : r.resolve (.named name) = .ok .record) :
    ∃ stop s before after,
      (∀ a c, r.StopsAt (name :: r.ancestors name) a c ↔ a = stop ∧ c = .record) ∧
      r.nearestSchema? name = some s ∧ r.schema? stop = some s ∧ s.name = stop ∧
      (s.name = name ∨ s.name ∈ r.ancestors name) ∧
      name :: r.ancestors name = before ++ stop :: after ∧
      ∀ a ∈ before, r.exact a = none ∧ r.schema? a = none := by
  obtain ⟨stop, hstop⟩ := hr.exists_stopsAt resolved
  obtain ⟨s, before, after, hs, hnearest, hnames, hbefore⟩ := hr.declared hstop
  have hname : s.name = stop := name_of_schema? hs
  refine ⟨stop, s, before, after, ?_, hnearest, hs, hname, ?_, hnames, hbefore⟩
  · intro a c
    constructor
    · intro h
      exact h.unique hstop
    · rintro ⟨rfl, rfl⟩
      exact hstop
  · rw [hname, ← List.mem_cons, hnames]
    exact List.mem_append_right _ List.mem_cons_self

/-- Points on a grid are cells, which lead back to them and to a lattice, and they are points, which
are shapes.  Points and shapes are declared, but shapes are streams of lines, like all that nothing
else takes. -/
def latticeRegistry : Registry :=
  defaults.after [.declareRecord ⟨"Point", [("x", .ofKind .integer)], false⟩,
    .declareRecord ⟨"Shape", [], true⟩, .declareParents "GridPoint" ["Cell", "Point"],
    .declareParents "Cell" ["GridPoint", "Lattice"], .declareParents "Point" ["Shape"],
    .register (.exact "Shape") .jsonLines false, .register .wildcard .jsonLines false]

theorem recordsByShape_latticeRegistry : latticeRegistry.RecordsByShape := by
  apply standard_defaults.recordsByShape.after
  intro k isDefault hmem
  simp at hmem

theorem ancestors_latticeRegistry :
    latticeRegistry.ancestors "GridPoint" = ["Cell", "Lattice", "Point", "Shape"] := by
  show walk [("Point", ["Shape"]), ("Cell", ["GridPoint", "Lattice"]),
    ("GridPoint", ["Cell", "Point"])] ["GridPoint"] ["Cell", "Point"] = _
  simp [walk_cons, parentsIn, without, List.lookup_cons, walk]

/-- The lookup for points on a grid passes cells and lattices, and stops at points. -/
theorem nearestSchema?_of_resolve_record_gridPoint :
    latticeRegistry.RecordsByShape ∧
    latticeRegistry.resolve (.named "GridPoint") = .ok .record ∧
    latticeRegistry.ancestors "GridPoint" = ["Cell", "Lattice", "Point", "Shape"] ∧
    latticeRegistry.nearestSchema? "GridPoint" =
      some ⟨"Point", [("x", .ofKind .integer)], false⟩ ∧
    (∀ a c, latticeRegistry.StopsAt ("GridPoint" :: latticeRegistry.ancestors "GridPoint") a c ↔
      a = "Point" ∧ c = .record) ∧
    ∃ before after, "GridPoint" :: latticeRegistry.ancestors "GridPoint" =
      before ++ "Point" :: after ∧
      ∀ a ∈ before, latticeRegistry.exact a = none ∧ latticeRegistry.schema? a = none := by
  have resolved : latticeRegistry.resolve (.named "GridPoint") = .ok .record := by
    unfold resolve
    dsimp only
    rw [ancestors_latticeRegistry]
    rfl
  have hpoint : latticeRegistry.nearestSchema? "GridPoint" =
      some ⟨"Point", [("x", .ofKind .integer)], false⟩ := by
    rw [nearestSchema?, ancestors_latticeRegistry]
    rfl
  obtain ⟨stop, s, before, after, hstops, hnearest, -, hname, -, hnames, hbefore⟩ :=
    nearestSchema?_of_resolve_record recordsByShape_latticeRegistry resolved
  obtain rfl : s = ⟨"Point", [("x", .ofKind .integer)], false⟩ :=
    Option.some.inj (hnearest.symm.trans hpoint)
  subst hname
  exact ⟨recordsByShape_latticeRegistry, resolved, ancestors_latticeRegistry, hnearest, hstops,
    before, after, hnames, hbefore⟩

/-- Where the converter for records is registered under a name, there is no declaration to find. -/
example :
    let r := (Change.register (.exact "Loose") .record false).apply defaults
    r.resolve (.named "Loose") = .ok .record ∧ r.nearestSchema? "Loose" = none := by
  cbv

end Interchange.Registry
