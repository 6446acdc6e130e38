import Interchange.Literal
import Interchange.Proofs.Induction

/-!
# Regular times

A timestamp may be in a leap second after any second of a minute.  If it is not after the last one,
no parts make such a timestamp, and its text names the second that comes next, with the same
fraction.  So an irregular timestamp settles into another time, and so does a literal that holds
one.  The regular ones are those that stay what they are.
-/

namespace Interchange

/-- A list stays what it is under a function that leaves its elements alone. -/
theorem map_eq_self_iff {α : Type} {f : α → α} {as : List α} :
    as.map f = as ↔ ∀ a ∈ as, f a = a := by
  simpa using List.map_inj_left (l := as) (f := f) (g := id)

/-! ## Timestamps -/

namespace Timestamp

variable {t : Timestamp}

/-- A regular timestamp as it is, and an irregular one as the same fraction of the next second. -/
def settled (t : Timestamp) : Timestamp :=
  if h : t.Regular then t
  else
    { seconds := t.seconds + 1
      nanos := t.nanos - 1000000000
      -- the last second of all is the last one of a minute
      inRange := by
        have hrange := t.inRange
        unfold Regular at h
        omega
      nanos_lt := Nat.lt_of_le_of_lt (Nat.sub_le _ _) t.nanos_lt }

theorem settled_of_regular (h : t.Regular) : t.settled = t := dif_pos h

theorem seconds_settled (h : ¬ t.Regular) : t.settled.seconds = t.seconds + 1 := by
  rw [settled, dif_neg h]

theorem nanos_settled (h : ¬ t.Regular) : t.settled.nanos = t.nanos - 1000000000 := by
  rw [settled, dif_neg h]

theorem regular_settled (t : Timestamp) : t.settled.Regular := by
  by_cases h : t.Regular
  · rwa [settled_of_regular h]
  · have hnanos := t.nanos_lt
    left
    rw [nanos_settled h]
    omega

theorem settled_eq_self_iff : t.settled = t ↔ t.Regular := by
  constructor
  · intro h
    rw [← h]
    exact t.regular_settled
  · exact settled_of_regular

end Timestamp

/-! ## Plain data -/

namespace Scalar

/-- Whether plain data is no irregular timestamp. -/
def Regular : Scalar → Prop
  | datetime t => t.Regular
  | _ => True

instance : (s : Scalar) → Decidable s.Regular
  | datetime t => inferInstanceAs (Decidable t.Regular)
  | none | integer _ | float _ | string _ | boolean _ | duration _ | binary _ => .isTrue trivial

/-- Plain data with its timestamp settled, if it is one. -/
def settled : Scalar → Scalar
  | datetime t => datetime t.settled
  | s => s

theorem settled_eq_self_iff {s : Scalar} : s.settled = s ↔ s.Regular := by
  cases s with
  | datetime t =>
    rw [settled, datetime.injEq]
    exact Timestamp.settled_eq_self_iff
  | _ => exact iff_of_true rfl trivial

end Scalar

/-! ## Literals -/

namespace Literal

mutual

/-- The plain data within a literal. -/
def scalars : Literal → List Scalar
  | scalar s => [s]
  | blob _ => []
  | collection items => itemScalars items
  | mapping entries => entryScalars entries
  | record fields => entryScalars fields
  | union _ value => scalars value

def itemScalars : List Literal → List Scalar
  | [] => []
  | l :: ls => scalars l ++ itemScalars ls

def entryScalars : List (String × Literal) → List Scalar
  | [] => []
  | (_, l) :: es => scalars l ++ entryScalars es

end

mutual

/-- A literal with all plain data within changed. -/
def mapScalars (f : Scalar → Scalar) : Literal → Literal
  | scalar s => scalar (f s)
  | blob b => blob b
  | collection items => collection (mapItemScalars f items)
  | mapping entries => mapping (mapEntryScalars f entries)
  | record fields => record (mapEntryScalars f fields)
  | union type value => union type (mapScalars f value)

def mapItemScalars (f : Scalar → Scalar) : List Literal → List Literal
  | [] => []
  | l :: ls => mapScalars f l :: mapItemScalars f ls

def mapEntryScalars (f : Scalar → Scalar) : List (String × Literal) → List (String × Literal)
  | [] => []
  | (name, l) :: es => (name, mapScalars f l) :: mapEntryScalars f es

end

section

variable {p : Scalar → Prop} {f : Scalar → Scalar}

theorem forall_itemScalars {ls : List Literal} :
    (∀ s ∈ itemScalars ls, p s) ↔ ∀ l ∈ ls, ∀ s ∈ l.scalars, p s := by
  induction ls with
  | nil => simp [itemScalars]
  | cons l ls ih => rw [itemScalars, List.forall_mem_append, ih, List.forall_mem_cons]

theorem forall_entryScalars {es : List (String × Literal)} :
    (∀ s ∈ entryScalars es, p s) ↔ ∀ e ∈ es, ∀ s ∈ e.2.scalars, p s := by
  induction es with
  | nil => simp [entryScalars]
  | cons e es ih => rw [entryScalars, List.forall_mem_append, ih, List.forall_mem_cons]

theorem mapItemScalars_eq_map (f : Scalar → Scalar) (ls : List Literal) :
    mapItemScalars f ls = ls.map (mapScalars f) := by
  induction ls with
  | nil => rfl
  | cons l ls ih => rw [mapItemScalars, ih, List.map_cons]

theorem mapEntryScalars_eq_map (f : Scalar → Scalar) (es : List (String × Literal)) :
    mapEntryScalars f es = es.map fun e ↦ (e.1, e.2.mapScalars f) := by
  induction es with
  | nil => rfl
  | cons e es ih => rw [mapEntryScalars, ih, List.map_cons]

theorem mapEntryScalars_eq_self_iff {es : List (String × Literal)}
    (h : ∀ e ∈ es, (e.2.mapScalars f = e.2 ↔ ∀ s ∈ e.2.scalars, f s = s)) :
    mapEntryScalars f es = es ↔ ∀ s ∈ entryScalars es, f s = s := by
  rw [mapEntryScalars_eq_map, forall_entryScalars, map_eq_self_iff]
  refine forall₂_congr fun e he ↦ ?_
  rw [← h e he]
  exact ⟨congrArg Prod.snd, fun hsame ↦ Prod.ext rfl hsame⟩

/-- A literal stays what it is if the plain data within does. -/
theorem mapScalars_eq_self_iff {l : Literal} :
    l.mapScalars f = l ↔ ∀ s ∈ l.scalars, f s = s := by
  induction l with
  | scalar s => simp [mapScalars, scalars]
  | blob b => simp [mapScalars, scalars]
  | collection items ih =>
    rw [mapScalars, scalars, collection.injEq, mapItemScalars_eq_map, forall_itemScalars,
      map_eq_self_iff]
    exact forall₂_congr ih
  | mapping entries ih =>
    rw [mapScalars, scalars, mapping.injEq]
    exact mapEntryScalars_eq_self_iff ih
  | record fields ih =>
    rw [mapScalars, scalars, record.injEq]
    exact mapEntryScalars_eq_self_iff ih
  | union type l ih => rw [mapScalars, scalars, union.injEq, eq_self, true_and, ih]

end

/-- Whether no timestamp within a literal is irregular. -/
def Regular (l : Literal) : Prop := ∀ s ∈ l.scalars, s.Regular

instance (l : Literal) : Decidable l.Regular :=
  inferInstanceAs (Decidable (∀ s ∈ l.scalars, s.Regular))

/-- A literal with every timestamp within settled. -/
def settled (l : Literal) : Literal := l.mapScalars Scalar.settled

theorem settled_collection (items : List Literal) :
    (collection items).settled = collection (items.map settled) := by
  rw [settled, mapScalars, mapItemScalars_eq_map]
  rfl

theorem settled_mapping (entries : List (String × Literal)) :
    (mapping entries).settled = mapping (entries.map fun e ↦ (e.1, e.2.settled)) := by
  rw [settled, mapScalars, mapEntryScalars_eq_map]
  rfl

theorem settled_record (fields : List (String × Literal)) :
    (record fields).settled = record (fields.map fun f ↦ (f.1, f.2.settled)) := by
  rw [settled, mapScalars, mapEntryScalars_eq_map]
  rfl

/-- The regular literals are those that have settled. -/
theorem settled_eq_self_iff {l : Literal} : l.settled = l ↔ l.Regular := by
  rw [settled, mapScalars_eq_self_iff]
  exact forall₂_congr fun s _ ↦ Scalar.settled_eq_self_iff

theorem regular_scalar {s : Scalar} : (scalar s).Regular ↔ s.Regular := List.forall_mem_singleton

theorem regular_blob (b : Blob) : (blob b).Regular := fun _ h ↦ nomatch h

theorem regular_collection {items : List Literal} :
    (collection items).Regular ↔ ∀ l ∈ items, l.Regular := forall_itemScalars

theorem regular_mapping {entries : List (String × Literal)} :
    (mapping entries).Regular ↔ ∀ e ∈ entries, e.2.Regular := forall_entryScalars

theorem regular_record {fields : List (String × Literal)} :
    (record fields).Regular ↔ ∀ f ∈ fields, f.2.Regular := forall_entryScalars

theorem regular_union {type : Descriptor} {l : Literal} : (union type l).Regular ↔ l.Regular :=
  Iff.rfl

/-- Half a second into a leap second after the twentieth second of a minute. -/
def strayLeapSecond : Literal :=
  .scalar (.datetime ⟨1700000000, 1000000000 + 500000000, by decide, by decide⟩)

end Literal

end Interchange
