import Interchange.Proofs.Descriptor
import Interchange.Proofs.Entries
import Interchange.Proofs.Tlv.Layout

/-!
# Normal forms

A union that is read drops the members that stand before in it already, while one that was made by
hand may repeat them.  What is read back is therefore the normal form of what was written, in which
the innermost unions come first: members that differ may have the same normal form.  Fields of
records are left alone, those of one name included.

Within a literal it is the descriptors of unions that have a normal form.  Its mappings and records
are put in order as they are read, so a normal form has its entries by name, and of one name the
last.
-/

namespace Interchange

/-- Of each element only the first is left. -/
theorem nodup_eraseDups {α : Type} [BEq α] [LawfulBEq α] : (as : List α) → as.eraseDups.Nodup
  | [] => List.nodup_nil
  | a :: as => by
    rw [List.eraseDups_cons, List.nodup_cons]
    constructor
    · simp
    · exact nodup_eraseDups (as.filter fun b ↦ !b == a)
termination_by as => as.length
decreasing_by exact Nat.lt_succ_of_le (List.length_filter_le _ as)

theorem eraseDups_sublist {α : Type} [BEq α] : (as : List α) → List.Sublist as.eraseDups as
  | [] => .slnil
  | a :: as => by
    rw [List.eraseDups_cons]
    exact .cons_cons a ((eraseDups_sublist _).trans List.filter_sublist)
termination_by as => as.length
decreasing_by exact Nat.lt_succ_of_le (List.length_filter_le _ as)

namespace Descriptor

mutual

/-- A descriptor whose unions, the innermost first, keep the first of each member. -/
def norm : Descriptor → Descriptor
  | primitive kind => primitive kind
  | collection d => collection d.norm
  | mapping d => mapping d.norm
  | union members tagField => ofMembers (normMembers members) tagField
  | blob type => blob type
  | record fields => record (normFields fields)

def normMembers : List Descriptor → List Descriptor
  | [] => []
  | d :: ds => d.norm :: normMembers ds

def normFields : List (String × Descriptor) → List (String × Descriptor)
  | [] => []
  | (name, d) :: fields => (name, d.norm) :: normFields fields

end

theorem normMembers_eq_map (ds : List Descriptor) : normMembers ds = ds.map norm := by
  induction ds with
  | nil => rfl
  | cons d ds ih => rw [normMembers, ih, List.map_cons]

theorem normFields_eq_map (fields : List (String × Descriptor)) :
    normFields fields = fields.map fun f ↦ (f.1, f.2.norm) := by
  induction fields with
  | nil => rfl
  | cons f fields ih => rw [normFields, ih, List.map_cons]

theorem norm_union (members : List Descriptor) (tagField : String) :
    (union members tagField).norm = ofMembers (members.map norm) tagField := by
  rw [norm, normMembers_eq_map]

theorem norm_record (fields : List (String × Descriptor)) :
    (record fields).norm = record (fields.map fun f ↦ (f.1, f.2.norm)) := by
  rw [norm, normFields_eq_map]

theorem distinct_ofMembers {ds : List Descriptor} (h : ∀ d ∈ ds, d.Distinct) (tagField : String) :
    (ofMembers ds tagField).Distinct := by
  refine distinct_iff.mpr ⟨?_, ?_⟩
  · rintro members tagField ⟨⟩
    exact nodup_eraseDups ds
  · intro d hd
    exact h d (List.mem_eraseDups.mp hd)

/-- No union in a normal form repeats a member. -/
theorem distinct_norm (d : Descriptor) : d.norm.Distinct := by
  induction d with
  | primitive kind => exact distinct_iff.mpr (by simp [norm, parts])
  | collection d ih => exact distinct_iff.mpr (by simp [norm, parts, ih])
  | mapping d ih => exact distinct_iff.mpr (by simp [norm, parts, ih])
  | union members tagField ih =>
    rw [norm_union]
    exact distinct_ofMembers (List.forall_mem_map.mpr ih) tagField
  | blob type => exact distinct_iff.mpr (by simp [norm, parts])
  | record fields ih =>
    have hfields : ∀ part ∈ (fields.map fun f ↦ (f.1, f.2.norm)).map (·.2), part.Distinct := by
      rw [List.map_map]
      exact List.forall_mem_map.mpr ih
    rw [norm_record]
    exact distinct_iff.mpr ⟨by simp, hfields⟩

/-- Where no union repeats a member, a descriptor is its normal form. -/
theorem norm_of_distinct {d : Descriptor} (h : d.Distinct) : d.norm = d := by
  induction d using parts_induction with
  | step d ih =>
    obtain ⟨hnodup, hparts⟩ := distinct_iff.mp h
    have hnorm (part : Descriptor) (hp : part ∈ d.parts) : part.norm = part :=
      ih part hp (hparts part hp)
    cases d with
    | primitive kind => rfl
    | collection d => rw [norm, hnorm d (by simp [parts])]
    | mapping d => rw [norm, hnorm d (by simp [parts])]
    | union members tagField =>
      have hmembers : members.map norm = members :=
        (List.map_congr_left hnorm).trans (List.map_id members)
      rw [norm_union, hmembers, ofMembers_of_nodup (hnodup members tagField rfl)]
    | blob type => rfl
    | record fields =>
      have hfield (f : String × Descriptor) (hf : f ∈ fields) : (f.1, f.2.norm) = f := by
        rw [hnorm f.2 (List.mem_map_of_mem hf)]
      have hfields : fields.map (fun f ↦ (f.1, f.2.norm)) = fields :=
        (List.map_congr_left hfield).trans (List.map_id fields)
      rw [norm_record, hfields]

/-- The descriptors without repeated members are their own normal forms, and only they are. -/
theorem norm_eq_self_iff {d : Descriptor} : d.norm = d ↔ d.Distinct := by
  constructor
  · intro h
    rw [← h]
    exact distinct_norm d
  · exact norm_of_distinct

end Descriptor

/-! ## Literals -/

namespace Literal

mutual

/-- A literal with its descriptors in normal form and its entries in order. -/
def norm : Literal → Literal
  | scalar s => scalar s
  | blob b => blob b
  | collection items => collection (normItems items)
  | mapping entries => mapping (Entries.ofList (normEntries entries))
  | record fields => record (Entries.ofList (normEntries fields))
  | union type value => union type.norm value.norm

def normItems : List Literal → List Literal
  | [] => []
  | l :: ls => l.norm :: normItems ls

def normEntries : List (String × Literal) → List (String × Literal)
  | [] => []
  | (name, l) :: es => (name, l.norm) :: normEntries es

end

theorem normItems_eq_map (ls : List Literal) : normItems ls = ls.map norm := by
  induction ls with
  | nil => rfl
  | cons l ls ih => rw [normItems, ih, List.map_cons]

theorem normEntries_eq_map (es : List (String × Literal)) :
    normEntries es = es.map fun e ↦ (e.1, e.2.norm) := by
  induction es with
  | nil => rfl
  | cons e es ih => rw [normEntries, ih, List.map_cons]

/-- Entries in order whose literals are their own normal forms are left alone. -/
theorem ofList_normEntries {es : Entries Literal} (ho : Entries.Ordered es)
    (h : ∀ e ∈ es, e.2.norm = e.2) : Entries.ofList (normEntries es) = es := by
  have hentry (e : String × Literal) (he : e ∈ es) : (e.1, e.2.norm) = e := by rw [h e he]
  rw [normEntries_eq_map, List.map_congr_left hentry, List.map_id', Entries.ofList_of_ordered ho]

/-- A literal in order of which no union repeats a member is its own normal form. -/
theorem norm_of_ordered {l : Literal} (ho : l.Ordered) (hdis : l.Distinct) : l.norm = l := by
  induction l with
  | scalar s => rfl
  | blob b => rfl
  | collection items ih =>
    have hitem (l : Literal) (hl : l ∈ items) : l.norm = l :=
      ih l hl (orderedItems_iff.mp ho l hl) (distinctItems_iff.mp hdis l hl)
    rw [norm, normItems_eq_map, List.map_congr_left hitem, List.map_id']
  | mapping entries ih =>
    rw [norm, ofList_normEntries ho.1 fun e he ↦
      ih e he (orderedEntries_iff.mp ho.2 e he) (distinctEntries_iff.mp hdis e he)]
  | record fields ih =>
    rw [norm, ofList_normEntries ho.1 fun e he ↦
      ih e he (orderedEntries_iff.mp ho.2 e he) (distinctEntries_iff.mp hdis e he)]
  | union type l ih => rw [norm, Descriptor.norm_of_distinct hdis.1, ih ho hdis.2]

end Literal

end Interchange
