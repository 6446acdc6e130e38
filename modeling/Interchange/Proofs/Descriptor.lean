import Interchange.Descriptor
import Mathlib.Data.List.Nodup

/-!
# Unions of descriptors

What adding none to a descriptor comes to, and when a union is one type or none.  A union that is
neither one type nor one type or none forks: its literals are tagged to tell the members apart.
-/

namespace Interchange

theorem eraseDups_of_nodup {α : Type} [BEq α] [LawfulBEq α] {as : List α} (h : as.Nodup) :
    as.eraseDups = as := by
  induction as with
  | nil => rfl
  | cons a as ih =>
    obtain ⟨hne, hnodup⟩ := List.nodup_cons.mp h
    have hfilter : as.filter (fun b ↦ !b == a) = as := List.filter_eq_self.mpr fun b hb ↦ by
      simpa using fun he : b = a ↦ hne (he ▸ hb)
    rw [List.eraseDups_cons, hfilter, ih hnodup]

namespace Descriptor

/-- The members of a union; other descriptors have none. -/
def members : Descriptor → List Descriptor
  | union ds _ => ds
  | _ => []

variable {d inner : Descriptor} {ds : List Descriptor} {tagField : String}

/-- None, a union, or neither. -/
theorem none_or_union (d : Descriptor) : d = primitive .none ∨
    (∃ ds tagField, d = union ds tagField) ∨
      d ≠ primitive .none ∧ ∀ ds tagField, d ≠ union ds tagField := by
  by_cases hn : d = primitive .none
  · exact .inl hn
  · refine .inr ?_
    cases d with
    | union ds tagField => exact .inl ⟨ds, tagField, rfl⟩
    | _ => exact .inr ⟨hn, fun _ _ h ↦ nomatch h⟩

theorem ofMembers_of_nodup (h : ds.Nodup) (tagField : String) :
    ofMembers ds tagField = union ds tagField := by
  rw [ofMembers, eraseDups_of_nodup h]

/-! ## One type or none -/

theorem optionalInner?_eq_some : d.optionalInner? = some inner ↔
    inner ≠ primitive .none ∧ ∃ tagField, d = union [inner, primitive .none] tagField ∨
      d = union [primitive .none, inner] tagField := by
  constructor
  · intro h
    unfold optionalInner? at h
    split at h
    · next a b tagField =>
      split at h
      · next ha =>
        split at h
        · cases h
        · next hb =>
          cases h
          exact ⟨hb, tagField, .inr (by rw [ha])⟩
      · next ha =>
        split at h
        · next hb =>
          cases h
          exact ⟨ha, tagField, .inl (by rw [hb])⟩
        · cases h
    · cases h
  · rintro ⟨hne, tagField, rfl | rfl⟩ <;> simp [optionalInner?, hne]

theorem optionalInner?_union (h : d ≠ primitive .none) (tagField : String) :
    (union [d, primitive .none] tagField).optionalInner? = some d :=
  optionalInner?_eq_some.mpr ⟨h, tagField, .inl rfl⟩

/-- A union forks unless it is one type, or one type or none. -/
def Forks (ds : List Descriptor) : Prop := ds ≠ [] ∧ ∀ d, ds.filter (· ≠ primitive .none) ≠ [d]

theorem forks_none : Forks [primitive .none] := by
  constructor
  · exact List.cons_ne_nil _ _
  · intro d h
    cases h

theorem Forks.optionalInner?_eq_none (h : Forks ds) (tagField : String) :
    (union ds tagField).optionalInner? = none := by
  cases hinner : (union ds tagField).optionalInner? with
  | none => rfl
  | some inner =>
    obtain ⟨hne, _, hd⟩ := optionalInner?_eq_some.mp hinner
    refine absurd ?_ (h.2 inner)
    rcases hd with hd | hd <;> cases hd <;> simp [hne]

/-! ## Adding none -/

theorem orNone_ne_primitive (d : Descriptor) (kind : Kind) : d.orNone ≠ primitive kind := by
  cases d <;> exact fun h ↦ nomatch h

theorem mem_orNone {tag : Descriptor} (h : tag ∈ d.members) : tag ∈ d.orNone.members := by
  cases d with
  | union members tagField => exact List.mem_eraseDups.mpr (List.mem_append_left _ h)
  | _ => cases h

theorem none_mem_orNone (d : Descriptor) : primitive .none ∈ d.orNone.members := by
  cases d with
  | union members tagField => exact List.mem_eraseDups.mpr (List.mem_append_right _ (by simp))
  | _ => exact List.mem_eraseDups.mpr (by simp)

theorem orNone_of_ne (hu : ∀ ds tagField, d ≠ union ds tagField)
    (hn : d ≠ primitive .none) : d.orNone = union [d, primitive .none] defaultTagField := by
  have hnodup : [d, primitive .none].Nodup := by simpa using hn
  rw [← ofMembers_of_nodup hnodup]
  cases d with
  | union ds tagField => exact absurd rfl (hu ds tagField)
  | _ => rfl

theorem orNone_union_of_mem (hd : ds.Nodup) (h : primitive .none ∈ ds)
    (tagField : String) : (union ds tagField).orNone = union ds tagField := by
  have hrest : [primitive .none].removeAll ds = [] := by simp [List.removeAll, h]
  rw [orNone, ofMembers, List.eraseDups_append, hrest, eraseDups_of_nodup hd]
  simp

theorem nodup_append_none (hd : ds.Nodup) (h : primitive .none ∉ ds) :
    (ds ++ [primitive .none]).Nodup := hd.append (List.nodup_singleton _) (by simpa using h)

theorem orNone_union_of_notMem (hd : ds.Nodup) (h : primitive .none ∉ ds) (tagField : String) :
    (union ds tagField).orNone = union (ds ++ [primitive .none]) tagField :=
  ofMembers_of_nodup (nodup_append_none hd h) tagField

/-- A union of one type or none has none already. -/
theorem orNone_of_optionalInner? (h : d.optionalInner? = some inner) : d.orNone = d := by
  obtain ⟨hne, tagField, hd⟩ := optionalInner?_eq_some.mp h
  rcases hd with rfl | rfl
  · exact orNone_union_of_mem (by simpa using hne) (by simp) tagField
  · exact orNone_union_of_mem (by simpa using hne.symm) (by simp) tagField

theorem Forks.append_none (h : Forks ds) : Forks (ds ++ [primitive .none]) := by
  constructor
  · exact List.append_ne_nil_of_left_ne_nil h.1 _
  · intro d
    rw [List.filter_append]
    simpa using h.2 d

end Descriptor

end Interchange
