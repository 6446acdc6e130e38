import Interchange.Proofs.Tlv.Layout

/-!
# Writing descriptors

A descriptor that nests no deeper than the limit is written as its layout; a deeper one is refused
for its nesting.  Either way its bytes have to fit: the body of the outermost variant, in which
every other length of the layout is that of a part, has to be shorter than the limit of lengths.
-/

namespace Interchange

open Tlv Tlv.Writer

variable {scope : Scope} {depth : Nat}

namespace Tlv.Writer

/-- An entry of a map that holds a string. -/
theorem Appends.entryStr {name value : String}
    (h : (variantItem name (strItem value)).length < lengthLimit + 5) :
    Appends scope (entryStr name value) 1 (variantItem name (strItem value)) := by
  refine .variant (.str (by decide) ?_) h
  simp only [length_variantItem, length_strItem] at h
  omega

/-- An entry of a map that holds an integer. -/
theorem Appends.entryS64 {name : String} {v : Int64}
    (h : (variantItem name (s64Item v)).length < lengthLimit + 5) :
    Appends scope (entryS64 name v) 1 (variantItem name (s64Item v)) :=
  .variant (.s64 (by decide) v) h

theorem Appends.blobEntries {type : BlobType}
    (h : (Descriptor.blobEntryBytes type).length < lengthLimit) :
    Appends scope (blobEntries type) 2 (Descriptor.blobEntryBytes type) := by
  simp only [Descriptor.blobEntryBytes, List.length_append] at h
  exact (Appends.entryStr (by omega)).seq (.entryStr (by omega))

end Tlv.Writer

namespace Descriptor

theorem writeMembers_eq_forM (depth : Nat) (ds : List Descriptor) :
    writeMembers depth ds = forM ds (write depth) := by
  induction ds with
  | nil => rw [writeMembers]; rfl
  | cons d ds ih => rw [writeMembers, ih, List.forM_cons]

theorem writeFields_eq_forM (depth : Nat) (fields : List (String × Descriptor)) :
    writeFields depth fields = forM fields fun f ↦ variant f.1 (f.2.write depth) := by
  induction fields with
  | nil => rw [writeFields]; rfl
  | cons f fields ih => rw [writeFields, ih, List.forM_cons]

theorem write_of_le (h : depth ≤ maxDepth) (d : Descriptor) :
    d.write depth = variant d.shape (d.writeBody depth) := by
  rw [write, if_neg (Nat.not_lt.mpr h)]

/-- A descriptor within the limit of nesting is written as its layout. -/
theorem write_appends {d : Descriptor} (hd : depth + d.depth ≤ maxDepth)
    (hl : d.layout.length < lengthLimit + 5) : Appends scope (d.write depth) 1 d.layout := by
  induction d generalizing depth scope with
  | primitive kind =>
    rw [write_of_le (by omega), writeBody]
    refine .variant (.str (by decide) ?_) hl
    simp only [layout, payload, length_variantItem, length_strItem] at hl
    omega
  | collection d ih =>
    rw [depth_collection] at hd
    have hl' := hl
    rw [layout, payload, length_variantItem] at hl'
    rw [write_of_le (by omega), writeBody]
    exact .variant (ih (by omega) (by rw [layout]; omega)) hl
  | mapping d ih =>
    rw [depth_mapping] at hd
    have hl' := hl
    rw [layout, payload, length_variantItem] at hl'
    rw [write_of_le (by omega), writeBody]
    exact .variant (ih (by omega) (by rw [layout]; omega)) hl
  | union members tagField ih =>
    have hp := depth_le_iff.mp (Nat.le_sub_of_add_le' hd)
    have hl' := hl
    simp only [layout, payload, length_variantItem, length_sized, List.length_append] at hl'
    have hmembers : Appends .list (forM members (write (depth + 1))) members.length
        (memberBytes members) := by
      rw [memberBytes_eq_flatMap]
      refine .forM fun d hmem ↦ ih d hmem ?_ ?_
      · have := hp d hmem
        omega
      · have := length_layout_le_of_mem hmem
        omega
    have hentry : Appends .map (variant "members" (list (forM members (write (depth + 1))))) 1 _ :=
      .variant (.list (by decide) hmembers (by omega)) (by
        rw [length_variantItem, length_sized]
        omega)
    have htag : Appends .map (entryStr "tag_field" tagField) 1 _ :=
      .entryStr (by rw [length_variantItem]; omega)
    rw [write_of_le (by omega), writeBody, writeMembers_eq_forM]
    refine .variant (.map (by decide) (hentry.seq htag) ?_) hl
    simp only [length_variantItem, length_sized, List.length_append]
    omega
  | blob type =>
    rw [write_of_le (by omega), writeBody]
    refine .variant (.map (by decide) (.blobEntries ?_) ?_) hl <;>
    · simp only [layout, payload, length_variantItem, length_sized] at hl
      omega
  | record fields ih =>
    have hp := depth_le_iff.mp (Nat.le_sub_of_add_le' hd)
    have hl' := hl
    simp only [layout, payload, length_variantItem, length_sized] at hl'
    have hfields : Appends .list (forM fields fun f ↦ variant f.1 (f.2.write (depth + 1)))
        fields.length (fieldBytes fields) := by
      rw [fieldBytes_eq_flatMap]
      refine .forM ?_
      intro f hmem
      have hlen := length_layout_le_of_mem_fields hmem
      have hdep := hp f.2 (List.mem_map_of_mem hmem)
      refine .variant (ih f hmem (by omega) ?_) (by omega)
      rw [length_variantItem] at hlen
      omega
    rw [write_of_le (by omega), writeBody, writeFields_eq_forM]
    exact .variant (.list (by decide) hfields (by omega)) hl

/-- A descriptor is refused when what stands inside its variant is. -/
theorem refuses_of_body {d : Descriptor} (hl : d.layout.length < lengthLimit + 5)
    (h : depth ≤ maxDepth → Refuses .variant (d.writeBody depth) .nestingLimit) :
    Refuses scope (d.write depth) .nestingLimit := by
  rcases Nat.lt_or_ge maxDepth depth with hlt | hge
  · rw [write, if_pos hlt]
    exact (Refuses.throw scope _).seq
  · rw [write_of_le hge]
    rw [layout, length_variantItem] at hl
    exact .variant (by omega) (h hge)

/-- A descriptor beyond the limit of nesting is refused for it. -/
theorem write_refuses {d : Descriptor} (hd : maxDepth < depth + d.depth)
    (hl : d.layout.length < lengthLimit + 5) : Refuses scope (d.write depth) .nestingLimit := by
  induction d generalizing depth scope with
  | primitive kind =>
    refine refuses_of_body hl ?_
    intro hle
    rw [depth_primitive] at hd
    omega
  | collection d ih =>
    refine refuses_of_body hl ?_
    intro _
    rw [depth_collection] at hd
    rw [layout, payload, length_variantItem] at hl
    rw [writeBody]
    exact ih (by omega) (by rw [layout]; omega)
  | mapping d ih =>
    refine refuses_of_body hl ?_
    intro _
    rw [depth_mapping] at hd
    rw [layout, payload, length_variantItem] at hl
    rw [writeBody]
    exact ih (by omega) (by rw [layout]; omega)
  | union members tagField ih =>
    refine refuses_of_body hl ?_
    intro hle
    simp only [layout, payload, length_variantItem, length_sized, List.length_append] at hl
    have hfits {d} (hmem : d ∈ members) : d.layout.length < lengthLimit + 5 := by
      have := length_layout_le_of_mem hmem
      omega
    obtain ⟨d, hmem, hlt⟩ := lt_depth_iff.mp (Nat.sub_lt_left_of_lt_add hle hd)
    rw [writeBody, writeMembers_eq_forM]
    refine .map (by decide) (.seq (.variant (by omega) (.list (by decide)
      (.forM (by decide) (g := layout) ?_ ?_))))
    · exact fun d hmem ↦ (Nat.lt_or_ge maxDepth (depth + 1 + d.depth)).symm.imp
        (write_appends · (hfits hmem)) (ih d hmem · (hfits hmem))
    · exact ⟨d, hmem, ih d hmem (by omega) (hfits hmem)⟩
  | blob type =>
    refine refuses_of_body hl ?_
    intro hle
    rw [depth_blob] at hd
    omega
  | record fields ih =>
    refine refuses_of_body hl ?_
    intro hle
    simp only [layout, payload, length_variantItem, length_sized] at hl
    have hfits {f} (hmem : f ∈ fields) :
        (variantItem f.1 f.2.layout).length < lengthLimit + 5 := by
      have := length_layout_le_of_mem_fields hmem
      omega
    have hrefuses {f} (hmem : f ∈ fields) (hlt : maxDepth < depth + 1 + f.2.depth) :
        Refuses .list (variant f.1 (f.2.write (depth + 1))) .nestingLimit := by
      have := hfits hmem
      rw [length_variantItem] at this
      exact .variant (by omega) (ih f hmem hlt (by omega))
    obtain ⟨d, hpart, hlt⟩ := lt_depth_iff.mp (Nat.sub_lt_left_of_lt_add hle hd)
    obtain ⟨f, hmem, rfl⟩ := List.mem_map.mp hpart
    rw [writeBody, writeFields_eq_forM]
    refine .list (by decide) (.forM (by decide) (g := fun f ↦ variantItem f.1 f.2.layout) ?_ ?_)
    · refine fun f hmem ↦ (Nat.lt_or_ge maxDepth (depth + 1 + f.2.depth)).symm.imp (fun hle ↦ ?_)
        (hrefuses hmem)
      have := hfits hmem
      rw [length_variantItem] at this
      exact .variant (write_appends hle (by omega)) (hfits hmem)
    · exact ⟨f, hmem, hrefuses hmem (by omega)⟩

/-! ### All bytes -/

theorem toBytes_of_depth_le {d : Descriptor} (hd : d.depth ≤ maxDepth)
    (hl : d.layout.length < lengthLimit + 5) : d.toBytes = .ok d.layout :=
  (write_appends (by omega) hl : Appends .root (d.write 0) 1 d.layout).bytesOf

theorem toBytes_of_lt_depth {d : Descriptor} (hd : maxDepth < d.depth)
    (hl : d.layout.length < lengthLimit + 5) : d.toBytes = .error .nestingLimit :=
  (write_refuses (by omega) hl : Refuses .root (d.write 0) _).bytesOf

end Descriptor

end Interchange
