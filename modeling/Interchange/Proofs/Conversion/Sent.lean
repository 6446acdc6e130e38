import Interchange.Proofs.Conversion.Conformance
import Interchange.Proofs.Conversion.Guess

/-!
# What is sent

Whoever has only the descriptor of a type has to read the literals that are written for the type by
that.  `Sent` says which literals these are: where a union is one type or none, the literals of the
one type and none, where it forks, the literals of its members under their tags, and none itself if
that is a member.
-/

namespace Interchange

/-- The literals that are written for a descriptor where so many levels are left. -/
inductive Sent : Nat → Descriptor → Literal → Prop
  | primitive {levels : Nat} (s : Scalar) : Sent levels (.primitive s.kind) (.scalar s)
  | blob {levels : Nat} (b : Blob) : Sent levels (.blob ⟨"", b.type.extent⟩) (.blob b)
  | collection {levels : Nat} {d : Descriptor} {items : List Literal}
      (room : items ≠ [] → 0 < levels) (each : ∀ l ∈ items, Sent (levels - 1) d l) :
      Sent levels (.collection d) (.collection items)
  | mapping {levels : Nat} {d : Descriptor} {entries : List (String × Literal)}
      (room : entries ≠ [] → 0 < levels) (each : ∀ e ∈ entries, Sent (levels - 1) d e.2) :
      Sent levels (.mapping d) (.mapping entries)
  | record {levels : Nat} {fields : List (String × Descriptor)} {carried : Entries Literal}
      (room : fields ≠ [] → 0 < levels)
      (complete : ∀ f ∈ fields, ∃ l, Entries.get? f.1 carried = some l)
      (each : ∀ f ∈ fields, ∀ l, Entries.get? f.1 carried = some l → Sent (levels - 1) f.2 l) :
      Sent levels (.record fields) (.record carried)
  | absent {levels : Nat} {d : Descriptor} (mem : .primitive .none ∈ d.members) :
      Sent levels d .none
  | present {levels : Nat} {d inner : Descriptor} {l : Literal}
      (optional : d.optionalInner? = some inner) (sent : Sent levels inner l) : Sent levels d l
  | tagged {levels : Nat} {members : List Descriptor} {tagField : String} {member : Descriptor}
      {l : Literal} (forks : Descriptor.Forks members) (nodup : members.Nodup)
      (mem : member ∈ members) (sent : Sent levels member l) :
      Sent levels (.union members tagField) (.union member l)

/-! ## Adding none -/

namespace Sent

variable {levels : Nat} {d : Descriptor} {l : Literal}

theorem eq_none (h : Sent levels (.primitive .none) l) : l = .none := by
  generalize hd : Descriptor.primitive .none = d at h
  cases h with
  | primitive s =>
    cases s <;> cases hd
    rfl
  | absent => rfl
  | present optional =>
    subst hd
    cases optional
  | _ => cases hd

/-- What is sent for a type is sent for it or none. -/
theorem orNone (h : Sent levels d l) : Sent levels d.orNone l := by
  rcases d.none_or_union with rfl | ⟨members, tagField, rfl⟩ | ⟨hn, noUnion⟩
  · rw [h.eq_none]
    exact .absent (Descriptor.none_mem_orNone _)
  · cases h with
    | absent => exact .absent (Descriptor.none_mem_orNone _)
    | present optional sent =>
      rw [Descriptor.orNone_of_optionalInner? optional]
      exact .present optional sent
    | tagged forks nodup mem sent =>
      by_cases hmem : .primitive .none ∈ members
      · rw [Descriptor.orNone_union_of_mem nodup hmem]
        exact .tagged forks nodup mem sent
      · rw [Descriptor.orNone_union_of_notMem nodup hmem]
        exact .tagged forks.append_none (Descriptor.nodup_append_none nodup hmem)
          (List.mem_append_left _ mem) sent
  · rw [Descriptor.orNone_of_ne noUnion hn]
    exact .present (Descriptor.optionalInner?_union hn _) h

/-- What is sent for a type or none is none or sent for the type, but for none under its tag. -/
theorem of_orNone (hd : Describable d) (h : Sent levels d.orNone l) :
    l = .none ∨ Sent levels d l ∨
      l = .union (.primitive .none) .none ∧ .primitive .none ∉ d.members := by
  rcases d.none_or_union with rfl | ⟨members, tagField, rfl⟩ | ⟨hn, noUnion⟩
  · cases h with
    | absent => exact .inl rfl
    | present optional => cases optional
    | tagged _ _ mem sent =>
      rw [List.mem_singleton.mp mem] at sent ⊢
      exact .inr (.inr ⟨by rw [sent.eq_none], List.not_mem_nil⟩)
  · cases hd with
    | optional _ valued _ =>
      rw [Descriptor.orNone_of_optionalInner? (Descriptor.optionalInner?_union valued _)] at h
      exact .inr (.inl h)
    | tagged forks nodup each =>
      by_cases hmem : .primitive .none ∈ members
      · rw [Descriptor.orNone_union_of_mem nodup hmem] at h
        exact .inr (.inl h)
      · rw [Descriptor.orNone_union_of_notMem nodup hmem] at h
        cases h with
        | absent => exact .inl rfl
        | present optional =>
          rw [forks.append_none.optionalInner?_eq_none] at optional
          cases optional
        | tagged _ _ mem sent =>
          rcases List.mem_append.mp mem with mem | mem
          · exact .inr (.inl (.tagged forks nodup mem sent))
          · rw [List.mem_singleton.mp mem] at sent ⊢
            exact .inr (.inr ⟨by rw [sent.eq_none], hmem⟩)
  · rw [Descriptor.orNone_of_ne noUnion hn] at h
    cases h with
    | absent => exact .inl rfl
    | present optional sent =>
      rw [Descriptor.optionalInner?_union hn] at optional
      cases optional
      exact .inr (.inl sent)
    | tagged forks =>
      refine absurd ?_ (forks.2 d)
      simp [hn]

end Sent

/-! ## What is written is sent -/

/-- Whatever is written for a type is sent for its descriptor. -/
theorem Registry.Writes.sent {r : Registry} {known : Knowledge} {levels : Nat} {place : Place}
    {t : HostType} {d : Descriptor} {v : Value} {l : Literal}
    (h : r.Writes known levels place t d v l) (hr : r.RecordsOnly) (ht : r.DistinctFields t)
    (hv : v.StreamFree) (hk : ∀ t d, known t d → r.IsDescribed t d) : Sent levels d l := by
  induction h with
  | primitive _ read =>
    obtain rfl := Scalar.kind_of_as? read
    exact .primitive _
  | reference => exact .blob _
  | @list _ _ t _ items _ room written ih =>
    have ht := ht.of_contains (.part List.mem_cons_self)
    have hv := Value.streamFreeItems_iff.mp hv
    refine .collection (by simpa using room) ?_
    rintro l hl
    obtain ⟨item, hitem, rfl⟩ := List.mem_map.mp hl
    obtain ⟨i, hi⟩ := exists_mem_zipIdx hitem 0
    exact ih _ hi ht (hv _ (List.mem_map_of_mem hitem))
  | stream => exact hv.elim
  | @dict _ _ t _ entries _ room written ih =>
    have ht := ht.of_contains (.part List.mem_cons_self)
    have hv := Value.streamFreeEntries_iff.mp hv
    refine .mapping (by simpa using room) ?_
    rintro e he
    obtain ⟨e, hmem, rfl⟩ := List.mem_map.mp he
    exact ih e hmem ht (hv (e.1, e.2.1) (List.mem_map.mpr ⟨e, hmem, rfl⟩))
  | absent => exact .absent (Descriptor.none_mem_orNone _)
  | present nullable _ _ ih => exact (ih (ht.of_contains nullable.contains) hv).orNone
  | plain plain _ ih => exact ih (ht.of_contains plain.contains) hv
  | @tagged _ _ parts member _ _ tagged accepted _ ih =>
    have hmem := List.mem_of_find?_eq_some accepted
    have hforks := (hr.forks_iff fun part hp ↦ hk _ _ (tagged.known part hp)).mpr tagged.form
    rw [Descriptor.ofMembers_of_nodup tagged.distinct]
    exact .tagged hforks tagged.distinct (List.mem_map_of_mem hmem)
      (ih (ht.of_contains (.part (List.mem_map_of_mem hmem))) hv)
  | @record _ _ _ schema declared _ fields declares complete _ room _ _ ih =>
    have hv := Value.streamFreeEntries_iff.mp hv
    refine .record ?_ ?_ ?_
    · intro hne
      obtain ⟨f, hf⟩ := List.exists_mem_of_ne_nil _ (mt List.map_eq_nil_iff.mpr hne)
      obtain ⟨field, hfield, -⟩ := complete f hf
      exact room (List.ne_nil_of_mem hfield)
    · rintro _ hmem
      obtain ⟨f, hf, rfl⟩ := List.mem_map.mp hmem
      obtain ⟨field, hfield, hname⟩ := complete f hf
      refine Option.ne_none_iff_exists'.mp fun hnone ↦ ?_
      exact Entries.get?_eq_none_iff.mp hnone _ (List.mem_map_of_mem hfield) hname
    · rintro _ hmem l hl
      obtain ⟨f, hf, rfl⟩ := List.mem_map.mp hmem
      obtain ⟨field, hfield, heq⟩ := List.mem_map.mp (Entries.mem_of_get? hl)
      obtain ⟨hname, rfl⟩ := Prod.mk.inj heq
      have hlookup := declares.lookup ht hf
      rw [← hname] at hlookup
      have ht' := ht.of_contains (declares.contains hf)
      exact ih field hfield _ _ hlookup ht' (hv _ (List.mem_map.mpr ⟨field, hfield, rfl⟩))

end Interchange
