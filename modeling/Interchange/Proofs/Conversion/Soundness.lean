import Interchange.Proofs.Conversion.Decoding
import Interchange.Proofs.Conversion.Encoding
import Interchange.Proofs.Conversion.Shape
import Interchange.Proofs.Tlv.Layout

/-!
# Soundness of decoding

Whatever literal is decoded as a type, and whoever wrote it, the value is data of the shape of that
type.  So it passes the check of the type, and can be encoded as the type again, maybe as another
member of a union than the one it was decoded as.  All that can stop this is a want of levels.
-/

namespace Interchange

open Session Attempt

/-! ## Values of literals -/

namespace Literal

theorem values_eq_map (ls : List Literal) : values ls = ls.map value := by
  induction ls with
  | nil => rfl
  | cons l ls ih => rw [values, ih, List.map_cons]

theorem entryValues_eq_map (es : List (String × Literal)) :
    entryValues es = es.map fun e ↦ (e.1, e.2.value) := by
  induction es with
  | nil => rfl
  | cons e es ih => rw [entryValues, ih, List.map_cons]

/-- What a literal is read as by its shape is data. -/
theorem isData_value {l : Literal} (hl : l.Ordered) : l.value.IsData := by
  have hentries {es : Entries Literal} (ho : es.Ordered) (hes : OrderedEntries es)
      (ih : ∀ e ∈ es, e.2.Ordered → e.2.value.IsData) : (Value.map (entryValues es)).IsData := by
    rw [entryValues_eq_map, Value.isData_map, List.forall_mem_map]
    exact ⟨ho.mapItems _, fun e he ↦ ih e he (orderedEntries_iff.mp hes e he)⟩
  induction l with
  | scalar s => exact Value.isData_scalar s
  | blob b => exact Value.isData_blob b
  | collection items ih =>
    rw [value, values_eq_map, Value.isData_list, List.forall_mem_map]
    exact fun l hmem ↦ ih l hmem (orderedItems_iff.mp hl l hmem)
  | mapping entries ih => exact hentries hl.1 hl.2 ih
  | record fields ih => exact Value.isData_record.mpr (hentries hl.1 hl.2 ih)
  | union type l ih => exact ih hl

end Literal

/-! ## What decoding yields -/

/-- Whatever a conversion returns, in whatever session, is as promised. -/
abbrev Yields {α : Type} (P : α → Prop) (x : Conversion α) : Prop :=
  Ends (fun _ ↦ True) P (fun _ ↦ True) x

theorem Yields.of_run {α : Type} {P : α → Prop} {x : Conversion α}
    (h : ∀ {s a s'}, x.run s = (.ok a, s') → P a) : Yields P x := by
  intro s _
  refine ⟨trivial, ?_⟩
  rcases hrun : x.run s with ⟨e | a, s'⟩
  · trivial
  · exact h hrun

section

variable {r : Registry} {known : Knowledge} {levels : Nat} {place : Place} {t : HostType}
  {d : Descriptor} {l : Literal} {worker : Option Delegate} {P : Value → Prop}

/-- Each declared field is decoded by its type, if no name is declared twice. -/
theorem yields_decodeFields {Q : HostType → Value → Prop} {carried : Entries Literal}
    {fields : List (String × HostType)} {decoded : Entries Value}
    (distinct : (fields.map (·.1)).Nodup) (ordered : decoded.Ordered)
    (h : ∀ f ∈ fields, ∀ l, Entries.get? f.1 carried = some l →
      ∀ levels place, Yields (Q f.2) (r.decode worker levels place f.2 l)) :
    Yields (fun es ↦ es.Ordered ∧ (∀ f ∈ fields, ∃ v, Entries.get? f.1 es = some v ∧ Q f.2 v) ∧
        ∀ name, name ∉ fields.map (·.1) → Entries.get? name es = Entries.get? name decoded)
      (decodeFields (below (r.decode worker) levels) place carried decoded fields) := by
  induction fields generalizing decoded with
  | nil => exact .pure ⟨ordered, List.forall_mem_nil _, fun _ _ ↦ rfl⟩
  | cons f fields ih =>
    obtain ⟨hf, hfields⟩ := List.forall_mem_cons.mp h
    obtain ⟨hnew, distinct⟩ := List.nodup_cons.mp distinct
    refine ends_enter (fun _ ↦ trivial) ?_
    dsimp only
    split
    · exact .throw trivial
    · next l hl =>
      refine (hf l hl _ _).bind fun v hv ↦ ?_
      refine (ih distinct (ordered.insert f.1 v) hfields).mono ?_ fun _ h ↦ h
      rintro es ⟨hes, hdeclared, hothers⟩
      refine ⟨hes, List.forall_mem_cons.mpr ⟨⟨v, ?_, hv⟩, hdeclared⟩, ?_⟩
      · rw [hothers f.1 hnew, Entries.get?_insert_self]
      · intro name hname
        obtain ⟨hne, hname⟩ := List.ne_and_not_mem_of_not_mem_cons hname
        rw [hothers name hname, Entries.get?_insert_of_ne hne]

namespace Registry

/-- A literal of a list is decoded to items of data. -/
theorem yields_decode_list (resolved : r.resolve (.list t) = .ok .sequence) (hl : l.Ordered)
    (h : ∀ l : Literal, l.Ordered → ∀ levels place,
      Yields (fun v ↦ r.Shaped t v ∧ v.IsData) (r.decode worker levels place t l)) :
    Yields (fun v ↦ r.Shaped (.list t) v ∧ v.IsData)
      (r.decode worker levels place (.list t) l) := by
  rw [decode_of_resolve resolved]
  cases l with
  | collection items =>
    have hl := Literal.orderedItems_iff.mp hl
    have hitems (l : Literal) (hmem : l ∈ items) := h l (hl l hmem) (levels - 1)
    refine Ends.map (ends_decodeItems (fun _ _ _ ↦ trivial) hitems 0) fun vs hvs ↦ ?_
    exact ⟨(shaped_list resolved).mpr fun v hv ↦ (hvs v hv).1,
      Value.isData_list.mpr fun v hv ↦ (hvs v hv).2⟩
  | _ => exact .throw trivial

/-- A literal of a map is decoded to entries of data, under the keys as they are. -/
theorem yields_decode_dict (resolved : r.resolve (.dict t) = .ok .mapping) (hl : l.Ordered)
    (h : ∀ l : Literal, l.Ordered → ∀ levels place,
      Yields (fun v ↦ r.Shaped t v ∧ v.IsData) (r.decode worker levels place t l)) :
    Yields (fun v ↦ r.Shaped (.dict t) v ∧ v.IsData)
      (r.decode worker levels place (.dict t) l) := by
  rw [decode_of_resolve resolved]
  cases l with
  | mapping entries =>
    obtain ⟨hordered, hl⟩ := hl
    have hl := Literal.orderedEntries_iff.mp hl
    have hentries (e : String × Literal) (hmem : e ∈ entries) :=
      h e.2 (hl e hmem) (levels - 1)
    refine Ends.map (ends_decodeEntries (fun _ _ _ ↦ trivial) hentries) ?_
    rintro es ⟨hkeys, hes⟩
    have hes' : Entries.Ordered es := by
      rw [Entries.Ordered, ← List.pairwise_map (f := Prod.fst) (R := (· < ·))] at hordered ⊢
      rwa [hkeys]
    exact ⟨(shaped_dict resolved).mpr fun e he ↦ (hes e he).1,
      Value.isData_map.mpr ⟨hes', fun e he ↦ (hes e he).2⟩⟩
  | _ => exact .throw trivial

/-- None is data of the shape of any type that none may stand for. -/
theorem Nullable.yields_decode {inner : HostType} (hn : r.Nullable t inner)
    (h : Yields (fun v ↦ r.Shaped inner v ∧ v.IsData) (r.decode worker levels place inner l)) :
    Yields (fun v ↦ r.Shaped t v ∧ v.IsData) (r.decode worker levels place t l) := by
  rw [decode_nullable hn, decodeValued]
  split
  · refine .pure ⟨(shaped_nullable hn).mpr ?_, Value.isData_scalar .none⟩
    rintro ⟨⟩
  · refine h.mono ?_ fun _ h ↦ h
    rintro v ⟨hshaped, hdata⟩
    exact ⟨(shaped_nullable hn).mpr fun _ ↦ hshaped, hdata⟩

/-- A literal of a tagged union is decoded as some member, with or without its tag. -/
theorem yields_decodeMember {parts : List (HostType × (Literal → Conversion Value))}
    (hl : l.Ordered)
    (h : ∀ decode ∈ parts.map (·.2), ∀ l : Literal, l.Ordered → Yields P (decode l)) :
    Yields P (r.decodeMember levels place t parts l) := by
  unfold decodeMember
  split
  · next tag l =>
    have hfound : Yields (· ∈ parts.map (·.2)) (memberDescribed
        (.undecodable place.path t.text ("union member " ++ tag.text)) tag
        (r.describe levels place) parts) := .of_run memberDescribed_mem
    exact hfound.bind fun decode hdecode ↦ h decode hdecode l hl
  · have hfound : Yields (· ⊆ parts.map (·.2)) (membersFitting l (r.describe levels place) parts) :=
      .of_run membersFitting_mem
    refine hfound.bind fun decodes hdecodes ↦ ?_
    split
    · exact h _ (hdecodes List.mem_cons_self) l hl
    · exact .throw trivial

/-- A record goes by the name of its type or of an ancestor that declares it. -/
theorem isSubtype_recordName {s : Schema} (h : r.schemaOf t = .ok s) :
    r.isSubtype (recordName s t) s.name = true := by
  cases t with
  | named name =>
    simp only [schemaOf] at h
    split at h
    · next hnearest =>
      cases h
      obtain ⟨a, ha, hschema⟩ := List.exists_of_findSome?_eq_some hnearest
      have hname : s.name = a := name_of_schema? hschema
      rw [hname]
      rcases List.mem_cons.mp ha with rfl | ha
      · simp [isSubtype, recordName]
      · simp [isSubtype, recordName, ha]
    · cases h
  | record name fields isOpen =>
    cases h
    simp [isSubtype, recordName]
  | _ => cases h

section

variable {s : Schema} {carried : Entries Literal} {es : Entries Value}

theorem get?_addUndeclared_of_mem (ordered : carried.Ordered) {f : String × HostType}
    (hf : f ∈ s.fields) :
    Entries.get? f.1 (s.addUndeclared carried es) = Entries.get? f.1 es := by
  have hsome : (s.get? f.1).isNone = false := by
    rw [Option.isNone_eq_false_iff, Option.isSome_iff_ne_none]
    exact fun hnone ↦ Schema.get?_eq_none_iff.mp hnone (List.mem_map_of_mem hf)
  rw [Schema.get?_addUndeclared ordered, hsome, Bool.and_false]
  rfl

/-- What is found in the decoded fields of a record is a declared field, or it is read by its shape
in an open record. -/
theorem found_addUndeclared (ordered : carried.Ordered)
    (declared : ∀ name, name ∉ s.fields.map (·.1) → Entries.get? name es = none) {name : String}
    {v : Value} (h : Entries.get? name (s.addUndeclared carried es) = some v) :
    (s.get? name).isSome = true ∧ Entries.get? name es = some v ∨
      s.isOpen = true ∧ ∃ l, Entries.get? name carried = some l ∧ l.value = v := by
  rw [Schema.get?_addUndeclared ordered] at h
  cases hget : s.get? name with
  | some t =>
    rw [hget, Option.isNone_some, Bool.and_false] at h
    exact .inl ⟨rfl, h⟩
  | none =>
    rw [hget, declared name (Schema.get?_eq_none_iff.mp hget), Option.or_none] at h
    cases hopen : s.isOpen with
    | true =>
      rw [hopen] at h
      exact .inr ⟨rfl, Option.map_eq_some_iff.mp h⟩
    | false =>
      rw [hopen] at h
      cases h

variable (ordered : carried.Ordered) (hes : es.Ordered)
  (others : ∀ name, name ∉ s.fields.map (·.1) → Entries.get? name es = none)

include ordered hes others

/-- Decoded fields with the undeclared ones of an open record fit its schema. -/
theorem fits_addUndeclared (schema : r.schemaOf t = .ok s)
    (declared : ∀ f ∈ s.fields, (Entries.get? f.1 es).isSome = true) :
    r.Fits s (some (recordName s t)) (s.addUndeclared carried es) := by
  have hall : Entries.Ordered (s.addUndeclared carried es) := Schema.ordered_addUndeclared hes
  refine ⟨?_, ?_, ?_⟩
  · rintro n ⟨⟩
    exact isSubtype_recordName schema
  · intro f hf
    rw [get?_addUndeclared_of_mem ordered hf]
    exact declared f hf
  · intro hclosed field hfield
    rcases found_addUndeclared ordered others (Entries.get?_of_mem hall hfield) with
      ⟨hsome, -⟩ | ⟨hopen, -⟩
    · exact hsome
    · cases hclosed.symm.trans hopen

theorem isData_addUndeclared (hcarried : ∀ e ∈ carried, e.2.Ordered)
    (declared : ∀ f ∈ s.fields, ∀ v, Entries.get? f.1 es = some v → v.IsData) :
    (Value.map (s.addUndeclared carried es)).IsData := by
  have hall : Entries.Ordered (s.addUndeclared carried es) := Schema.ordered_addUndeclared hes
  refine Value.isData_map.mpr ⟨hall, ?_⟩
  intro field hfield
  rcases found_addUndeclared ordered others (Entries.get?_of_mem hall hfield) with
    ⟨hsome, hv⟩ | ⟨-, l, hl, hv⟩
  · obtain ⟨u, hu⟩ := Option.isSome_iff_exists.mp hsome
    exact declared _ (Entries.mem_of_lookup hu) _ hv
  · rw [← hv]
    exact Literal.isData_value (hcarried _ (Entries.mem_of_get? hl))

end

/-- A literal of a record is decoded to a record of the type that is asked for. -/
theorem yields_decode_record {s : Schema} (resolved : r.resolve t = .ok .record)
    (schema : r.schemaOf t = .ok s) (distinct : (s.fields.map (·.1)).Nodup) (hl : l.Ordered)
    (h : ∀ f ∈ s.fields, ∀ l : Literal, l.Ordered → ∀ levels place,
      Yields (fun v ↦ r.Shaped f.2 v ∧ v.IsData) (r.decode worker levels place f.2 l)) :
    Yields (fun v ↦ r.Shaped t v ∧ v.IsData) (r.decode worker levels place t l) := by
  rw [decode_of_resolve resolved]
  show Yields _ (.ofExcept (r.schemaOf t) >>= _)
  rw [schema]
  cases l with
  | record carried =>
    obtain ⟨hordered, hcarried⟩ := hl
    have hcarried := Literal.orderedEntries_iff.mp hcarried
    refine (yields_decodeFields (Q := fun t v ↦ r.Shaped t v ∧ v.IsData) distinct
      Entries.ordered_nil ?_).bind ?_
    · intro f hf l hl
      exact h f hf l (hcarried _ (Entries.mem_of_get? hl))
    rintro es ⟨hes, hdeclared, hothers⟩
    have hfound {f} (hf : f ∈ s.fields) {v : Value} (hv : Entries.get? f.1 es = some v) :
        r.Shaped f.2 v ∧ v.IsData := by
      obtain ⟨v', hv', hQ⟩ := hdeclared f hf
      cases hv.symm.trans hv'
      exact hQ
    refine .pure ⟨(shaped_record resolved schema).mpr ⟨?_, ?_⟩, Value.isData_record.mpr ?_⟩
    · refine fits_addUndeclared hordered hes hothers schema fun f hf ↦ ?_
      obtain ⟨v, hv, -⟩ := hdeclared f hf
      rw [hv]
      rfl
    · intro f hf v hv
      rw [get?_addUndeclared_of_mem hordered hf] at hv
      exact (hfound hf hv).1
    · exact isData_addUndeclared hordered hes hothers hcarried fun f hf v hv ↦ (hfound hf hv).2
  | _ => exact .throw trivial

/-- Whatever literal is decoded as a type that is described, the value is data of its shape. -/
theorem Described.yields_decode (h : r.Described known t d) (hr : r.Builtin)
    (ht : r.DistinctFields t) (hl : l.Ordered) :
    Yields (fun v ↦ r.Shaped t v ∧ v.IsData) (r.decode worker levels place t l) := by
  induction h generalizing levels place l with
  | @intro c parts t d _ resolved composed described ih =>
    cases composed with
    | jsonLines | plugin => cases hr.resolve resolved
    | @primitive _ kind =>
      rw [decode_of_resolve resolved]
      cases l with
      | scalar s =>
        dsimp only [decodeBy]
        split
        · next s' hs =>
          refine .pure ⟨(shaped_iff resolved).mpr (.primitive ?_), Value.isData_scalar s'⟩
          rw [← Scalar.kind_of_as? hs, Scalar.as?_kind]
          rfl
        · exact .throw trivial
      | _ => exact .throw trivial
    | reference =>
      rw [decode_of_resolve resolved]
      cases l with
      | blob b =>
        dsimp only [decodeBy]
        split
        · next hextent =>
          subst hextent
          exact .pure ⟨(shaped_iff resolved).mpr .reference, Value.isData_blob b⟩
        · exact .throw trivial
      | _ => exact .throw trivial
    | list =>
      have ht := ht.of_contains (.part List.mem_cons_self)
      exact yields_decode_list resolved hl fun l hl levels place ↦ ih _ List.mem_cons_self ht hl
    | dict =>
      have ht := ht.of_contains (.part List.mem_cons_self)
      exact yields_decode_dict resolved hl fun l hl levels place ↦ ih _ List.mem_cons_self ht hl
    | optional =>
      have hnullable : r.Nullable _ _ := .optional resolved
      exact hnullable.yields_decode (ih _ List.mem_cons_self (ht.of_contains hnullable.contains) hl)
    | orNone form member =>
      have hnullable : r.Nullable _ _ := .union resolved form member
      exact hnullable.yields_decode (ih _ List.mem_cons_self (ht.of_contains hnullable.contains) hl)
    | plain form member =>
      have hplain : r.Plain _ _ := ⟨resolved, form, member⟩
      rw [decode_plain hplain]
      refine (ih _ List.mem_cons_self (ht.of_contains hplain.contains) hl).mono ?_ fun _ h ↦ h
      rintro v ⟨hshaped, hdata⟩
      exact ⟨(shaped_plain hplain).mpr hshaped, hdata⟩
    | tagged form types distinct =>
      subst types
      have htagged : r.Tagged known parts :=
        ⟨resolved, form, distinct, fun part hp ↦ (described part hp).isKnown⟩
      rw [decode_tagged htagged]
      refine yields_decodeMember hl fun decode hdecode l hl ↦ ?_
      rw [List.map_map] at hdecode
      obtain ⟨part, hp, rfl⟩ := List.mem_map.mp hdecode
      have ht := ht.of_contains (.part (List.mem_map_of_mem hp))
      refine (ih part hp ht hl).mono ?_ fun _ h ↦ h
      rintro v ⟨hshaped, hdata⟩
      exact ⟨(shaped_tagged htagged).mpr ⟨part, hp, hshaped⟩, hdata⟩
    | @record _ s fields _ schema declared types =>
      subst types
      have hdeclares : r.Declares t s fields := ⟨resolved, schema, declared⟩
      refine yields_decode_record resolved schema (ht.nodup resolved schema) hl ?_
      intro f hf l hl levels place
      rw [declared] at hf
      obtain ⟨g, hg, rfl⟩ := List.mem_map.mp hf
      exact ih g.2 (List.mem_map_of_mem hg) (ht.of_contains (hdeclares.contains hg)) hl

/-- Data of the shape of a type is encoded as the type, wherever describing the types that are
involved goes well, unless there is a want of levels. -/
theorem Described.ends_encode_shaped {I : Session → Prop} {v : Value}
    (h : r.Described known t d) (hr : r.Builtin) (ht : r.DistinctFields t)
    (hk : ∀ t d, known t d → ∀ levels place, Ends I (· = d) (fun f ↦ ∃ path, f = .nestingLimit path)
      (r.describe levels place t))
    (hs : r.Shaped t v) (hv : v.IsData) :
    Ends I (fun l ↦ l.conforms d = true) (fun f ↦ ∃ path, f = .nestingLimit path)
      (r.encode worker levels place t v d) := by
  refine (h.ends_encode hr.unplugged ht hk ?_ rfl hv.ordered hv.streamFree).mono ?_ ?_
  · intro _ _ t _ resolved
    cases hr.resolve resolved
  · intro l hl
    exact hl.1
  · rintro f (hf | hf)
    · exact h.faults hr hs hv hf
    · exact hf

end Registry

end

/-! ## What engines decode -/

namespace Engine

variable {u : Setup} {e e₁ e₂ e₃ : Engine} {place₁ place₂ : Place} {t : HostType}
  {d : Descriptor} {l : Literal} {v : Value}

/-- What an engine reads as a type that is described is data of its shape. -/
theorem Under.shaped (he : e.Under u) (hr : u.registry.Standard)
    (hd : u.registry.IsDescribed t d) (ht : u.registry.DistinctFields t) (hl : l.Ordered)
    {place : Place} (hv : (convert fun u ↦ u.toValue place t l).outcome e = .ok v) :
    u.registry.Shaped t v ∧ v.IsData := by
  obtain ⟨-, rfl⟩ := he
  have hyields : Yields (fun v ↦ e.setup.registry.Shaped t v ∧ v.IsData)
      (e.setup.toValue place t l) := hd.yields_decode hr.builtin ht hl
  exact of_outcome_eq_ok (P := fun v ↦ e.setup.registry.Shaped t v ∧ v.IsData) _ hyields trivial hv

/-- An engine writes data of the shape of a type, unless there is a want of levels. -/
theorem Under.toLiteral_of_shaped (he : e.Under u) (hr : u.registry.Standard)
    (hd : u.registry.IsDescribed t d) (ht : u.registry.DistinctFields t)
    (hs : u.registry.Shaped t v) (hv : v.IsData) (place : Place) :
    (∃ l, (convert fun u ↦ u.toLiteral place t v).outcome e = .ok l) ∨
      ∃ path, (convert fun u ↦ u.toLiteral place t v).outcome e = .error (.nestingLimit path) := by
  obtain ⟨he, rfl⟩ := he
  have hk (t d) (h : e.setup.registry.IsDescribed t d) (levels place) :
      Ends (Inside e.setup.registry.IsDescribed e.session) (· = d)
        (fun f ↦ ∃ path, f = .nestingLimit path) (e.setup.registry.describe levels place t) :=
    (h.ends_describe e.session levels place).mono (fun _ h ↦ h) fun _ h ↦ h.2
  have hends : Ends (Inside e.setup.registry.IsDescribed e.session) (fun _ ↦ True)
      (fun f ↦ ∃ path, f = .nestingLimit path) (e.setup.toLiteral place t v) := by
    refine (hk t d hd _ _).bind ?_
    rintro _ rfl
    refine (hd.described.ends_encode_shaped hr.builtin ht hk hs hv).bind ?_
    intro l hconforms
    rw [Setup.verified_of_conforms hconforms]
    exact .pure trivial
  rcases outcome_of_ends (fun u ↦ u.toLiteral place t v) hends
    (Session.Coherent.inside he.coherent) with ⟨l, hl, -⟩ | ⟨_, hf, path, rfl⟩
  · exact .inl ⟨l, hl⟩
  · exact .inr ⟨path, hf⟩

/-- A value that an engine reads from whatever literal passes the check of its type and is written
again, unless there is a want of levels. -/
theorem toValue_sound (h₁ : e₁.Under u) (h₂ : e₂.Under u) (h₃ : e₃.Under u)
    (hr : u.registry.Standard) (ht : u.registry.DistinctFields t) (hl : l.Ordered)
    (hd : (convert fun u ↦ u.describe place₁ t).outcome e₁ = .ok d)
    (hv : (convert fun u ↦ u.toValue place₂ t l).outcome e₂ = .ok v) (place₃ place₄ : Place) :
    (u.check place₃ t v = .ok () ∨ ∃ path, u.check place₃ t v = .error (.nestingLimit path)) ∧
      ((∃ l, (convert fun u ↦ u.toLiteral place₄ t v).outcome e₃ = .ok l) ∨
        ∃ path, (convert fun u ↦ u.toLiteral place₄ t v).outcome e₃ =
          .error (.nestingLimit path)) := by
  have hdescribed : u.registry.IsDescribed t d := by
    obtain ⟨h₁, rfl⟩ := h₁
    exact h₁.isDescribed hd
  obtain ⟨hshaped, hdata⟩ := h₂.shaped hr hdescribed ht hl hv
  constructor
  · exact (hdescribed.decides_check hr.builtin hdata.streamFree).ok_or_nestingLimit hshaped
  · exact h₃.toLiteral_of_shaped hr hdescribed ht hshaped hdata place₄

/-- A point as another writer may send it: with an integer for a number, a label without a tag and a
note with one. -/
def sentPoint : Literal :=
  .record [("label", .scalar (.string "a")), ("note", .union (.primitive .none) (.record [])),
    ("x", .scalar (.integer 3))]

/-- The point that is sent. -/
def readPoint : Value :=
  .record (some "point") [("label", .scalar (.string "a")), ("note", .record none []),
    ("x", .scalar (.float (.ofInt 3)))]

theorem toValue_sound_point :
    pointEngine.setup.check .root (.named "point") readPoint = .ok () ∧
      ∃ l, (convert fun u ↦ u.toLiteral .root (.named "point") readPoint).outcome pointEngine =
        .ok l := by
  have h : pointEngine.Under pointEngine.setup := ⟨reachable_pointEngine, rfl⟩
  have hl : sentPoint.Ordered := by
    refine ⟨?_, trivial, ⟨Entries.ordered_nil, trivial⟩, trivial, trivial⟩
    decide +kernel
  have hd : (convert fun u ↦ u.describe .root (.named "point")).outcome pointEngine = .ok _ := rfl
  have hv : (convert fun u ↦ u.toValue .root (.named "point") sentPoint).outcome pointEngine =
      .ok readPoint := rfl
  obtain ⟨hcheck | ⟨path, hcheck⟩, hliteral | ⟨path, hliteral⟩⟩ :=
    toValue_sound h h h standard_pointEngine distinctFields_point hl hd hv .root .root
  · exact ⟨hcheck, hliteral⟩
  · cases hliteral
  · cases hcheck
  · cases hcheck

end Engine

end Interchange
