import Interchange.Proofs.Conversion.Decoding

/-!
# Decoding what conforms

A literal that conforms to what a type is described as can be read as the type, given levels enough
for its nesting, but for two obstacles.  Without a tag, it may conform to more than one member of a
tagged union.  And a type or none is described as a union but read without tags, so that a tagged
literal there has to be one of a union within.  Decoding is refused just where it meets one of
these.
-/

namespace Interchange

open Session Attempt

/-! ## Nesting -/

namespace Literal

mutual

/-- The most steps, into an item, an entry or a field, that lead further into a literal. -/
def nesting : Literal → Nat
  | scalar _ | blob _ => 0
  | collection items => nestingItems items
  | mapping entries => nestingEntries entries
  | record fields => nestingEntries fields
  | union _ l => nesting l

def nestingItems : List Literal → Nat
  | [] => 0
  | l :: ls => max (nesting l + 1) (nestingItems ls)

def nestingEntries : List (String × Literal) → Nat
  | [] => 0
  | (_, l) :: es => max (nesting l + 1) (nestingEntries es)

end

variable {l : Literal} {d : Descriptor} {n : Nat}

theorem nestingItems_le_iff {ls : List Literal} :
    nestingItems ls ≤ n ↔ ∀ l ∈ ls, l.nesting + 1 ≤ n := by
  induction ls with
  | nil => simp [nestingItems]
  | cons l ls ih => simp only [nestingItems, Nat.max_le, ih, List.forall_mem_cons]

theorem nestingEntries_le_iff {es : List (String × Literal)} :
    nestingEntries es ≤ n ↔ ∀ e ∈ es, e.2.nesting + 1 ≤ n := by
  induction es with
  | nil => simp [nestingEntries]
  | cons e es ih => simp only [nestingEntries, Nat.max_le, ih, List.forall_mem_cons]

theorem nesting_lt_items {ls : List Literal} (h : l ∈ ls) : l.nesting < nestingItems ls :=
  nestingItems_le_iff.mp (Nat.le_refl _) l h

theorem nesting_lt_entries {es : List (String × Literal)} {e : String × Literal} (h : e ∈ es) :
    e.2.nesting < nestingEntries es := nestingEntries_le_iff.mp (Nat.le_refl _) e h

/-! ## What conforms -/

theorem isNone_of_conforms (h : l.conforms (.primitive .none) = true) : l.isNone = true := by
  cases l with
  | scalar s =>
    cases s with
    | none => rfl
    | _ => cases h
  | _ => cases h

/-- What conforms to a type or none, and is not none, conforms to the type, if its tag is one of the
type's own. -/
theorem conforms_of_orNone (h : l.conforms d.orNone = true) (hn : l.isNone = false)
    (htag : ∀ tag l', l = .union tag l' → tag ∈ d.members) : l.conforms d = true := by
  cases hu : l.isUntagged with
  | true =>
    have hmember (ds : List Descriptor) {tagField : String}
        (h : l.conforms (.ofMembers (ds ++ [.primitive .none]) tagField) = true) :
        ∃ d ∈ ds, l.conforms d = true := by
      rw [Descriptor.ofMembers, conforms_union_of_isUntagged hu, List.any_eq_true] at h
      obtain ⟨d, hd, hl⟩ := h
      rcases List.mem_append.mp (List.mem_eraseDups.mp hd) with hd | hd
      · exact ⟨d, hd, hl⟩
      · rw [List.mem_singleton.mp hd] at hl
        cases hn.symm.trans (isNone_of_conforms hl)
    cases d with
    | union ds tagField =>
      obtain ⟨d, hd, hl⟩ := hmember ds h
      exact conforms_union_of_mem hu hd hl
    | _ =>
      obtain ⟨_, hd, hl⟩ := hmember [_] h
      rwa [List.mem_singleton.mp hd] at hl
  | false =>
    cases l with
    | union tag l =>
      have hmem := htag tag l rfl
      cases d with
      | union ds tagField =>
        rw [Descriptor.orNone, Descriptor.ofMembers, conforms_union_union, Bool.and_eq_true] at h
        rw [conforms_union_union, Bool.and_eq_true, List.contains_iff_mem]
        exact ⟨hmem, h.2⟩
      | _ => cases hmem
    | _ => cases hu

theorem exists_of_conformsField {es : List (String × Literal)} {name : String}
    (h : conformsField es name d = true) :
    ∃ l, Entries.get? name es = some l ∧ l.conforms d = true := by
  induction es with
  | nil => cases h
  | cons e es ih =>
    unfold conformsField at h
    unfold Entries.get?
    split
    · next hname =>
      rw [if_pos hname] at h
      exact ⟨e.2, rfl, h⟩
    · next hname =>
      rw [if_neg hname] at h
      exact ih h

end Literal

/-! ## Obstacles -/

namespace Registry

variable {r : Registry} {known : Knowledge} {levels : Nat} {place : Place} {t : HostType}
  {d : Descriptor} {l : Literal} {worker : Option Delegate}

/-- Somewhere within, along the ways of decoding, a literal meets a type as a predicate says. -/
inductive Meets (r : Registry) (P : HostType → Literal → Prop) : HostType → Literal → Prop
  | here {t : HostType} {l : Literal} (holds : P t l) : Meets r P t l
  | item {t : HostType} {l : Literal} {items : List Literal}
      (resolved : r.resolve (.list t) = .ok .sequence) (mem : l ∈ items) (inside : Meets r P t l) :
      Meets r P (.list t) (.collection items)
  | entry {t : HostType} {e : String × Literal} {entries : List (String × Literal)}
      (resolved : r.resolve (.dict t) = .ok .mapping) (mem : e ∈ entries)
      (inside : Meets r P t e.2) : Meets r P (.dict t) (.mapping entries)
  | field {t : HostType} {s : Schema} {f : String × HostType} {l : Literal}
      {carried : Entries Literal} (resolved : r.resolve t = .ok .record)
      (schema : r.schemaOf t = .ok s) (mem : f ∈ s.fields)
      (found : Entries.get? f.1 carried = some l) (inside : Meets r P f.2 l) :
      Meets r P t (.record carried)
  | present {t inner : HostType} {l : Literal} (nullable : r.Nullable t inner)
      (valued : l.isNone = false) (inside : Meets r P inner l) : Meets r P t l
  | plain {members : List HostType} {t : HostType} {l : Literal} (plain : r.Plain members t)
      (inside : Meets r P t l) : Meets r P (.union members) l
  | member {parts : List (HostType × Descriptor)} {part : HostType × Descriptor} {l : Literal}
      (tagged : r.Tagged r.IsDescribed parts) (mem : part ∈ parts) (inside : Meets r P part.1 l) :
      Meets r P (.union (parts.map (·.1))) (.union part.2 l)
  | fitting {parts : List (HostType × Descriptor)} {part : HostType × Descriptor} {l : Literal}
      (tagged : r.Tagged r.IsDescribed parts) (untagged : l.isUntagged = true) (mem : part ∈ parts)
      (fits : l.conforms part.2 = true) (inside : Meets r P part.1 l) :
      Meets r P (.union (parts.map (·.1))) l

/-- A literal without a tag meets a tagged union and conforms to two of its members. -/
inductive Ambiguous (r : Registry) : HostType → Literal → Prop
  | intro {parts : List (HostType × Descriptor)} {part part' : HostType × Descriptor} {l : Literal}
      (tagged : r.Tagged r.IsDescribed parts) (untagged : l.isUntagged = true) (mem : part ∈ parts)
      (mem' : part' ∈ parts) (ne : part ≠ part') (fits : l.conforms part.2 = true)
      (fits' : l.conforms part'.2 = true) : Ambiguous r (.union (parts.map (·.1))) l

/-- A literal under a tag meets a type or none, and the type has no member for the tag. -/
inductive Mistagged (r : Registry) : HostType → Literal → Prop
  | intro {t inner : HostType} {d tag : Descriptor} {l : Literal} (nullable : r.Nullable t inner)
      (described : r.IsDescribed inner d) (noMember : tag ∉ d.members) :
      Mistagged r t (.union tag l)

/-- A literal meets a type that it is not read as, though it may conform. -/
abbrev Obstructed (r : Registry) (t : HostType) (l : Literal) : Prop :=
  r.Ambiguous t l ∨ r.Mistagged t l

/-- A literal is not read as a type if it is obstructed somewhere within. -/
theorem Meets.refuses (h : r.Meets r.Obstructed t l) (hr : r.Builtin)
    (hw : ∀ ask, worker = some ask → ask.Keeping r) (levels : Nat) (place : Place) :
    Refuses r (r.decode worker levels place t l) := by
  have hmembers {parts : List (HostType × Descriptor)} (h : r.Tagged r.IsDescribed parts)
      (levels : Nat) (place : Place) (part) (hp : part ∈ parts) :
      Ends (Coherent r) (· = part.2) (fun _ ↦ True) (r.describe levels place part.1) :=
    (h.known part hp).ends_describe_coherent levels place
  induction h generalizing levels place with
  | here holds =>
    rcases holds with ⟨tagged, untagged, mem, mem', ne, fits, fits'⟩ |
      ⟨nullable, described, noMember⟩
    · refine tagged.ends_decode_untagged untagged (hmembers tagged levels place) ?_ fun _ ↦ trivial
      intro only honly
      refine absurd ?_ ne
      rw [Tagged.eq_of_filter_conforms honly mem fits,
        Tagged.eq_of_filter_conforms honly mem' fits']
    · rw [decode_nullable nullable]
      exact described.refuses_tag hr noMember _
  | item resolved mem _ ih =>
    rw [decode_of_resolve resolved]
    exact Ends.map (refuses_decodeItems hw mem ih 0) fun _ hf ↦ hf
  | entry resolved mem _ ih =>
    rw [decode_of_resolve resolved]
    exact Ends.map (refuses_decodeEntries hw mem ih) fun _ hf ↦ hf
  | @field t s f l carried resolved schema mem found _ ih =>
    rw [decode_of_resolve resolved]
    show Refuses r (.ofExcept (r.schemaOf t) >>= _)
    rw [schema]
    exact (refuses_decodeFields hw mem found ih []).bind _
  | present nullable valued _ ih =>
    rw [decode_nullable nullable, decodeValued, if_neg (by simp [valued])]
    exact ih levels place
  | plain plain _ ih =>
    rw [decode_plain plain]
    exact ih levels place
  | member tagged mem _ ih =>
    exact tagged.ends_decode_tagged (hmembers tagged levels place) mem (ih levels place)
  | fitting tagged untagged mem fits _ ih =>
    refine tagged.ends_decode_untagged untagged (hmembers tagged levels place) ?_ fun _ ↦ trivial
    intro only honly
    rw [← Tagged.eq_of_filter_conforms honly mem fits]
    exact ih levels place

end Registry

/-! ## Reading what conforms -/

namespace Registry

variable {r : Registry} {known : Knowledge} {I : Session → Prop} {E : Fault → Prop} {levels : Nat}
  {place : Place} {t inner : HostType} {d : Descriptor} {l : Literal} {worker : Option Delegate}

/-- What conforms to a type or none is none, or it conforms to the type, since a tag that the type
has no member for is an obstacle. -/
theorem Nullable.ends_decode_of_conforms (h : r.Nullable t inner)
    (described : r.IsDescribed inner d) (hl : l.conforms d.orNone = true)
    (hm : ¬ r.Meets r.Obstructed t l)
    (ih : l.conforms d = true → ¬ r.Meets r.Obstructed inner l →
      Ends I (fun _ ↦ True) E (r.decode worker levels place inner l)) :
    Ends I (fun _ ↦ True) E (r.decode worker levels place t l) := by
  rw [decode_nullable h, decodeValued]
  split
  · exact .pure trivial
  · next hn =>
    have hvalued : l.isNone = false := by simpa using hn
    refine ih (Literal.conforms_of_orNone hl hvalued ?_) fun hi ↦ hm (.present h hvalued hi)
    rintro tag l' rfl
    by_contra hmem
    exact hm (.here (.inr (.intro h described hmem)))

/-- What conforms to the members of a tagged union is read as one of them, under its tag or because
it conforms to no other. -/
theorem Tagged.ends_decode_of_conforms {parts : List (HostType × Descriptor)}
    (h : r.Tagged r.IsDescribed parts)
    (hmembers : ∀ part ∈ parts, Ends I (· = part.2) E (r.describe levels place part.1))
    (hl : l.conforms (.union (parts.map (·.2)) Descriptor.defaultTagField) = true)
    (hn : l.nesting ≤ levels) (hm : ¬ r.Meets r.Obstructed (.union (parts.map (·.1))) l)
    (ih : ∀ part ∈ parts, ∀ l : Literal, l.conforms part.2 = true → l.nesting ≤ levels →
      ¬ r.Meets r.Obstructed part.1 l →
        Ends I (fun _ ↦ True) E (r.decode worker levels place part.1 l)) :
    Ends I (fun _ ↦ True) E (r.decode worker levels place (.union (parts.map (·.1))) l) := by
  cases hu : l.isUntagged with
  | true =>
    rw [Literal.conforms_union_of_isUntagged hu, List.any_eq_true] at hl
    obtain ⟨d, hd, hl⟩ := hl
    obtain ⟨part, hp, rfl⟩ := List.mem_map.mp hd
    have hsingle : parts.filter (fun part ↦ l.conforms part.2) = [part] := by
      refine h.filter_conforms hp hl ?_
      intro other ho htakes
      by_contra hne
      exact hm (.here (.inl (.intro h hu ho hp hne htakes hl)))
    refine h.ends_decode_untagged hu hmembers ?_ fun hmany ↦ absurd hsingle (hmany part)
    intro only honly
    rw [← Tagged.eq_of_filter_conforms honly hp hl]
    exact ih part hp l hl hn fun hi ↦ hm (.fitting h hu hp hl hi)
  | false =>
    cases l with
    | union tag l =>
      rw [Literal.conforms_union_union, Bool.and_eq_true, List.contains_iff_mem] at hl
      obtain ⟨part, hp, rfl⟩ := List.mem_map.mp hl.1
      exact h.ends_decode_tagged hmembers hp (ih part hp l hl.2 hn fun hi ↦ hm (.member h hp hi))
    | _ => cases hu

/-- Items are read one level further in. -/
theorem ends_decode_list_of_conforms (resolved : r.resolve (.list t) = .ok .sequence)
    (hl : l.conforms (.collection d) = true) (hn : l.nesting ≤ levels)
    (hm : ¬ r.Meets r.Obstructed (.list t) l)
    (ih : ∀ place (l : Literal), l.conforms d = true → l.nesting ≤ levels - 1 →
      ¬ r.Meets r.Obstructed t l →
        Ends I (fun _ ↦ True) E (r.decode worker (levels - 1) place t l)) :
    Ends I (fun _ ↦ True) E (r.decode worker levels place (.list t) l) := by
  rw [decode_of_resolve resolved]
  cases l with
  | collection items =>
    have hl := Literal.conforms_collection.mp hl
    have hlt (l : Literal) (hmem : l ∈ items) : l.nesting < levels :=
      Nat.lt_of_lt_of_le (Literal.nesting_lt_items hmem) hn
    refine Ends.map (ends_decodeItems (P := fun _ ↦ True) ?_ (fun l hmem place ↦ ?_) 0)
      fun _ _ ↦ trivial
    · rintro rfl hne
      obtain ⟨l, hmem⟩ := List.exists_mem_of_ne_nil _ hne
      cases hlt l hmem
    · exact ih place l (hl l hmem) (Nat.le_sub_one_of_lt (hlt l hmem))
        fun hi ↦ hm (.item resolved hmem hi)
  | _ => cases hl

/-- Entries are read one level further in. -/
theorem ends_decode_dict_of_conforms (resolved : r.resolve (.dict t) = .ok .mapping)
    (hl : l.conforms (.mapping d) = true) (hn : l.nesting ≤ levels)
    (hm : ¬ r.Meets r.Obstructed (.dict t) l)
    (ih : ∀ place (l : Literal), l.conforms d = true → l.nesting ≤ levels - 1 →
      ¬ r.Meets r.Obstructed t l →
        Ends I (fun _ ↦ True) E (r.decode worker (levels - 1) place t l)) :
    Ends I (fun _ ↦ True) E (r.decode worker levels place (.dict t) l) := by
  rw [decode_of_resolve resolved]
  cases l with
  | mapping entries =>
    have hl := Literal.conforms_mapping.mp hl
    have hlt (e : String × Literal) (hmem : e ∈ entries) : e.2.nesting < levels :=
      Nat.lt_of_lt_of_le (Literal.nesting_lt_entries hmem) hn
    refine Ends.map (ends_decodeEntries (P := fun _ ↦ True) ?_ fun e hmem place ↦ ?_)
      fun _ _ ↦ trivial
    · rintro rfl hne
      obtain ⟨e, hmem⟩ := List.exists_mem_of_ne_nil _ hne
      cases hlt e hmem
    · exact ih place e.2 (hl e hmem) (Nat.le_sub_one_of_lt (hlt e hmem))
        fun hi ↦ hm (.entry resolved hmem hi)
  | _ => cases hl

/-- A record that conforms carries every declared field, and each is read one level further in. -/
theorem Declares.ends_decode_of_conforms {s : Schema}
    {declared : List (String × HostType × Descriptor)} (h : r.Declares t s declared)
    (hl : l.conforms (.record (declared.map fun f ↦ (f.1, f.2.2))) = true)
    (hn : l.nesting ≤ levels) (hm : ¬ r.Meets r.Obstructed t l)
    (ih : ∀ f ∈ declared, ∀ place (l : Literal), l.conforms f.2.2 = true →
      l.nesting ≤ levels - 1 → ¬ r.Meets r.Obstructed f.2.1 l →
        Ends I (fun _ ↦ True) E (r.decode worker (levels - 1) place f.2.1 l)) :
    Ends I (fun _ ↦ True) E (r.decode worker levels place t l) := by
  rw [decode_of_resolve h.resolved]
  cases l with
  | record carried =>
    have hl := Literal.conforms_record.mp hl
    have hfields (f) (hf : f ∈ s.fields) : ∃ l, Entries.get? f.1 carried = some l ∧
        l.nesting < levels ∧ ∀ place,
          Ends I (fun _ ↦ True) E (r.decode worker (levels - 1) place f.2 l) := by
      have hf' := hf
      rw [h.fields] at hf'
      obtain ⟨g, hg, rfl⟩ := List.mem_map.mp hf'
      obtain ⟨l, hget, hl⟩ := Literal.exists_of_conformsField (hl _ (List.mem_map_of_mem hg))
      have hlt : l.nesting < levels :=
        Nat.lt_of_lt_of_le (Literal.nesting_lt_entries (Entries.mem_of_get? hget)) hn
      refine ⟨l, hget, hlt, fun place ↦ ?_⟩
      exact ih g hg place l hl (Nat.le_sub_one_of_lt hlt)
        fun hi ↦ hm (.field h.resolved h.schema hf hget hi)
    show Ends I _ E (.ofExcept (r.schemaOf t) >>= _)
    rw [h.schema]
    refine (ends_decodeFields ?_ ?_).bind fun _ _ ↦ .pure trivial
    · intro hne
      obtain ⟨f, hf⟩ := List.exists_mem_of_ne_nil _ hne
      obtain ⟨l, -, hlt, -⟩ := hfields f hf
      exact Nat.zero_lt_of_lt hlt
    · intro f hf
      obtain ⟨l, hget, -, hdecode⟩ := hfields f hf
      exact ⟨l, hget, hdecode⟩
  | _ => cases hl

/-- A literal that conforms to what a type is described as is read as the type, if it is obstructed
nowhere and does not nest too deep, wherever describing the members of unions goes well. -/
theorem Described.ends_decode_of_conforms (h : r.Described known t d) (hr : r.Builtin)
    (hk : ∀ t d, known t d → ∀ levels place, Ends I (· = d) E (r.describe levels place t))
    (hl : l.conforms d = true) (hn : l.nesting ≤ levels) (hm : ¬ r.Meets r.Obstructed t l) :
    Ends I (fun _ ↦ True) E (r.decode worker levels place t l) := by
  induction h generalizing levels place l with
  | @intro c parts t d _ resolved composed described ih =>
    have hdescribed (part : HostType × Descriptor) (hp : part ∈ parts) :
        r.IsDescribed part.1 part.2 := (described part hp).isDescribed
    cases composed with
    | jsonLines | plugin => cases hr.resolve resolved
    | primitive =>
      rw [decode_of_resolve resolved]
      cases l with
      | scalar s =>
        obtain rfl : s.kind = _ := by simpa [Literal.conforms, Descriptor.someMember] using hl
        simp only [decodeBy, Scalar.as?_kind]
        exact .pure trivial
      | _ => cases hl
    | reference =>
      rw [decode_of_resolve resolved]
      cases l with
      | blob b =>
        obtain rfl : b.type.extent = _ := by
          simpa [Literal.conforms, Descriptor.someMember] using hl
        simp only [decodeBy, if_true]
        exact .pure trivial
      | _ => cases hl
    | list =>
      refine ends_decode_list_of_conforms resolved hl hn hm fun place l hl hn hm ↦ ?_
      exact ih _ List.mem_cons_self hl hn hm
    | dict =>
      refine ends_decode_dict_of_conforms resolved hl hn hm fun place l hl hn hm ↦ ?_
      exact ih _ List.mem_cons_self hl hn hm
    | optional =>
      exact (Nullable.optional resolved).ends_decode_of_conforms (hdescribed _ List.mem_cons_self)
        hl hm fun hl hm ↦ ih _ List.mem_cons_self hl hn hm
    | orNone form member =>
      exact (Nullable.union resolved form member).ends_decode_of_conforms
        (hdescribed _ List.mem_cons_self) hl hm fun hl hm ↦ ih _ List.mem_cons_self hl hn hm
    | plain form member =>
      have hplain : r.Plain _ _ := ⟨resolved, form, member⟩
      rw [decode_plain hplain]
      exact ih _ List.mem_cons_self hl hn fun hi ↦ hm (.plain hplain hi)
    | tagged form types distinct =>
      subst types
      have htagged : r.Tagged r.IsDescribed parts := ⟨resolved, form, distinct, hdescribed⟩
      rw [Descriptor.ofMembers_of_nodup distinct] at hl
      refine htagged.ends_decode_of_conforms ?_ hl hn hm ?_
      · exact fun part hp ↦ hk _ _ (described part hp).isKnown levels place
      · exact fun part hp l hl hn hm ↦ ih part hp hl hn hm
    | @record _ s fields _ schema declared types =>
      subst types
      have hdeclares : r.Declares t s fields := ⟨resolved, schema, declared⟩
      refine hdeclares.ends_decode_of_conforms hl hn hm fun f hf place l hl hn hm ↦ ?_
      exact ih f.2 (List.mem_map_of_mem hf) hl hn hm

end Registry

/-! ## What engines read -/

namespace Engine

open Relation

variable {e e₁ e₂ : Engine} {place place' : Place} {t : HostType} {d : Descriptor} {l : Literal}
  {v : Value}

/-- What a type was described as is known, whatever was converted since. -/
theorem Reachable.known_of_describe (he : e.Reachable)
    (hd : (convert fun u ↦ u.describe place t).run e = (.ok d, e₁))
    (hc : ReflTransGen Converts e₁ e₂) :
    e₂.setup = e.setup ∧ e₂.Coherent ∧ e₂.session.known t d := by
  obtain ⟨s₁, hrun, rfl⟩ := run_convert_eq_ok.mp hd
  have hdescribes := Registry.describes_describe (r := e.setup.registry) (e.setup.levels place)
    place t
  have hs₁ : s₁.Coherent e.setup.registry := (hdescribes.within.of_run hrun he.coherent).1
  obtain ⟨hsetup, hgrows⟩ := converts_grows hc
  obtain ⟨hs₂, hknows⟩ := hgrows hs₁
  refine ⟨hsetup, ?_, hknows t d (hdescribes.remembered he.coherent hrun)⟩
  rwa [Coherent, hsetup]

theorem toValue_ne_ok_of_meets (he : e.Coherent) (hr : e.setup.registry.Builtin)
    (hm : e.setup.registry.Meets e.setup.registry.Obstructed t l) :
    (convert fun u ↦ u.toValue place t l).outcome e ≠ .ok v := by
  intro hv
  have hrefuses : Refuses e.setup.registry (e.setup.toValue place t l) :=
    hm.refuses hr (fun _ ↦ Setup.keeping_delegate) _ _
  exact of_outcome_eq_ok _ hrefuses he hv

/-- Members of a type that is known are known too, so no level is needed to describe them. -/
theorem exists_toValue_of_known (he : e.Coherent) (hr : e.setup.registry.Builtin)
    (hd : e.session.known t d) (hl : l.conforms d = true) (hn : l.nesting ≤ e.setup.levels place)
    (hm : ¬ e.setup.registry.Meets e.setup.registry.Obstructed t l) :
    ∃ v, (convert fun u ↦ u.toValue place t l).outcome e = .ok v := by
  have hends : Ends (· = e.session) (fun _ ↦ True) (fun _ ↦ False)
      (e.setup.toValue place t l) := by
    refine (he t d hd).ends_decode_of_conforms hr (fun t d hd levels place ↦ ?_) hl hn hm
    exact ends_describe_of_known hd levels place
  rcases outcome_of_ends (fun u ↦ u.toValue place t l) hends rfl with ⟨v, hv, -⟩ | ⟨_, -, hf⟩
  · exact ⟨v, hv⟩
  · exact hf.elim

/-- Once a type is described, a literal that conforms to its descriptor and does not nest too deep
is read as the type just if it is obstructed nowhere. -/
theorem exists_toValue_iff (he : e.Reachable) (hr : e.setup.registry.Standard)
    (hd : (convert fun u ↦ u.describe place t).run e = (.ok d, e₁))
    (hc : ReflTransGen Converts e₁ e₂) (hl : l.conforms d = true)
    (hn : l.nesting ≤ e.setup.levels place') :
    (∃ v, (convert fun u ↦ u.toValue place' t l).outcome e₂ = .ok v) ↔
      ¬ e.setup.registry.Meets e.setup.registry.Obstructed t l := by
  obtain ⟨hsetup, hcoherent, hknown⟩ := he.known_of_describe hd hc
  rw [← hsetup] at hr hn ⊢
  constructor
  · rintro ⟨v, hv⟩ hm
    exact toValue_ne_ok_of_meets hcoherent hr.builtin hm hv
  · exact exists_toValue_of_known hcoherent hr.builtin hknown hl hn

/-! ## Tagged literals and optional types -/

/-- An engine as it is started. -/
def freshEngine : Engine :=
  start Settings.defaults Registry.defaults ⟨Settings.sharedWorker⟩ (.inMemory "")

theorem reachable_freshEngine : freshEngine.Reachable := reachable_start _ _ _ _

theorem standard_freshEngine : freshEngine.setup.registry.Standard := Registry.standard_defaults

/-- An integer under its tag. -/
def taggedFive : Literal := .union (.primitive .integer) (.scalar (.integer 5))

/-- An integer, a text or none is read under its tag, an integer or none is not. -/
theorem exists_toValue_iff_taggedFive :
    ¬ Registry.defaults.Meets Registry.defaults.Obstructed
      (.optional (.union [.ofKind .integer, .ofKind .string])) taggedFive ∧
    ¬ ∃ v, (convert fun u ↦ u.toValue .root (.optional (.ofKind .integer)) taggedFive).outcome
      ((convert fun u ↦ u.describe .root (.optional (.ofKind .integer))).run freshEngine).2 =
        .ok v := by
  have he : freshEngine.Reachable := reachable_start _ _ _ _
  have hr : freshEngine.setup.registry.Standard := Registry.standard_defaults
  have hn : taggedFive.nesting ≤ freshEngine.setup.levels .root := by decide
  have hiff (t : HostType) (d : Descriptor)
      (hd : (convert fun u ↦ u.describe .root t).outcome freshEngine = .ok d)
      (hl : taggedFive.conforms d = true) :=
    exists_toValue_iff he hr (Prod.ext hd rfl) .refl hl hn
  constructor
  · exact (hiff _ _ rfl rfl).mp ⟨_, rfl⟩
  · intro hv
    have hdescribed : Registry.defaults.IsDescribed (.ofKind .integer) (.primitive .integer) :=
      Registry.Composes.primitive.isDescribed rfl (List.forall_mem_nil _)
    refine (hiff _ _ rfl rfl).mp hv (.here (.inr ?_))
    exact .intro (.optional rfl) hdescribed List.not_mem_nil

/-- An integer under its tag conforms to the descriptor of an integer or none, and there is no union
with tags for it to be ambiguous in. -/
theorem not_exists_toValue :
    ¬ ∀ (e e₁ : Engine) (t : HostType) (d : Descriptor) (l : Literal), e.Reachable →
      e.setup.registry.Standard → (convert fun u ↦ u.describe .root t).run e = (.ok d, e₁) →
      l.conforms d = true → l.nesting ≤ e.setup.levels .root →
      ¬ e.setup.registry.Meets e.setup.registry.Ambiguous t l →
      ∃ v, (convert fun u ↦ u.toValue .root t l).outcome e₁ = .ok v := by
  intro h
  have hread := h freshEngine _ (.optional (.ofKind .integer)) _ taggedFive
    (reachable_start _ _ _ _) Registry.standard_defaults (Prod.ext rfl rfl) rfl (by decide) ?_
  · obtain ⟨v, hv⟩ := hread
    cases hv
  · intro hm
    cases hm with
    | here holds => cases holds
    | present nullable _ inside =>
      cases nullable
      cases inside with
      | here holds => cases holds
      | present nullable => cases nullable

end Engine

end Interchange
