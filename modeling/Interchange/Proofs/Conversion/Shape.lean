import Interchange.Proofs.Conversion.Snags

/-!
# The shape of values

`Shaped` says which values have the shape of a host type, with a rule for each converter of data,
references and generic shapes.  For a value without streams, checking decides this: the value passes
if it has the shape, and it is rejected if it has not, unless levels run out before that is known.

So a value of the right shape fails its check for want of levels only.  If all in it is data, the
same goes for the values within that are encoded by their types, by which members of unions they may
be encoded as well, and there is nothing else in it to be refused.
-/

namespace Interchange

/-! ## Values of data -/

/-- There is nothing in a value but data: no stream and no foreign value. -/
structure Value.IsData (v : Value) : Prop where
  ordered : v.Ordered
  streamFree : v.StreamFree
  native : v.foreignKeys = []

namespace Value

variable {vs : List Value} {es : List (String × Value)} {name : Option String}

theorem isData_scalar (s : Scalar) : (scalar s).IsData := ⟨trivial, trivial, rfl⟩

theorem isData_blob (b : Blob) : (blob b).IsData := ⟨trivial, trivial, rfl⟩

theorem isData_list : (list vs).IsData ↔ ∀ v ∈ vs, v.IsData := by
  constructor
  · rintro ⟨ho, hs, hn⟩ v hv
    exact ⟨orderedItems_iff.mp ho v hv, streamFreeItems_iff.mp hs v hv, itemKeys_eq_nil.mp hn v hv⟩
  · intro h
    refine ⟨orderedItems_iff.mpr ?_, streamFreeItems_iff.mpr ?_, itemKeys_eq_nil.mpr ?_⟩
    · exact fun v hv ↦ (h v hv).ordered
    · exact fun v hv ↦ (h v hv).streamFree
    · exact fun v hv ↦ (h v hv).native

theorem isData_map : (map es).IsData ↔ Entries.Ordered es ∧ ∀ e ∈ es, e.2.IsData := by
  constructor
  · rintro ⟨⟨ho, ho'⟩, hs, hn⟩
    refine ⟨ho, fun e he ↦ ⟨orderedEntries_iff.mp ho' e he, streamFreeEntries_iff.mp hs e he, ?_⟩⟩
    exact entryKeys_eq_nil.mp hn e he
  · rintro ⟨ho, h⟩
    refine ⟨⟨ho, orderedEntries_iff.mpr ?_⟩, streamFreeEntries_iff.mpr ?_,
      entryKeys_eq_nil.mpr ?_⟩
    · exact fun e he ↦ (h e he).ordered
    · exact fun e he ↦ (h e he).streamFree
    · exact fun e he ↦ (h e he).native

theorem isData_record : (record name es).IsData ↔ (map es).IsData :=
  ⟨fun ⟨ho, hs, hn⟩ ↦ ⟨ho, hs, hn⟩, fun ⟨ho, hs, hn⟩ ↦ ⟨ho, hs, hn⟩⟩

end Value

namespace Registry

variable {r : Registry} {known : Knowledge} {levels : Nat} {place : Place} {seg : Segment}
  {t inner : HostType} {d : Descriptor} {members : List HostType} {s : Schema} {v : Value}
  {f : Fault}

/-! ## Shapes -/

/-- A record fits a schema as a whole: its type is that of the schema or has it as an ancestor, no
declared field is missing, and a closed schema has all its fields. -/
structure Fits (r : Registry) (s : Schema) (name : Option String) (fields : List (String × Value)) :
    Prop where
  subtype : ∀ n, name = some n → r.isSubtype n s.name = true
  complete : ∀ f ∈ s.fields, (Entries.get? f.1 fields).isSome = true
  closed : s.isOpen = false → ∀ field ∈ fields, (s.get? field.1).isSome = true

mutual

/-- A value has the shape of a host type. -/
inductive Shaped (r : Registry) : HostType → Value → Prop
  | intro {c : Converter} {t : HostType} {v : Value} (resolved : r.resolve t = .ok c)
      (shaped : ShapedBy r c t v) : Shaped r t v

/-- A value has the shape that a converter gives to the values of a host type. -/
inductive ShapedBy (r : Registry) : Converter → HostType → Value → Prop
  | primitive {kind : Kind} {t : HostType} {s : Scalar} (read : (s.as? kind).isSome = true) :
      ShapedBy r (.primitive kind) t (.scalar s)
  | reference {name : String} {t : HostType} {b : Blob} :
      ShapedBy r (.reference name b.type.extent) t (.blob b)
  | list {t : HostType} {vs : List Value} (each : ∀ v ∈ vs, Shaped r t v) :
      ShapedBy r .sequence (.list t) (.list vs)
  | dict {t : HostType} {es : List (String × Value)} (each : ∀ e ∈ es, Shaped r t e.2) :
      ShapedBy r .mapping (.dict t) (.map es)
  | optional {t : HostType} {v : Value} (present : v.isNone = false → Shaped r t v) :
      ShapedBy r .optional (.optional t) v
  | plain {members : List HostType} {t : HostType} {v : Value}
      (form : HostType.unionForm members = .plain) (member : HostType.valued? members = some t)
      (shaped : Shaped r t v) : ShapedBy r .union (.union members) v
  | orNone {members : List HostType} {t : HostType} {v : Value}
      (form : HostType.unionForm members = .optional) (member : HostType.valued? members = some t)
      (present : v.isNone = false → Shaped r t v) : ShapedBy r .union (.union members) v
  | tagged {members : List HostType} {t : HostType} {v : Value}
      (form : HostType.unionForm members = .tagged) (mem : t ∈ members) (shaped : Shaped r t v) :
      ShapedBy r .union (.union members) v
  | record {t : HostType} {s : Schema} {name : Option String} {fields : List (String × Value)}
      (schema : r.schemaOf t = .ok s) (fits : r.Fits s name fields)
      (declared : ∀ f ∈ s.fields, ∀ v, Entries.get? f.1 fields = some v → Shaped r f.2 v) :
      ShapedBy r .record t (.record name fields)

end

theorem shaped_iff {c : Converter} (resolved : r.resolve t = .ok c) :
    r.Shaped t v ↔ r.ShapedBy c t v := by
  constructor
  · rintro ⟨resolved', h⟩
    cases resolved.symm.trans resolved'
    exact h
  · exact .intro resolved

theorem shaped_list {vs : List Value} (resolved : r.resolve (.list t) = .ok .sequence) :
    r.Shaped (.list t) (.list vs) ↔ ∀ v ∈ vs, r.Shaped t v := by
  rw [shaped_iff resolved]
  constructor
  · rintro ⟨⟩
    assumption
  · exact .list

theorem shaped_dict {es : List (String × Value)} (resolved : r.resolve (.dict t) = .ok .mapping) :
    r.Shaped (.dict t) (.map es) ↔ ∀ e ∈ es, r.Shaped t e.2 := by
  rw [shaped_iff resolved]
  constructor
  · rintro ⟨⟩
    assumption
  · exact .dict

theorem shaped_nullable (h : r.Nullable t inner) :
    r.Shaped t v ↔ (v.isNone = false → r.Shaped inner v) := by
  cases h with
  | optional resolved =>
    rw [shaped_iff resolved]
    constructor
    · rintro ⟨⟩
      assumption
    · exact .optional
  | union resolved form member =>
    rw [shaped_iff resolved]
    constructor
    · intro h
      cases h with
      | orNone _ member' present =>
        cases member.symm.trans member'
        exact present
      | plain form' | tagged form' => cases form.symm.trans form'
    · exact .orNone form member

theorem shaped_plain (h : r.Plain members t) : r.Shaped (.union members) v ↔ r.Shaped t v := by
  rw [shaped_iff h.resolved]
  constructor
  · intro h'
    cases h' with
    | plain _ member shaped =>
      cases h.member.symm.trans member
      exact shaped
    | orNone form | tagged form => cases h.form.symm.trans form
  · exact .plain h.form h.member

theorem shaped_tagged {parts : List (HostType × Descriptor)} (h : r.Tagged known parts) :
    r.Shaped (.union (parts.map (·.1))) v ↔ ∃ part ∈ parts, r.Shaped part.1 v := by
  rw [shaped_iff h.resolved]
  constructor
  · intro h'
    cases h' with
    | tagged _ mem shaped =>
      obtain ⟨part, hpart, rfl⟩ := List.mem_map.mp mem
      exact ⟨part, hpart, shaped⟩
    | plain form | orNone form => cases h.form.symm.trans form
  · rintro ⟨part, hpart, shaped⟩
    exact .tagged h.form (List.mem_map_of_mem hpart) shaped

theorem shaped_record {name : Option String} {fields : List (String × Value)}
    (resolved : r.resolve t = .ok .record) (schema : r.schemaOf t = .ok s) :
    r.Shaped t (.record name fields) ↔ r.Fits s name fields ∧
      ∀ f ∈ s.fields, ∀ v, Entries.get? f.1 fields = some v → r.Shaped f.2 v := by
  rw [shaped_iff resolved]
  constructor
  · intro h
    cases h with
    | record schema' fits declared =>
      cases schema.symm.trans schema'
      exact ⟨fits, declared⟩
  · rintro ⟨fits, declared⟩
    exact .record schema fits declared

/-! ## Checks that decide -/

/-- A check says whether something holds of a value, if the levels suffice to find out. -/
inductive Decides (p : Prop) : Except Fault Unit → Prop
  | accepts (holds : p) : Decides p (.ok ())
  | rejects {e : Fault} (fails : ¬ p) (rejection : e.isRejection = true) : Decides p (.error e)
  | tooDeep (path : Path) : Decides p (.error (.nestingLimit path))

theorem Decides.congr {p q : Prop} {x : Except Fault Unit} (h : Decides p x) (hpq : p ↔ q) :
    Decides q x := by
  rwa [← propext hpq]

theorem Decides.holds {p : Prop} (h : Decides p (.ok ())) : p := by
  cases h
  assumption

/-- What holds fails its check for want of levels only. -/
theorem Decides.nestingLimit {p : Prop} (h : Decides p (.error f)) (hp : p) :
    ∃ path, f = .nestingLimit path := by
  cases h with
  | rejects fails => exact absurd hp fails
  | tooDeep path => exact ⟨path, rfl⟩

theorem Decides.ok_or_nestingLimit {p : Prop} {x : Except Fault Unit} (h : Decides p x) (hp : p) :
    x = .ok () ∨ ∃ path, x = .error (.nestingLimit path) := by
  cases h with
  | accepts => exact .inl rfl
  | rejects fails => exact absurd hp fails
  | tooDeep path => exact .inr ⟨path, rfl⟩

section

variable {α : Type} {check : α → Except Fault Unit} {P : α → Prop} {as : List α}

theorem decides_forM (h : ∀ a ∈ as, Decides (P a) (check a)) :
    Decides (∀ a ∈ as, P a) (as.forM check) := by
  induction as with
  | nil => exact .accepts (List.forall_mem_nil _)
  | cons a as ih =>
    obtain ⟨ha, has⟩ := List.forall_mem_cons.mp h
    show Decides _ (check a >>= fun _ ↦ as.forM check)
    generalize check a = x at ha ⊢
    cases ha with
    | accepts holds => exact (ih has).congr (by simp [holds])
    | rejects fails rejection => exact .rejects (fun h ↦ fails (h a List.mem_cons_self)) rejection
    | tooDeep path => exact .tooDeep path

theorem decides_firstAccepting {otherwise : Fault} (ho : otherwise.isRejection = true)
    (h : ∀ a ∈ as, Decides (P a) (check a)) :
    Decides (∃ a ∈ as, P a) ((firstAccepting otherwise check as).map fun _ ↦ ()) := by
  induction as with
  | nil => exact .rejects (by simp) ho
  | cons a as ih =>
    obtain ⟨ha, has⟩ := List.forall_mem_cons.mp h
    unfold firstAccepting
    generalize check a = x at ha ⊢
    cases ha with
    | accepts holds => exact .accepts ⟨a, List.mem_cons_self, holds⟩
    | rejects fails rejection =>
      simp only [rejection, if_true]
      exact (ih has).congr (by simp [fails])
    | tooDeep path => exact .tooDeep path

end

theorem decides_checkIn {p : Prop}
    (h : ∀ n, levels = n + 1 → Decides p (r.check n (place.child seg) t v)) :
    Decides p (r.checkIn levels place seg t v) := by
  cases levels with
  | zero => exact .tooDeep _
  | succ n => exact h n rfl

/-- Whether a record fits a schema is found out at once. -/
theorem fieldsFor_record (r : Registry) (place : Place) (s : Schema) (name : Option String)
    (fields : List (String × Value)) :
    (r.Fits s name fields ∧ r.fieldsFor place s (.record name fields) = .ok fields) ∨
      ¬ r.Fits s name fields ∧
        ∃ e, r.fieldsFor place s (.record name fields) = .error e ∧ e.isRejection = true := by
  simp only [fieldsFor]
  split
  · next hsubtype =>
    refine .inr ⟨fun h ↦ ?_, _, rfl, rfl⟩
    obtain ⟨n, hn, hfalse⟩ := Option.map_eq_some_iff.mp hsubtype
    cases (h.subtype n hn).symm.trans hfalse
  · next hsubtype =>
    split
    · next missing _ hfind =>
      have hnone := List.find?_some hfind
      refine .inr ⟨fun h ↦ ?_, _, rfl, rfl⟩
      have hsome := h.complete _ (List.mem_of_find?_eq_some hfind)
      rw [Option.isNone_iff_eq_none.mp hnone] at hsome
      cases hsome
    · next hmissing =>
      split
      · next extra _ hfind =>
        have hextra := List.find?_some hfind
        rw [Bool.and_eq_true, Bool.not_eq_true', Option.isNone_iff_eq_none] at hextra
        refine .inr ⟨fun h ↦ ?_, _, rfl, rfl⟩
        have hsome := h.closed hextra.1 _ (List.mem_of_find?_eq_some hfind)
        rw [hextra.2] at hsome
        cases hsome
      · next hextra =>
        refine .inl ⟨⟨?_, ?_, ?_⟩, rfl⟩
        · rintro n rfl
          simpa using hsubtype
        · intro f hf
          simpa only [Bool.not_eq_true, Option.isNone_eq_false_iff] using
            List.find?_eq_none.mp hmissing f hf
        · intro hclosed field hfield
          simpa [hclosed, Option.isSome_iff_ne_none] using
            List.find?_eq_none.mp hextra field hfield

theorem decides_check_list (resolved : r.resolve (.list t) = .ok .sequence) (hv : v.StreamFree)
    (h : ∀ n, levels = n + 1 → ∀ i w, w.StreamFree →
      Decides (r.Shaped t w) (r.check n (place.child (.index i)) t w)) :
    Decides (r.Shaped (.list t) v) (r.check levels place (.list t) v) := by
  cases v with
  | list vs =>
    have hv := Value.streamFreeItems_iff.mp hv
    have hitems : vs.zipIdx.map (·.1) = vs := List.zipIdx_map_fst 0 vs
    rw [check_list resolved]
    refine Decides.congr (decides_forM (P := fun item ↦ r.Shaped t item.1) fun item hitem ↦ ?_) ?_
    · have hmem : item.1 ∈ vs := List.fst_mem_of_mem_zipIdx hitem
      exact decides_checkIn fun n hn ↦ h n hn _ _ (hv _ hmem)
    · rw [shaped_list resolved]
      conv => rhs; rw [← hitems, List.forall_mem_map]
  | stream => exact hv.elim
  | _ =>
    rw [check_of_resolve resolved]
    refine .rejects ?_ rfl
    rw [shaped_iff resolved]
    rintro ⟨⟩

theorem decides_check_dict (resolved : r.resolve (.dict t) = .ok .mapping) (hv : v.StreamFree)
    (h : ∀ n, levels = n + 1 → ∀ key w, w.StreamFree →
      Decides (r.Shaped t w) (r.check n (place.child (.key key)) t w)) :
    Decides (r.Shaped (.dict t) v) (r.check levels place (.dict t) v) := by
  cases v with
  | map es =>
    have hv := Value.streamFreeEntries_iff.mp hv
    rw [check_dict resolved]
    refine Decides.congr (decides_forM fun e he ↦ ?_) (shaped_dict resolved).symm
    exact decides_checkIn fun n hn ↦ h n hn e.1 e.2 (hv e he)
  | _ =>
    rw [check_of_resolve resolved]
    refine .rejects ?_ rfl
    rw [shaped_iff resolved]
    rintro ⟨⟩

theorem decides_check_nullable (hn : r.Nullable t inner)
    (h : Decides (r.Shaped inner v) (r.check levels place inner v)) :
    Decides (r.Shaped t v) (r.check levels place t v) := by
  rw [check_nullable hn]
  cases hv : v.isNone with
  | true => exact .accepts ((shaped_nullable hn).mpr fun hsome ↦ by simp [hv] at hsome)
  | false => exact h.congr (by simp [shaped_nullable hn, hv])

theorem decides_check_record (resolved : r.resolve t = .ok .record)
    (schema : r.schemaOf t = .ok s) (hv : v.StreamFree)
    (h : ∀ n, levels = n + 1 → ∀ f ∈ s.fields, ∀ w, w.StreamFree →
      Decides (r.Shaped f.2 w) (r.check n (place.child (.field f.1)) f.2 w)) :
    Decides (r.Shaped t v) (r.check levels place t v) := by
  rw [check_record resolved schema]
  cases v with
  | record name fields =>
    have hv := Value.streamFreeEntries_iff.mp hv
    rcases r.fieldsFor_record place s name fields with
      ⟨hfits, hfields⟩ | ⟨hfits, e, hfields, hrejection⟩
    · rw [hfields]
      have hall : Decides (∀ f ∈ s.fields, ∀ w, Entries.get? f.1 fields = some w →
          r.Shaped f.2 w) (s.fields.forM (r.checkField levels place fields)) := by
        refine decides_forM fun f hf ↦ ?_
        unfold checkField
        cases hget : Entries.get? f.1 fields with
        | none =>
          refine .accepts ?_
          rintro w ⟨⟩
        | some w =>
          have hw := hv _ (Entries.mem_of_get? hget)
          exact (decides_checkIn fun n hn ↦ h n hn f hf w hw).congr (by simp)
      exact hall.congr (by simp [shaped_record resolved schema, hfits])
    · rw [hfields]
      exact .rejects (fun h ↦ hfits ((shaped_record resolved schema).mp h).1) hrejection
  | _ =>
    refine .rejects ?_ rfl
    rw [shaped_iff resolved]
    rintro ⟨⟩

/-- Checking a value without streams decides whether it has the shape of a type that is
described. -/
theorem Described.decides_check (h : r.Described known t d) (hr : r.Builtin) (hv : v.StreamFree) :
    Decides (r.Shaped t v) (r.check levels place t v) := by
  induction h generalizing levels place v with
  | @intro c parts t d _ resolved composed described ih =>
    cases composed with
    | jsonLines | plugin => cases hr.resolve resolved
    | @primitive _ kind =>
      rw [check_of_resolve resolved, shaped_iff resolved]
      cases v with
      | scalar s =>
        dsimp only [checkBy]
        split
        · next read => exact .accepts (.primitive read)
        · next read =>
          refine .rejects ?_ rfl
          rintro ⟨read'⟩
          exact read read'
      | _ =>
        refine .rejects ?_ rfl
        rintro ⟨⟩
    | @reference _ name extent =>
      rw [check_of_resolve resolved, shaped_iff resolved]
      cases v with
      | blob b =>
        dsimp only [checkBy]
        split
        · next hextent =>
          subst hextent
          exact .accepts .reference
        · next hextent =>
          refine .rejects ?_ rfl
          rintro ⟨⟩
          exact hextent rfl
      | _ =>
        refine .rejects ?_ rfl
        rintro ⟨⟩
    | list =>
      refine decides_check_list resolved hv fun n _ i w hw ↦ ?_
      exact ih _ List.mem_cons_self hw
    | dict =>
      refine decides_check_dict resolved hv fun n _ key w hw ↦ ?_
      exact ih _ List.mem_cons_self hw
    | optional => exact decides_check_nullable (.optional resolved) (ih _ List.mem_cons_self hv)
    | orNone form member =>
      exact decides_check_nullable (.union resolved form member) (ih _ List.mem_cons_self hv)
    | plain form member =>
      have hplain : r.Plain _ _ := ⟨resolved, form, member⟩
      rw [check_plain hplain]
      exact (ih _ List.mem_cons_self hv).congr (shaped_plain hplain).symm
    | tagged form types distinct =>
      subst types
      have htagged : r.Tagged known parts :=
        ⟨resolved, form, distinct, fun part hp ↦ (described part hp).isKnown⟩
      rw [check_tagged htagged]
      refine Decides.congr (decides_firstAccepting rfl fun part hp ↦ ?_)
        (shaped_tagged htagged).symm
      exact ih part hp hv
    | @record _ s fields _ schema declared types =>
      subst types
      refine decides_check_record resolved schema hv fun n _ f hf w hw ↦ ?_
      rw [declared] at hf
      obtain ⟨g, hg, rfl⟩ := List.mem_map.mp hf
      exact ih g.2 (List.mem_map_of_mem hg) hw

/-! ## Faults in data -/

/-- Nothing in data is refused that its check does not see, unless levels run out. -/
theorem Snag.nestingLimit (h : r.Snag levels place t v f) (hr : r.Builtin) (hv : v.IsData) :
    ∃ path, f = .nestingLimit path := by
  cases h with
  | nothing resolved => cases hr.resolve resolved
  | noLevel => exact ⟨_, rfl⟩
  | shapeless _ _ mem _ held =>
    have hfields := (Value.isData_map.mp (Value.isData_record.mp hv)).2
    rw [(hfields _ mem).native] at held
    cases held

/-- A fault in a value of a type or none is its own or, if there is a value, one of the type. -/
theorem Nullable.faults (hn : r.Nullable t inner) (hs : r.Shaped t v)
    (hf : r.Faults levels place t v f) :
    (r.Snag levels place t v f ∨ r.check levels place t v = .error f) ∨
      r.Shaped inner v ∧ r.Faults levels place inner v f := by
  refine (hf.of_nullable hn).imp_right ?_
  rintro ⟨hsome, inside⟩
  exact ⟨(shaped_nullable hn).mp hs hsome, inside⟩

/-- All faults in data that has the shape of a type come from a want of levels. -/
theorem Described.faults (h : r.Described known t d) (hr : r.Builtin) (hs : r.Shaped t v)
    (hv : v.IsData) (hf : r.Faults levels place t v f) : ∃ path, f = .nestingLimit path := by
  induction h generalizing levels place v with
  | @intro c parts t d isKnown resolved composed described ih =>
    have hhere : r.Snag levels place t v f ∨ r.check levels place t v = .error f →
        ∃ path, f = .nestingLimit path := by
      rintro (hsnag | hcheck)
      · exact hsnag.nestingLimit hr hv
      · have ht : r.Described known t d := .intro isKnown resolved composed described
        have hdecides : Decides (r.Shaped t v) (r.check levels place t v) :=
          ht.decides_check hr hv.streamFree
        rw [hcheck] at hdecides
        exact hdecides.nestingLimit hs
    cases composed with
    | jsonLines | plugin => cases hr.resolve resolved
    | primitive | reference => exact hhere (hf.of_leaf resolved rfl)
    | list =>
      cases hf with
      | here holds => exact hhere holds
      | item _ mem inside =>
        have hmem := List.fst_mem_of_mem_zipIdx mem
        exact ih _ List.mem_cons_self ((shaped_list resolved).mp hs _ hmem)
          (Value.isData_list.mp hv _ hmem) inside
      | field resolved' => cases resolved.symm.trans resolved'
      | present nullable => cases nullable
    | dict =>
      cases hf with
      | here holds => exact hhere holds
      | entry _ mem inside =>
        exact ih _ List.mem_cons_self ((shaped_dict resolved).mp hs _ mem)
          ((Value.isData_map.mp hv).2 _ mem) inside
      | field resolved' => cases resolved.symm.trans resolved'
      | present nullable => cases nullable
    | optional =>
      rcases (Nullable.optional resolved).faults hs hf with holds | ⟨hs, inside⟩
      · exact hhere holds
      · exact ih _ List.mem_cons_self hs hv inside
    | orNone form member =>
      rcases (Nullable.union resolved form member).faults hs hf with holds | ⟨hs, inside⟩
      · exact hhere holds
      · exact ih _ List.mem_cons_self hs hv inside
    | plain form member =>
      have hplain : r.Plain _ _ := ⟨resolved, form, member⟩
      rcases hf.of_plain hplain with holds | inside
      · exact hhere holds
      · exact ih _ List.mem_cons_self ((shaped_plain hplain).mp hs) hv inside
    | tagged form types =>
      subst types
      rcases hf.of_tagged resolved form with holds | ⟨u, haccepted, inside⟩
      · exact hhere holds
      · -- the member that accepts the value need not be the one whose shape it was known to have
        obtain ⟨part, hpart, rfl⟩ := List.mem_map.mp (List.mem_of_find?_eq_some haccepted)
        have hdecides : Decides (r.Shaped part.1 v) (r.check levels place part.1 v) :=
          (described part hpart).decides_check hr hv.streamFree
        have haccepts := List.find?_some haccepted
        rw [check_of_isOk haccepts] at hdecides
        exact ih part hpart hdecides.holds hv inside
    | @record _ s fields _ schema declared types =>
      subst types
      cases hf with
      | here holds => exact hhere holds
      | field _ schema' mem found inside =>
        cases schema.symm.trans schema'
        have hfields := (Value.isData_map.mp (Value.isData_record.mp hv)).2
        have hshaped := ((shaped_record resolved schema).mp hs).2 _ mem _ found
        rw [declared] at mem
        obtain ⟨g, hg, rfl⟩ := List.mem_map.mp mem
        exact ih g.2 (List.mem_map_of_mem hg) hshaped (hfields _ (Entries.mem_of_get? found)) inside
      | item resolved' | entry resolved' | member resolved' => cases resolved.symm.trans resolved'
      | plain plain => cases resolved.symm.trans plain.resolved
      | present nullable =>
        cases nullable with
        | optional resolved' | union resolved' => cases resolved.symm.trans resolved'

end Registry

end Interchange
