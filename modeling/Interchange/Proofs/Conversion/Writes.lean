import Interchange.Proofs.Conversion.Keeping
import Interchange.Proofs.Conversion.Untyped
import Interchange.Proofs.Entries
import Interchange.Proofs.Registry.Standard

/-!
# What is written for a value

`Writes` says what literal is written for a value as a host type, for registries of built-in
converters: one rule for each way in which a value is encoded, with what is known about the types
that are involved.  Whatever encoding returns is written by these rules, so what holds of all
literals that are produced is shown by induction on them.
-/

namespace Interchange

open Session Attempt

namespace Registry

/-- A type whose values are those of another one and the absent value, which carry no tag. -/
inductive Nullable (r : Registry) : HostType → HostType → Prop
  | optional {t : HostType} (resolved : r.resolve (.optional t) = .ok .optional) :
      Nullable r (.optional t) t
  | union {members : List HostType} {t : HostType}
      (resolved : r.resolve (.union members) = .ok .union)
      (form : HostType.unionForm members = .optional)
      (member : HostType.valued? members = some t) : Nullable r (.union members) t

/-- A union of one type, which is that type. -/
structure Plain (r : Registry) (members : List HostType) (t : HostType) : Prop where
  resolved : r.resolve (.union members) = .ok .union
  form : HostType.unionForm members = .plain
  member : HostType.valued? members = some t

/-- The members of a tagged union and how they are described. -/
structure Tagged (r : Registry) (known : Knowledge) (parts : List (HostType × Descriptor)) :
    Prop where
  resolved : r.resolve (.union (parts.map (·.1))) = .ok .union
  form : HostType.unionForm (parts.map (·.1)) = .tagged
  distinct : (parts.map (·.2)).Nodup
  known : ∀ part ∈ parts, known part.1 part.2

/-- The fields of a record type and how they are described. -/
structure Declares (r : Registry) (t : HostType) (s : Schema)
    (declared : List (String × HostType × Descriptor)) : Prop where
  resolved : r.resolve t = .ok .record
  schema : r.schemaOf t = .ok s
  fields : s.fields = declared.map fun f ↦ (f.1, f.2.1)

/-- The first member that accepts a value. -/
def accepting? (r : Registry) (levels : Nat) (place : Place) (v : Value) {α : Type}
    (parts : List (HostType × α)) : Option (HostType × α) :=
  parts.find? fun part ↦ (r.check levels place part.1 v).isOk

/-- The literal that is written for a value as a host type that is described in a way. -/
inductive Writes (r : Registry) (known : Knowledge) :
    Nat → Place → HostType → Descriptor → Value → Literal → Prop
  | primitive {levels : Nat} {place : Place} {t : HostType} {kind : Kind} {s s' : Scalar}
      (resolved : r.resolve t = .ok (.primitive kind)) (read : s.as? kind = some s') :
      Writes r known levels place t (.primitive kind) (.scalar s) (.scalar s')
  | reference {levels : Nat} {place : Place} {t : HostType} {name : String} {b : Blob}
      (resolved : r.resolve t = .ok (.reference name b.type.extent)) :
      Writes r known levels place t (.blob ⟨"", b.type.extent⟩) (.blob b) (.blob b)
  | list {levels : Nat} {place : Place} {t : HostType} {d : Descriptor}
      {items : List (Value × Literal)} (resolved : r.resolve (.list t) = .ok .sequence)
      (room : items ≠ [] → 0 < levels)
      (written : ∀ item ∈ items.zipIdx,
        Writes r known (levels - 1) (place.child (.index item.2)) t d item.1.1 item.1.2) :
      Writes r known levels place (.list t) (.collection d) (.list (items.map (·.1)))
        (.collection (items.map (·.2)))
  | stream {levels : Nat} {place : Place} {t : HostType} {d : Descriptor} {id : Nat}
      {items : List (Value × Literal)} (resolved : r.resolve (.list t) = .ok .sequence)
      (written : ∀ item ∈ items.zipIdx,
        Writes r known (levels - 1) (place.child (.index item.2)) t d item.1.1 item.1.2) :
      Writes r known levels place (.list t) (.collection d) (.stream id)
        (.collection (items.map (·.2)))
  | dict {levels : Nat} {place : Place} {t : HostType} {d : Descriptor}
      {entries : List (String × Value × Literal)} (resolved : r.resolve (.dict t) = .ok .mapping)
      (room : entries ≠ [] → 0 < levels)
      (written : ∀ e ∈ entries,
        Writes r known (levels - 1) (place.child (.key e.1)) t d e.2.1 e.2.2) :
      Writes r known levels place (.dict t) (.mapping d) (.map (entries.map fun e ↦ (e.1, e.2.1)))
        (.mapping (entries.map fun e ↦ (e.1, e.2.2)))
  | absent {levels : Nat} {place : Place} {t inner : HostType} {d : Descriptor}
      (nullable : r.Nullable t inner) : Writes r known levels place t d.orNone .none .none
  | present {levels : Nat} {place : Place} {t inner : HostType} {d : Descriptor} {v : Value}
      {l : Literal} (nullable : r.Nullable t inner) (isSome : v.isNone = false)
      (written : Writes r known levels place inner d v l) :
      Writes r known levels place t d.orNone v l
  | plain {levels : Nat} {place : Place} {members : List HostType} {t : HostType} {d : Descriptor}
      {v : Value} {l : Literal} (plain : r.Plain members t)
      (written : Writes r known levels place t d v l) :
      Writes r known levels place (.union members) d v l
  | tagged {levels : Nat} {place : Place} {parts : List (HostType × Descriptor)}
      {member : HostType × Descriptor} {v : Value} {l : Literal} (tagged : r.Tagged known parts)
      (accepted : r.accepting? levels place v parts = some member)
      (written : Writes r known levels place member.1 member.2 v l) :
      Writes r known levels place (.union (parts.map (·.1)))
        (.ofMembers (parts.map (·.2)) Descriptor.defaultTagField) v (.union member.2 l)
  | record {levels : Nat} {place : Place} {t : HostType} {s : Schema}
      {declared : List (String × HostType × Descriptor)} {name : Option String}
      {fields : List (String × Value × Literal)} (declares : r.Declares t s declared)
      (complete : ∀ f ∈ declared, ∃ field ∈ fields, field.1 = f.1)
      (closed : s.isOpen = false → ∀ field ∈ fields, (s.get? field.1).isSome)
      (room : fields ≠ [] → 0 < levels)
      (written : ∀ field ∈ fields, ∀ t d, declared.lookup field.1 = some (t, d) →
        Writes r known (levels - 1) (place.child (.field field.1)) t d field.2.1 field.2.2)
      (undeclared : ∀ field ∈ fields, s.get? field.1 = none → field.2.1.StreamFree →
        field.2.2.value = field.2.1.eraseNames) :
      Writes r known levels place t (.record (declared.map fun f ↦ (f.1, f.2.2)))
        (.record name (fields.map fun f ↦ (f.1, f.2.1)))
        (.record (fields.map fun f ↦ (f.1, f.2.2)))

/-! ## Members that accept -/

section

variable {r : Registry} {levels : Nat} {place : Place} {v : Value} {α β : Type}

theorem accepting?_of_firstAccepting {otherwise : Fault} {parts : List (HostType × α)}
    {part : HostType × α}
    (h : firstAccepting otherwise (fun p ↦ r.check levels place p.1 v) parts = .ok part) :
    r.accepting? levels place v parts = some part := by
  induction parts with
  | nil => cases h
  | cons p parts ih =>
    unfold firstAccepting at h
    cases hc : r.check levels place p.1 v with
    | ok _ =>
      rw [hc] at h
      cases h
      simp [accepting?, hc, Except.isOk, Except.toBool]
    | error e =>
      simp only [hc] at h
      split at h
      · simpa [accepting?, hc, Except.isOk, Except.toBool] using ih h
      · cases h

/-- Which member accepts a value does not depend on what the members come with. -/
theorem accepting?_map (f : HostType × α → β) (parts : List (HostType × α)) :
    r.accepting? levels place v (parts.map fun p ↦ (p.1, f p)) =
      (r.accepting? levels place v parts).map fun p ↦ (p.1, f p) := by
  rw [accepting?, accepting?, List.find?_map]
  rfl

end

end Registry

/-! ## What is encoded -/

/-- A coherent session that remembers all that is known. -/
structure Session.Recalls (r : Registry) (known : Knowledge) (s : Session) : Prop where
  coherent : s.Coherent r
  knows : ∀ t d, known t d → s.known t d

section

variable {r : Registry} {known : Knowledge} {s s' : Session} {t : HostType} {d : Descriptor}
  {levels : Nat} {place : Place} {worker : Option Delegate}

theorem Session.Recalls.grows (h : s.Recalls r known) (hg : Grows r s s') : s'.Recalls r known := by
  obtain ⟨hcoherent, hknows⟩ := hg h.coherent
  exact ⟨hcoherent, fun t d hd ↦ hknows t d (h.knows t d hd)⟩

theorem enter_below_eq_ok {α : Type} {work : Nat → α} {seg : Segment} {p : α × Place} :
    enter (below work levels) place seg = .ok p ↔
      0 < levels ∧ p = (work (levels - 1), place.child seg) := by
  cases levels with
  | zero => simp [below]
  | succ levels => simp [below, eq_comm]

/-- What encoding a type that is described in a way returns is written by the rules. -/
def EncodesAsWritten (r : Registry) (known : Knowledge) (worker : Option Delegate) (t : HostType)
    (d : Descriptor) : Prop :=
  ∀ ⦃levels place v l s s'⦄, s.Recalls r known →
    (r.encode worker levels place t v d).run s = (.ok l, s') → r.Writes known levels place t d v l

/-- Where a value is encoded first, its literal is written by the rules and the session goes on
remembering. -/
theorem encode_bind_eq_ok (hw : ∀ ask, worker = some ask → ask.Keeping r)
    (h : EncodesAsWritten r known worker t d) (hs : s.Recalls r known) {α : Type} {v : Value}
    {k : Literal → Conversion α} {a : α}
    (hrun : (r.encode worker levels place t v d >>= k).run s = (.ok a, s')) :
    ∃ l s₁, r.Writes known levels place t d v l ∧ s₁.Recalls r known ∧
      (k l).run s₁ = (.ok a, s') := by
  obtain ⟨l, s₁, hl, hk⟩ := run_bind_eq_ok.mp hrun
  exact ⟨l, s₁, h hs hl, hs.grows ((Registry.keeps_encode hw _ _ _ _ _).of_run hl), hk⟩

theorem encodeItems_ok (hw : ∀ ask, worker = some ask → ask.Keeping r)
    (h : EncodesAsWritten r known worker t d) (hs : s.Recalls r known) {i : Nat} {vs : List Value}
    {ls : List Literal}
    (hrun : (encodeItems (below (r.encode worker) levels) place t d i vs).run s = (.ok ls, s')) :
    ∃ items : List (Value × Literal), vs = items.map (·.1) ∧ ls = items.map (·.2) ∧
      (items ≠ [] → 0 < levels) ∧
      ∀ item ∈ items.zipIdx i, r.Writes known (levels - 1) (place.child (.index item.2)) t d
        item.1.1 item.1.2 := by
  induction vs generalizing s i ls with
  | nil =>
    cases hrun
    exact ⟨[], rfl, rfl, fun h ↦ absurd rfl h, fun _ h ↦ nomatch h⟩
  | cons v vs ih =>
    rw [encodeItems] at hrun
    obtain ⟨entered, he, hrun⟩ := run_ofExcept_bind_eq_ok.mp hrun
    obtain ⟨hroom, rfl⟩ := enter_below_eq_ok.mp he
    obtain ⟨l, s₁, hl, hs₁, hrun⟩ := encode_bind_eq_ok hw h hs hrun
    obtain ⟨ls, s₂, hls, hrun⟩ := run_bind_eq_ok.mp hrun
    cases hrun
    obtain ⟨items, rfl, rfl, -, hitems⟩ := ih hs₁ hls
    refine ⟨(v, l) :: items, rfl, rfl, fun _ ↦ hroom, fun item hitem ↦ ?_⟩
    rw [List.zipIdx_cons] at hitem
    rcases List.mem_cons.mp hitem with rfl | hitem
    · exact hl
    · exact hitems item hitem

theorem encodePulled_ok (hw : ∀ ask, worker = some ask → ask.Keeping r)
    (h : EncodesAsWritten r known worker t d) (hs : s.Recalls r known) {onWorker : Bool}
    {id fuel i : Nat} {ls : List Literal}
    (hrun : (encodePulled (below (r.encode worker) levels) onWorker place t d id fuel i).run s =
      (.ok ls, s')) :
    ∃ items : List (Value × Literal), ls = items.map (·.2) ∧
      ∀ item ∈ items.zipIdx i, r.Writes known (levels - 1) (place.child (.index item.2)) t d
        item.1.1 item.1.2 := by
  induction fuel generalizing s i ls with
  | zero =>
    cases hrun
    exact ⟨[], rfl, fun _ h ↦ nomatch h⟩
  | succ fuel ih =>
    rw [encodePulled] at hrun
    obtain ⟨pulled, s₁, hv, hrun⟩ := run_bind_eq_ok.mp hrun
    have hs₁ := hs.grows ((blind_pull onWorker id).quiet.keeps.of_run hv)
    cases pulled with
    | none =>
      cases hrun
      exact ⟨[], rfl, fun _ h ↦ nomatch h⟩
    | some v =>
      obtain ⟨entered, he, hrun⟩ := run_ofExcept_bind_eq_ok.mp hrun
      obtain ⟨-, rfl⟩ := enter_below_eq_ok.mp he
      obtain ⟨l, s₂, hl, hs₂, hrun⟩ := encode_bind_eq_ok hw h hs₁ hrun
      obtain ⟨ls, s₃, hls, hrun⟩ := run_bind_eq_ok.mp hrun
      cases hrun
      obtain ⟨items, rfl, hitems⟩ := ih hs₂ hls
      refine ⟨(v, l) :: items, rfl, fun item hitem ↦ ?_⟩
      rw [List.zipIdx_cons] at hitem
      rcases List.mem_cons.mp hitem with rfl | hitem
      · exact hl
      · exact hitems item hitem

theorem encodeStream_ok (hw : ∀ ask, worker = some ask → ask.Keeping r)
    (h : EncodesAsWritten r known worker t d) (hs : s.Recalls r known) {onWorker : Bool} {id : Nat}
    {ls : List Literal}
    (hrun : (encodeStream (below (r.encode worker) levels) onWorker place t d id).run s =
      (.ok ls, s')) :
    ∃ items : List (Value × Literal), ls = items.map (·.2) ∧
      ∀ item ∈ items.zipIdx, r.Writes known (levels - 1) (place.child (.index item.2)) t d
        item.1.1 item.1.2 := by
  rw [encodeStream, run_bind_of_ok (run_get s)] at hrun
  obtain ⟨pulled, s₁, hpulled, hrun⟩ := run_bind_eq_ok.mp hrun
  cases pulled with
  | nil => cases hrun
  | cons l ls =>
    cases hrun
    exact encodePulled_ok hw h hs hpulled

theorem encodeEntries_ok (hw : ∀ ask, worker = some ask → ask.Keeping r)
    (h : EncodesAsWritten r known worker t d) (hs : s.Recalls r known)
    {es : List (String × Value)} {ls : List (String × Literal)}
    (hrun : (encodeEntries (below (r.encode worker) levels) place t d es).run s = (.ok ls, s')) :
    ∃ entries : List (String × Value × Literal), es = entries.map (fun e ↦ (e.1, e.2.1)) ∧
      ls = entries.map (fun e ↦ (e.1, e.2.2)) ∧ (entries ≠ [] → 0 < levels) ∧
      ∀ e ∈ entries, r.Writes known (levels - 1) (place.child (.key e.1)) t d e.2.1 e.2.2 := by
  induction es generalizing s ls with
  | nil =>
    cases hrun
    exact ⟨[], rfl, rfl, fun h ↦ absurd rfl h, fun _ h ↦ nomatch h⟩
  | cons e es ih =>
    rw [encodeEntries] at hrun
    obtain ⟨entered, he, hrun⟩ := run_ofExcept_bind_eq_ok.mp hrun
    obtain ⟨hroom, rfl⟩ := enter_below_eq_ok.mp he
    obtain ⟨l, s₁, hl, hs₁, hrun⟩ := encode_bind_eq_ok hw h hs hrun
    obtain ⟨ls, s₂, hls, hrun⟩ := run_bind_eq_ok.mp hrun
    cases hrun
    obtain ⟨entries, rfl, rfl, -, hentries⟩ := ih hs₁ hls
    refine ⟨(e.1, e.2, l) :: entries, rfl, rfl, fun _ ↦ hroom, ?_⟩
    exact List.forall_mem_cons.mpr ⟨hl, hentries⟩

theorem Schema.get?_eq {schema : Schema} {declared : List (String × HostType × Descriptor)}
    (h : schema.fields = declared.map fun f ↦ (f.1, f.2.1)) (name : String) :
    schema.get? name = (declared.lookup name).map (·.1) := by
  rw [get?, h, Entries.lookup_map_snd]

/-- The literal of a field: of its declared type, or of the shape of its value. -/
theorem encodeFields_ok (hw : ∀ ask, worker = some ask → ask.Keeping r) {schema : Schema}
    {declared : List (String × HostType × Descriptor)}
    (hfields : schema.fields = declared.map fun f ↦ (f.1, f.2.1))
    (h : ∀ f ∈ declared, EncodesAsWritten r known worker f.2.1 f.2.2) (hs : s.Recalls r known)
    {describe : Describer} {onWorker : Bool} {vs : List (String × Value)}
    {ls : List (String × Literal)}
    (hrun : (encodeFields (below (r.encode worker) levels) describe onWorker place schema
      (declared.map fun f ↦ (f.1, f.2.2)) vs).run s = (.ok ls, s')) :
    ∃ fields : List (String × Value × Literal), vs = fields.map (fun f ↦ (f.1, f.2.1)) ∧
      ls = fields.map (fun f ↦ (f.1, f.2.2)) ∧ (fields ≠ [] → 0 < levels) ∧
      (∀ field ∈ fields, ∀ t d, declared.lookup field.1 = some (t, d) →
        r.Writes known (levels - 1) (place.child (.field field.1)) t d field.2.1 field.2.2) ∧
      ∀ field ∈ fields, schema.get? field.1 = none → field.2.1.StreamFree →
        field.2.2.value = field.2.1.eraseNames := by
  induction vs generalizing s ls with
  | nil =>
    cases hrun
    exact ⟨[], rfl, rfl, fun h ↦ absurd rfl h, List.forall_mem_nil _, List.forall_mem_nil _⟩
  | cons v vs ih =>
    rw [encodeFields] at hrun
    obtain ⟨entered, he, hrun⟩ := run_ofExcept_bind_eq_ok.mp hrun
    obtain ⟨hroom, rfl⟩ := enter_below_eq_ok.mp he
    have hget := Schema.get?_eq hfields v.1
    simp only [hget, Entries.lookup_map_snd] at hrun
    -- The declared type and its descriptor are found together, or there is neither.
    cases hf : declared.lookup v.1 with
    | some f =>
      obtain ⟨t, d⟩ := f
      simp only [hf, Option.map_some] at hrun
      have hf' := h (v.1, t, d) (Entries.mem_of_lookup hf)
      obtain ⟨l, s₁, hl, hs₁, hrun⟩ := encode_bind_eq_ok hw hf' hs hrun
      obtain ⟨ls, s₂, hls, hrun⟩ := run_bind_eq_ok.mp hrun
      cases hrun
      obtain ⟨fields, rfl, rfl, -, hwritten, hundeclared⟩ := ih hs₁ hls
      refine ⟨(v.1, v.2, l) :: fields, rfl, rfl, fun _ ↦ hroom, ?_, ?_⟩
      · refine List.forall_mem_cons.mpr ⟨fun t' d' h' ↦ ?_, hwritten⟩
        cases hf.symm.trans h'
        exact hl
      · refine List.forall_mem_cons.mpr ⟨fun h' ↦ ?_, hundeclared⟩
        simp [hget, hf] at h'
    | none =>
      simp only [hf, Option.map_none] at hrun
      obtain ⟨l, s₁, hl, hrun⟩ := run_bind_eq_ok.mp hrun
      obtain ⟨ls, s₂, hls, hrun⟩ := run_bind_eq_ok.mp hrun
      cases hrun
      have hs₁ := hs.grows ((v.2.blind_literal _ _).quiet.keeps.of_run hl)
      obtain ⟨fields, rfl, rfl, -, hwritten, hundeclared⟩ := ih hs₁ hls
      refine ⟨(v.1, v.2, l) :: fields, rfl, rfl, fun _ ↦ hroom, ?_, ?_⟩
      · exact List.forall_mem_cons.mpr ⟨fun t d h ↦ (nomatch hf.symm.trans h), hwritten⟩
      · exact List.forall_mem_cons.mpr ⟨fun _ hv ↦ Value.literal_value hv hl, hundeclared⟩

end

namespace Registry

variable {r : Registry} {known : Knowledge} {s s' : Session} {t : HostType} {d : Descriptor}
  {levels : Nat} {place : Place} {worker : Option Delegate}

/-- The fields that are taken from a record value: all declared ones, and others only if the record
is open. -/
theorem fieldsFor_eq_ok {schema : Schema} {v : Value} {fields : List (String × Value)}
    (h : r.fieldsFor place schema v = .ok fields) :
    (∃ name, v = .record name fields) ∧ (∀ f ∈ schema.fields, ∃ field ∈ fields, field.1 = f.1) ∧
      (schema.isOpen = false → ∀ field ∈ fields, (schema.get? field.1).isSome) := by
  cases v with
  | record name carried =>
    simp only [fieldsFor] at h
    split at h
    · cases h
    · split at h
      · cases h
      · next hmissing =>
        split at h
        · cases h
        · next hextra =>
          cases h
          refine ⟨⟨name, rfl⟩, fun f hf ↦ ?_, fun hclosed field hfield ↦ ?_⟩
          · have hget : Entries.get? f.1 fields ≠ none := by
              simpa [Option.isNone_iff_eq_none] using List.find?_eq_none.mp hmissing f hf
            obtain ⟨v, hv⟩ := Option.ne_none_iff_exists'.mp hget
            exact ⟨(f.1, v), Entries.mem_of_get? hv, rfl⟩
          · simpa [hclosed, Option.isSome_iff_ne_none] using
              List.find?_eq_none.mp hextra field hfield
  | _ => cases h

theorem encodeValued_ok (h : EncodesAsWritten r known worker t d) (hs : s.Recalls r known)
    (hd : known t d) {nullable : HostType} (hn : r.Nullable nullable t) {v : Value} {l : Literal}
    (hrun : (encodeValued (r.describe levels place t) (r.encode worker levels place t) v).run s =
      (.ok l, s')) : r.Writes known levels place nullable d.orNone v l := by
  unfold encodeValued at hrun
  split at hrun
  · next hv =>
    cases hrun
    rw [Value.eq_none_of_isNone hv]
    exact .absent hn
  · next hv =>
    rw [run_bind_of_ok (run_describe_of_known (hs.knows t d hd) levels place)] at hrun
    exact .present hn (by simpa using hv) (h hs hrun)

/-- Whatever encoding a type returns that is described as is known is written by the rules. -/
theorem encodesAsWritten (hr : r.Builtin) (hw : ∀ ask, worker = some ask → ask.Keeping r)
    (h : r.Described known t d) : EncodesAsWritten r known worker t d := by
  induction h with
  | @intro c parts t d isKnown resolved composed described ih =>
    intro levels place v l s s' hs hrun
    rw [encode_eq, encodeStep, resolved] at hrun
    obtain ⟨_, ⟨⟩, hrun⟩ := run_ofExcept_bind_eq_ok.mp hrun
    cases composed with
    | @primitive t kind =>
      cases v with
      | scalar value =>
        dsimp only [encodeBy] at hrun
        cases hread : value.as? kind with
        | some value' =>
          rw [hread] at hrun
          cases hrun
          exact .primitive resolved hread
        | none =>
          rw [hread] at hrun
          cases hrun
      | _ => cases hrun
    | reference =>
      cases v with
      | blob b =>
        dsimp only [encodeBy] at hrun
        split at hrun
        · next hextent =>
          cases hrun
          subst hextent
          exact .reference resolved
        · cases hrun
      | _ => cases hrun
    | jsonLines => cases hr.resolve resolved
    | plugin => cases hr.resolve resolved
    | @list t d =>
      have ih := ih (t, d) List.mem_cons_self
      cases v with
      | list vs =>
        obtain ⟨ls, hls, rfl⟩ := run_map_eq_ok.mp hrun
        obtain ⟨items, rfl, rfl, hroom, hitems⟩ := encodeItems_ok hw ih hs hls
        exact .list resolved hroom hitems
      | stream id =>
        obtain ⟨ls, hls, rfl⟩ := run_map_eq_ok.mp hrun
        obtain ⟨items, rfl, hitems⟩ := encodeStream_ok hw ih hs hls
        exact .stream resolved hitems
      | _ => cases hrun
    | @dict t d =>
      have ih := ih (t, d) List.mem_cons_self
      cases v with
      | map es =>
        obtain ⟨ls, hls, rfl⟩ := run_map_eq_ok.mp hrun
        obtain ⟨entries, rfl, rfl, hroom, hentries⟩ := encodeEntries_ok hw ih hs hls
        exact .dict resolved hroom hentries
      | _ => cases hrun
    | @optional t d =>
      have ih := ih (t, d) List.mem_cons_self
      exact encodeValued_ok ih hs (described _ List.mem_cons_self).isKnown (.optional resolved) hrun
    | @plain members t d form member =>
      simp only [encodeBy, HostType.parts, valued?_map, form, member, Option.map_some] at hrun
      exact .plain ⟨resolved, form, member⟩ (ih (t, d) List.mem_cons_self hs hrun)
    | @orNone members t d form member =>
      simp only [encodeBy, HostType.parts, valued?_map, form, member, Option.map_some] at hrun
      have ih := ih (t, d) List.mem_cons_self
      have hd := (described (t, d) List.mem_cons_self).isKnown
      exact encodeValued_ok ih hs hd (.union resolved form member) hrun
    | tagged form types distinct =>
      subst types
      simp only [encodeBy, HostType.parts, form] at hrun
      obtain ⟨chosen, hchosen, hrun⟩ := run_ofExcept_bind_eq_ok.mp hrun
      have haccepted := accepting?_of_firstAccepting hchosen
      rw [List.map_map] at haccepted
      obtain ⟨member, hmember, rfl⟩ := Option.map_eq_some_iff.mp
        ((accepting?_map (fun p ↦ r.encode worker levels place p.1) _).symm.trans haccepted)
      have hmem := List.mem_of_find?_eq_some hmember
      have hd := hs.knows _ _ (described member hmem).isKnown
      rw [run_bind_of_ok (run_describe_of_known hd levels place)] at hrun
      obtain ⟨l, hl, rfl⟩ := run_map_eq_ok.mp hrun
      exact .tagged ⟨resolved, form, distinct, fun part hpart ↦ (described part hpart).isKnown⟩
        hmember (ih member hmem hs hl)
    | @record t schema fields parts hschema declared types =>
      obtain ⟨_, hschema', hrun⟩ := run_ofExcept_bind_eq_ok.mp hrun
      cases hschema.symm.trans hschema'
      obtain ⟨carried, hcarried, hrun⟩ := run_ofExcept_bind_eq_ok.mp hrun
      obtain ⟨ls, hls, rfl⟩ := run_map_eq_ok.mp hrun
      obtain ⟨⟨name, rfl⟩, hcomplete, hclosed⟩ := fieldsFor_eq_ok hcarried
      subst types
      have ih (f) (hf : f ∈ fields) := ih f.2 (List.mem_map_of_mem hf)
      obtain ⟨es, rfl, rfl, hroom, hwritten, hundeclared⟩ := encodeFields_ok hw declared ih hs hls
      have hdeclares : r.Declares t schema fields := ⟨resolved, hschema, declared⟩
      refine .record hdeclares (fun f hf ↦ ?_) (fun hopen field hfield ↦ ?_) hroom hwritten
        hundeclared
      · have hmem : (f.1, f.2.1) ∈ schema.fields := by
          rw [declared]
          exact List.mem_map_of_mem hf
        simpa using hcomplete _ hmem
      · exact hclosed hopen _ (List.mem_map_of_mem hfield)

end Registry

end Interchange
