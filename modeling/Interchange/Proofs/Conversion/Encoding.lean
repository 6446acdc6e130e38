import Interchange.Proofs.Conversion.Conformance
import Interchange.Proofs.Conversion.Snags

/-!
# How encoding ends

Encoding a value without streams ends with a literal just if the value is encodable, and the literal
conforms to the descriptor of the type.  Otherwise it ends with a fault that the check of something
inside the value fails with, or with a snag.  This is said for any invariant of sessions under which
the types that are involved are described as they should be.
-/

namespace Interchange

open Session Attempt

section

variable {r : Registry} {known : Knowledge} {I : Session → Prop} {E : Fault → Prop} {levels : Nat}
  {place : Place} {t : HostType} {d : Descriptor} {v : Value} {worker : Option Delegate}

/-! ## What is inside a value -/

theorem ends_encodeItems {vs : List Value} {Q : Nat → Value × Nat → Prop} (i : Nat)
    (room : levels = 0 → vs ≠ [] → E (.nestingLimit (place.path.child (.index i))))
    (h : ∀ n, levels = n + 1 → ∀ item ∈ vs.zipIdx i,
      Ends I (fun l ↦ l.conforms d = true ∧ Q n item) E
        (r.encode worker n (place.child (.index item.2)) t item.1 d)) :
    Ends I (fun ls ↦ (∀ l ∈ ls, l.conforms d = true) ∧
        ∀ item ∈ vs.zipIdx i, ∃ n, levels = n + 1 ∧ Q n item) E
      (encodeItems (below (r.encode worker) levels) place t d i vs) := by
  induction vs generalizing i with
  | nil => exact .pure ⟨List.forall_mem_nil _, List.forall_mem_nil _⟩
  | cons v vs ih =>
    cases levels with
    | zero => exact .throw (room rfl (List.cons_ne_nil v vs))
    | succ n =>
      have hvs (m : Nat) (hm : n + 1 = m + 1) (item) (hitem : item ∈ vs.zipIdx (i + 1)) :=
        h m hm item (List.mem_cons_of_mem _ hitem)
      refine (h n rfl (v, i) List.mem_cons_self).bind fun l hl ↦ ?_
      have hroom : n + 1 ≠ 0 := Nat.succ_ne_zero n
      refine (ih (i + 1) (fun hn ↦ absurd hn hroom) hvs).bind fun ls hls ↦ ?_
      refine .pure ⟨List.forall_mem_cons.mpr ⟨hl.1, hls.1⟩, ?_⟩
      rw [List.zipIdx_cons]
      exact List.forall_mem_cons.mpr ⟨⟨n, rfl, hl.2⟩, hls.2⟩

theorem ends_encodeEntries {es : List (String × Value)} {Q : Nat → String × Value → Prop}
    (room : levels = 0 → ∀ e ∈ es.head?, E (.nestingLimit (place.path.child (.key e.1))))
    (h : ∀ n, levels = n + 1 → ∀ e ∈ es, Ends I (fun l ↦ l.conforms d = true ∧ Q n e) E
      (r.encode worker n (place.child (.key e.1)) t e.2 d)) :
    Ends I (fun ls ↦ (∀ l ∈ ls, l.2.conforms d = true) ∧
        ∀ e ∈ es, ∃ n, levels = n + 1 ∧ Q n e) E
      (encodeEntries (below (r.encode worker) levels) place t d es) := by
  induction es with
  | nil => exact .pure ⟨List.forall_mem_nil _, List.forall_mem_nil _⟩
  | cons e es ih =>
    cases levels with
    | zero => exact .throw (room rfl e rfl)
    | succ n =>
      have hes (m : Nat) (hm : n + 1 = m + 1) (e') (he' : e' ∈ es) :=
        h m hm e' (List.mem_cons_of_mem _ he')
      refine (h n rfl e List.mem_cons_self).bind fun l hl ↦ ?_
      have hroom : n + 1 ≠ 0 := Nat.succ_ne_zero n
      refine (ih (fun hn ↦ absurd hn hroom) hes).bind fun ls hls ↦ ?_
      refine .pure ⟨List.forall_mem_cons.mpr ⟨hl.1, hls.1⟩, ?_⟩
      exact List.forall_mem_cons.mpr ⟨⟨n, rfl, hl.2⟩, hls.2⟩

/-- Encodes a field where it stands: as its declared type, or by its shape. -/
def encodeField (encode : Encoder) (describe : Describer) (onWorker : Bool) (inner : Place)
    (s : Schema) (described : List (String × Descriptor)) (field : String × Value) :
    Conversion Literal :=
  match s.get? field.1, described.lookup field.1 with
  | some t, some d => encode inner t field.2 d
  | some t, none => do encode inner t field.2 (← describe inner t)
  | none, _ => field.2.literal onWorker inner.path

theorem encodeFields_cons (encode : Encoder) (describe : Describer) (onWorker : Bool)
    (place : Place) (s : Schema) (described : List (String × Descriptor)) (field : String × Value)
    (fields : List (String × Value)) :
    encodeFields (some encode) describe onWorker place s described (field :: fields) = (do
      let inner := place.child (.field field.1)
      let l ← encodeField encode describe onWorker inner s described field
      return (field.1, l) :: (← encodeFields (some encode) describe onWorker place s described
        fields)) := by
  rw [encodeFields]
  simp only [enter_some, encodeField]
  cases s.get? field.1 with
  | none => rfl
  | some t =>
    cases described.lookup field.1 with
    | none =>
      dsimp only
      rw [bind_assoc]
      rfl
    | some d => rfl

section

variable {schema : Schema} {declared : List (String × HostType × Descriptor)}
  (hfields : schema.fields = declared.map fun f ↦ (f.1, f.2.1)) {describe : Describer}
  {onWorker : Bool}

include hfields

/-- With every declared field its descriptor is found. -/
theorem ends_encodeField {encode : Encoder} {field : String × Value} {Q : Prop}
    (hdeclared : ∀ t d, declared.lookup field.1 = some (t, d) →
      Ends I (fun l ↦ l.conforms d = true ∧ Q) E (encode place t field.2 d))
    (hundeclared : schema.get? field.1 = none →
      Ends I (fun _ ↦ Q) E (field.2.literal onWorker place.path)) :
    Ends I (fun l ↦ (∀ t d, declared.lookup field.1 = some (t, d) → l.conforms d = true) ∧ Q) E
      (encodeField encode describe onWorker place schema (declared.map fun f ↦ (f.1, f.2.2))
        field) := by
  have hget := Schema.get?_eq hfields field.1
  rw [encodeField, hget, Entries.lookup_map_snd]
  cases hf : declared.lookup field.1 with
  | some f =>
    refine (hdeclared f.1 f.2 hf).mono (fun l hl ↦ ⟨?_, hl.2⟩) fun _ h ↦ h
    rintro t d ⟨⟩
    exact hl.1
  | none =>
    rw [hf] at hget
    refine (hundeclared hget).mono (fun l hl ↦ ⟨?_, hl⟩) fun _ h ↦ h
    rintro t d ⟨⟩

theorem ends_encodeFields {vs : List (String × Value)} {Q : Nat → String × Value → Prop}
    (room : levels = 0 → ∀ field ∈ vs, E (.nestingLimit (place.path.child (.field field.1))))
    (hdeclared : ∀ n, levels = n + 1 → ∀ field ∈ vs, ∀ t d, declared.lookup field.1 = some (t, d) →
      Ends I (fun l ↦ l.conforms d = true ∧ Q n field) E
        (r.encode worker n (place.child (.field field.1)) t field.2 d))
    (hundeclared : ∀ n, levels = n + 1 → ∀ field ∈ vs, schema.get? field.1 = none → ∀ path,
      Ends I (fun _ ↦ Q n field) E (field.2.literal onWorker path)) :
    Ends I (fun ls ↦ ls.map (·.1) = vs.map (·.1) ∧
        (∀ l ∈ ls, ∀ t d, declared.lookup l.1 = some (t, d) → l.2.conforms d = true) ∧
          ∀ field ∈ vs, ∃ n, levels = n + 1 ∧ Q n field) E
      (encodeFields (below (r.encode worker) levels) describe onWorker place schema
        (declared.map fun f ↦ (f.1, f.2.2)) vs) := by
  induction vs with
  | nil => exact .pure ⟨rfl, List.forall_mem_nil _, List.forall_mem_nil _⟩
  | cons v vs ih =>
    cases levels with
    | zero => exact .throw (room rfl v List.mem_cons_self)
    | succ n =>
      obtain ⟨hv, hvs⟩ := List.forall_mem_cons.mp (hdeclared n rfl)
      obtain ⟨hv', hvs'⟩ := List.forall_mem_cons.mp (hundeclared n rfl)
      rw [below, encodeFields_cons]
      refine (ends_encodeField hfields hv fun hget ↦ hv' hget _).bind fun l hl ↦ ?_
      have hroom : n + 1 ≠ 0 := Nat.succ_ne_zero n
      refine (ih (fun hn ↦ absurd hn hroom) (fun m hm ↦ ?_) fun m hm ↦ ?_).bind fun ls hls ↦ ?_
      · cases hm
        exact hvs
      · cases hm
        exact hvs'
      · obtain ⟨hnames, hconform, hQ⟩ := hls
        refine .pure ⟨congrArg (v.1 :: ·) hnames, ?_, ?_⟩
        · exact List.forall_mem_cons.mpr ⟨hl.1, hconform⟩
        · exact List.forall_mem_cons.mpr ⟨⟨n, rfl, hl.2⟩, hQ⟩

end

/-! ## Values by type -/

namespace Registry

theorem encode_of_resolve {c : Converter} (h : r.resolve t = .ok c) :
    r.encode worker levels place t v d =
      r.encodeBy worker levels (below (r.encode worker) levels) place c t
        (t.parts.map fun part ↦ (part, r.encode worker levels place part)) v d := by
  rw [encode_eq, encodeStep, h]
  rfl

/-- Encoding ends as is said of a type that is described so. -/
abbrev EndsEncoding (r : Registry) (I : Session → Prop) (E : Fault → Prop) (levels : Nat)
    (place : Place) (t : HostType) (v : Value) (d : Descriptor) (x : Conversion Literal) : Prop :=
  Ends I (fun l ↦ l.conforms d = true ∧ r.Encodable levels place t v)
    (fun f ↦ r.Faults levels place t v f ∨ E f) x

/-- What fails its check is refused with the same fault. -/
theorem EndsEncoding.of_check {f : Fault} (h : r.check levels place t v = .error f) :
    EndsEncoding r I E levels place t v d (throw f) := .throw (.inl (.here (.inr h)))

/-- None is encoded as such, and what else is encoded as the type within. -/
theorem Nullable.ends_encodeValued {inner : HostType} (h : r.Nullable t inner)
    {describe : Conversion Descriptor} {encode : Value → Descriptor → Conversion Literal}
    (hdescribe : Ends I (· = d) E describe)
    (hencode : EndsEncoding r I E levels place inner v d (encode v d)) :
    EndsEncoding r I E levels place t v d.orNone (encodeValued describe encode v) := by
  unfold encodeValued
  split
  · next hv =>
    rw [Value.eq_none_of_isNone hv]
    exact .pure ⟨Literal.conforms_none_orNone d, encodable_absent h⟩
  · next hv =>
    have hv : v.isNone = false := by simpa using hv
    refine (hdescribe.mono (fun _ h ↦ h) fun _ h ↦ .inr h).bind ?_
    rintro _ rfl
    refine hencode.mono ?_ ?_
    · rintro l ⟨hconforms, hencodable⟩
      exact ⟨Literal.conforms_orNone hconforms, encodable_present h hv hencodable⟩
    · rintro f (hf | hf)
      · exact .inl (.present h hv hf)
      · exact .inr hf

/-- A value of a tagged union is encoded as the first member that accepts it. -/
theorem Tagged.ends_encode {parts : List (HostType × Descriptor)} (h : r.Tagged known parts)
    (hdescribe : ∀ part ∈ parts, Ends I (· = part.2) E (r.describe levels place part.1))
    (hencode : ∀ part ∈ parts, EndsEncoding r I E levels place part.1 v part.2
      (r.encode worker levels place part.1 v part.2)) :
    EndsEncoding r I E levels place (.union (parts.map (·.1))) v
      (.ofMembers (parts.map (·.2)) Descriptor.defaultTagField)
      (r.encode worker levels place (.union (parts.map (·.1))) v d) := by
  rw [encode_of_resolve h.resolved]
  simp only [encodeBy, HostType.parts, h.form, List.map_map]
  rw [firstAccepting_map]
  dsimp only [Function.comp_apply]
  cases hfirst : firstAccepting (place.noMember (.union (parts.map (·.1))) v)
    (fun part ↦ r.check levels place part.1 v) parts with
  | error f =>
    refine EndsEncoding.of_check ?_
    rw [check_tagged h, hfirst]
    rfl
  | ok part =>
    have hmem := firstAccepting_mem hfirst
    refine ((hdescribe part hmem).mono (fun _ h ↦ h) fun _ h ↦ .inr h).bind ?_
    rintro _ rfl
    refine Ends.map ((hencode part hmem).mono (fun _ h ↦ h) ?_) ?_
    · rintro f (hf | hf)
      · have haccepted : (parts.map (·.1)).find? (fun t ↦ (r.check levels place t v).isOk) = _ :=
          find?_accepting parts
        rw [accepting?_of_firstAccepting hfirst] at haccepted
        exact .inl (.member h.resolved h.form haccepted hf)
      · exact .inr hf
    · rintro l ⟨hconforms, hencodable⟩
      refine ⟨?_, encodable_tagged h hfirst hencodable⟩
      exact Literal.conforms_union_ofMembers (List.mem_map_of_mem hmem) hconforms _

/-- A field of a record is encodable by its declared type, or there is nothing foreign in it. -/
structure EncodableField (r : Registry) (s : Schema)
    (declared : List (String × HostType × Descriptor)) (levels : Nat) (place : Place)
    (field : String × Value) : Prop where
  declared : ∀ t d, declared.lookup field.1 = some (t, d) →
    r.Encodable levels (place.child (.field field.1)) t field.2
  undeclared : s.get? field.1 = none → field.2.foreignKeys = []

section

variable {s : Schema} {declared : List (String × HostType × Descriptor)} {name : Option String}
  {carried : List (String × Value)} {field : String × Value}

theorem Declares.ends_encode_declared (h : r.Declares t s declared)
    (ordered : Entries.Ordered carried) (hfield : field ∈ carried) {u : HostType}
    (hlookup : declared.lookup field.1 = some (u, d))
    (hencode : EndsEncoding r I E levels (place.child (.field field.1)) u field.2 d
      (r.encode worker levels (place.child (.field field.1)) u field.2 d)) :
    Ends I (fun l ↦ l.conforms d = true ∧ r.EncodableField s declared levels place field)
      (fun f ↦ r.Faults (levels + 1) place t (.record name carried) f ∨ E f)
      (r.encode worker levels (place.child (.field field.1)) u field.2 d) := by
  refine hencode.mono ?_ ?_
  · rintro l ⟨hconforms, hencodable⟩
    refine ⟨hconforms, ?_, ?_⟩
    · intro u' d' hlookup'
      cases hlookup.symm.trans hlookup'
      exact hencodable
    · intro hnone
      rw [Schema.get?_eq h.fields, hlookup] at hnone
      cases hnone
  · rintro f (hf | hf)
    · have hmem : (field.1, u) ∈ s.fields := by
        rw [h.fields]
        exact List.mem_map_of_mem (Entries.mem_of_lookup hlookup)
      exact .inl (.field h.resolved h.schema hmem (Entries.get?_of_mem ordered hfield) hf)
    · exact .inr hf

theorem Declares.ends_literal_undeclared (h : r.Declares t s declared) (hv : field.2.StreamFree)
    (hfield : field ∈ carried) (hnone : s.get? field.1 = none) (onWorker : Bool) (path : Path) :
    Ends I (fun _ ↦ r.EncodableField s declared levels place field)
      (fun f ↦ r.Faults (levels + 1) place t (.record name carried) f ∨ E f)
      (field.2.literal onWorker path) := by
  refine (Value.ends_literal hv onWorker path).mono ?_ ?_
  · intro l hkeys
    refine ⟨?_, fun _ ↦ hkeys⟩
    intro u d hlookup
    rw [Schema.get?_eq h.fields, hlookup] at hnone
    cases hnone
  · rintro f ⟨key, hkey, rfl⟩
    have hheld := List.mem_of_head? hkey
    exact .inl (.here (.inl (.shapeless h.resolved h.schema hfield hnone hheld)))

/-- The fields of a record are encoded in turn. -/
theorem Declares.ends_encode (h : r.Declares t s declared) (ht : r.DistinctFields t)
    (ho : v.Ordered) (hv : v.StreamFree)
    (hencode : ∀ n, levels = n + 1 → ∀ f ∈ declared, ∀ w, w.Ordered → w.StreamFree →
      EndsEncoding r I E n (place.child (.field f.1)) f.2.1 w f.2.2
        (r.encode worker n (place.child (.field f.1)) f.2.1 w f.2.2)) :
    EndsEncoding r I E levels place t v (.record (declared.map fun f ↦ (f.1, f.2.2)))
      (r.encode worker levels place t v (.record (declared.map fun f ↦ (f.1, f.2.2)))) := by
  rw [encode_of_resolve h.resolved]
  show EndsEncoding r I E levels place t v _ (.ofExcept (r.schemaOf t) >>= _)
  rw [h.schema]
  show EndsEncoding r I E levels place t v _ (.ofExcept (r.fieldsFor place s v) >>= _)
  have hcheck : r.check levels place t v = _ := check_record h.resolved h.schema
  cases hcarried : r.fieldsFor place s v with
  | error f =>
    rw [hcarried] at hcheck
    exact EndsEncoding.of_check hcheck
  | ok carried =>
    obtain ⟨⟨name, rfl⟩, complete, -⟩ := fieldsFor_eq_ok hcarried
    obtain ⟨hordered, ho⟩ := ho
    have ho := Value.orderedEntries_iff.mp ho
    have hv := Value.streamFreeEntries_iff.mp hv
    refine Ends.map (ends_encodeFields h.fields
      (Q := fun n field ↦ r.EncodableField s declared n place field) ?_ ?_ ?_) ?_
    · rintro rfl field hfield
      exact .inl (.here (.inl (.noLevel h.resolved hfield)))
    · rintro n rfl field hfield u d hlookup
      refine h.ends_encode_declared hordered hfield hlookup ?_
      exact hencode n rfl _ (Entries.mem_of_lookup hlookup) _ (ho _ hfield) (hv _ hfield)
    · rintro n rfl field hfield hnone path
      exact h.ends_literal_undeclared (hv _ hfield) hfield hnone _ path
    · rintro ls ⟨hnames, hconform, hfields⟩
      constructor
      · refine h.conforms ht (fun f hf ↦ ?_) hconform
        have hmem : (f.1, f.2.1) ∈ s.fields := by
          rw [h.fields]
          exact List.mem_map_of_mem hf
        obtain ⟨field, hfield, hname⟩ := complete _ hmem
        have hwritten : field.1 ∈ ls.map (·.1) := by
          rw [hnames]
          exact List.mem_map_of_mem hfield
        obtain ⟨e, he, hfst⟩ := List.mem_map.mp hwritten
        exact ⟨e, he, hfst.trans hname⟩
      · refine encodable_record h.resolved h.schema hcarried ?_ ?_ ?_
        · intro hne
          obtain ⟨field, hfield⟩ := List.exists_mem_of_ne_nil _ hne
          obtain ⟨n, hn, -⟩ := hfields field hfield
          exact ⟨n, hn⟩
        · intro field hfield w hw
          rw [h.fields] at hfield
          obtain ⟨f, hf, rfl⟩ := List.mem_map.mp hfield
          obtain ⟨n, hn, hencodable⟩ := hfields _ (Entries.mem_of_get? hw)
          exact ⟨n, hn, hencodable.declared _ _ (h.lookup ht hf)⟩
        · intro field hfield
          obtain ⟨n, -, hencodable⟩ := hfields field hfield
          exact hencodable.undeclared

end

/-- Items are encoded in turn, each one level further in. -/
theorem ends_encode_list (resolved : r.resolve (.list t) = .ok .sequence) (ho : v.Ordered)
    (hv : v.StreamFree)
    (hencode : ∀ n, levels = n + 1 → ∀ i w, w.Ordered → w.StreamFree →
      EndsEncoding r I E n (place.child (.index i)) t w d
        (r.encode worker n (place.child (.index i)) t w d)) :
    EndsEncoding r I E levels place (.list t) v (.collection d)
      (r.encode worker levels place (.list t) v (.collection d)) := by
  have hcheck : r.check levels place (.list t) v = _ := check_of_resolve resolved
  rw [encode_of_resolve resolved]
  cases v with
  | list vs =>
    have ho := Value.orderedItems_iff.mp ho
    have hv := Value.streamFreeItems_iff.mp hv
    refine Ends.map (ends_encodeItems 0
      (Q := fun n item ↦ r.Encodable n (place.child (.index item.2)) t item.1) ?_ ?_) ?_
    · rintro rfl hne
      obtain ⟨v, vs, rfl⟩ := List.exists_cons_of_ne_nil hne
      exact .inl (.here (.inr hcheck))
    · rintro n rfl item hitem
      have hmem := List.fst_mem_of_mem_zipIdx hitem
      refine (hencode n rfl item.2 item.1 (ho _ hmem) (hv _ hmem)).mono (fun _ h ↦ h) ?_
      exact fun f hf ↦ hf.imp_left (.item resolved hitem)
    · rintro ls ⟨hconform, hitems⟩
      exact ⟨Literal.conforms_collection.mpr hconform, encodable_list resolved hitems⟩
  | stream => exact hv.elim
  | _ => exact EndsEncoding.of_check hcheck

theorem ends_encode_dict (resolved : r.resolve (.dict t) = .ok .mapping) (ho : v.Ordered)
    (hv : v.StreamFree)
    (hencode : ∀ n, levels = n + 1 → ∀ key w, w.Ordered → w.StreamFree →
      EndsEncoding r I E n (place.child (.key key)) t w d
        (r.encode worker n (place.child (.key key)) t w d)) :
    EndsEncoding r I E levels place (.dict t) v (.mapping d)
      (r.encode worker levels place (.dict t) v (.mapping d)) := by
  have hcheck : r.check levels place (.dict t) v = _ := check_of_resolve resolved
  rw [encode_of_resolve resolved]
  cases v with
  | map es =>
    have ho := Value.orderedEntries_iff.mp ho.2
    have hv := Value.streamFreeEntries_iff.mp hv
    refine Ends.map (ends_encodeEntries
      (Q := fun n e ↦ r.Encodable n (place.child (.key e.1)) t e.2) ?_ ?_) ?_
    · rintro rfl e he
      obtain ⟨es, rfl⟩ := List.head?_eq_some_iff.mp he
      exact .inl (.here (.inr hcheck))
    · rintro n rfl e he
      refine (hencode n rfl e.1 e.2 (ho _ he) (hv _ he)).mono (fun _ h ↦ h) ?_
      exact fun f hf ↦ hf.imp_left (.entry resolved he)
    · rintro ls ⟨hconform, hentries⟩
      exact ⟨Literal.conforms_mapping.mpr hconform, encodable_dict resolved hentries⟩
  | _ => exact EndsEncoding.of_check hcheck

theorem ends_encode_primitive {kind : Kind} (resolved : r.resolve t = .ok (.primitive kind)) :
    EndsEncoding r I E levels place t v (.primitive kind)
      (r.encode worker levels place t v (.primitive kind)) := by
  have hcheck : r.check levels place t v = _ := check_of_resolve resolved
  rw [encode_of_resolve resolved]
  cases v with
  | scalar s =>
    simp only [checkBy] at hcheck
    simp only [encodeBy]
    cases hs : s.as? kind with
    | some s' =>
      rw [hs] at hcheck
      refine .pure ⟨?_, encodable_leaf resolved rfl ?_ hcheck⟩
      · simp [Literal.conforms, Descriptor.someMember, Scalar.kind_of_as? hs]
      · intro f hf
        cases hf
    | none =>
      rw [hs] at hcheck
      exact EndsEncoding.of_check hcheck
  | _ => exact EndsEncoding.of_check hcheck

theorem ends_encode_reference {name : String} {extent : Extent}
    (resolved : r.resolve t = .ok (.reference name extent)) :
    EndsEncoding r I E levels place t v (.blob ⟨"", extent⟩)
      (r.encode worker levels place t v (.blob ⟨"", extent⟩)) := by
  have hcheck : r.check levels place t v = _ := check_of_resolve resolved
  rw [encode_of_resolve resolved]
  cases v with
  | blob b =>
    simp only [checkBy] at hcheck
    simp only [encodeBy]
    split
    · next hextent =>
      rw [if_pos hextent] at hcheck
      refine .pure ⟨?_, encodable_leaf resolved rfl ?_ hcheck⟩
      · simp [Literal.conforms, Descriptor.someMember, hextent]
      · intro f hf
        cases hf
    · next hextent =>
      rw [if_neg hextent] at hcheck
      exact EndsEncoding.of_check hcheck
  | _ => exact EndsEncoding.of_check hcheck

/-- Encoding a value without streams, as a type that is described, ends with a literal if the value
is encodable, and otherwise with a fault in it, wherever describing the types that are involved and
storing lists as streams go well. -/
theorem Described.ends_encode (h : r.Described known t d) (hr : r.Unplugged)
    (ht : r.DistinctFields t)
    (hk : ∀ t d, known t d → ∀ levels place, Ends I (· = d) E (r.describe levels place t))
    {token : Option String}
    (hstore : ∀ levels place t v, r.resolve t = .ok .jsonLines → place.token = token →
      v.StreamFree → EndsEncoding r I E levels place t v (.blob JsonLines.blobType)
        (suspend worker place fun _ ↦ JsonLines.encode place v))
    (htoken : place.token = token) (ho : v.Ordered) (hv : v.StreamFree) :
    EndsEncoding r I E levels place t v d (r.encode worker levels place t v d) := by
  induction h generalizing levels place v with
  | @intro c parts t d isKnown resolved composed described ih =>
    have hdescribe (part : HostType × Descriptor) (hp : part ∈ parts) :
        Ends I (· = part.2) E (r.describe levels place part.1) :=
      hk _ _ (described part hp).isKnown levels place
    cases composed with
    | plugin => exact absurd rfl (hr.resolve resolved _)
    | jsonLines =>
      rw [encode_of_resolve resolved]
      exact hstore levels place t v resolved htoken hv
    | primitive => exact ends_encode_primitive resolved
    | reference => exact ends_encode_reference resolved
    | list =>
      have ht := ht.of_contains (.part List.mem_cons_self)
      refine ends_encode_list resolved ho hv fun n _ i w ho hv ↦ ?_
      exact ih _ List.mem_cons_self ht htoken ho hv
    | dict =>
      have ht := ht.of_contains (.part List.mem_cons_self)
      refine ends_encode_dict resolved ho hv fun n _ key w ho hv ↦ ?_
      exact ih _ List.mem_cons_self ht htoken ho hv
    | @optional t d =>
      have ht := ht.of_contains (.part List.mem_cons_self)
      rw [encode_of_resolve resolved]
      exact (Nullable.optional resolved).ends_encodeValued (hdescribe _ List.mem_cons_self)
        (ih (t, d) List.mem_cons_self ht htoken ho hv)
    | @plain members t d form member =>
      have hplain : r.Plain members t := ⟨resolved, form, member⟩
      have ht := ht.of_contains hplain.contains
      rw [encode_of_resolve resolved]
      simp only [encodeBy, HostType.parts, valued?_map, form, member, Option.map_some]
      refine (ih (t, d) List.mem_cons_self ht htoken ho hv).mono ?_ ?_
      · rintro l ⟨hconforms, hencodable⟩
        exact ⟨hconforms, encodable_plain hplain hencodable⟩
      · rintro f (hf | hf)
        · exact .inl (.plain hplain hf)
        · exact .inr hf
    | @orNone members t d form member =>
      have hnullable : r.Nullable (.union members) t := .union resolved form member
      have ht := ht.of_contains hnullable.contains
      rw [encode_of_resolve resolved]
      simp only [encodeBy, HostType.parts, valued?_map, form, member, Option.map_some]
      exact hnullable.ends_encodeValued (hdescribe _ List.mem_cons_self)
        (ih (t, d) List.mem_cons_self ht htoken ho hv)
    | tagged form types distinct =>
      subst types
      have htagged : r.Tagged known parts :=
        ⟨resolved, form, distinct, fun part hp ↦ (described part hp).isKnown⟩
      refine htagged.ends_encode hdescribe fun part hp ↦ ?_
      exact ih part hp (ht.of_contains (.part (List.mem_map_of_mem hp))) htoken ho hv
    | @record _ s fields _ schema declared types =>
      subst types
      have hdeclares : r.Declares t s fields := ⟨resolved, schema, declared⟩
      refine hdeclares.ends_encode ht ho hv fun n _ f hf w ho hv ↦ ?_
      exact ih f.2 (List.mem_map_of_mem hf) (ht.of_contains (hdeclares.contains hf)) htoken ho hv

end Registry

end

end Interchange
