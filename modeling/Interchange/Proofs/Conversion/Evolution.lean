import Interchange.Proofs.Conversion.Agreement
import Interchange.Proofs.Conversion.Steady

/-!
# Types that change between writing and reading

What was written as a type is read the same as that type made optional, and a value that is there is
written the same as the optional type, so a type can be made optional for writers and for readers in
either order.  And what was written as a record is read as a closed record with some of its fields
just if these are read, to just these fields.

The fields that are left out make no difference to the others, for what a literal is read to does
not depend on what was read before.
-/

namespace Interchange

open Session Attempt

/-! ## Some of the entries -/

namespace Entries

variable {α : Type} {es : Entries α} {name : String}

theorem Ordered.filter (h : Ordered es) (p : String × α → Bool) : Ordered (es.filter p) :=
  List.Pairwise.filter p h

theorem get?_filter (p : String → Bool) (es : Entries α) (name : String) :
    get? name (es.filter fun e ↦ p e.1) = if p name then get? name es else none := by
  induction es with
  | nil => simp [get?]
  | cons e es ih =>
    obtain ⟨n, a⟩ := e
    rw [List.filter_cons]
    by_cases hname : name = n
    · subst hname
      by_cases hp : p name
      · simp [hp]
      · simp [hp, ih]
    · rw [get?_cons_of_ne hname, ← ih]
      split
      · exact get?_cons_of_ne hname
      · rfl

end Entries

section

variable {r : Registry} {known : Knowledge} {I : Session → Prop} {levels : Nat} {place : Place}
  {t : HostType} {d : Descriptor} {v : Value} {l : Literal} {worker : Option Delegate}
  {s : Schema} {σ σ' : Session}

/-- What an open record takes beside its fields does not touch these. -/
theorem Schema.get?_addUndeclared_of_isSome {name : String} (h : (s.get? name).isSome = true)
    (carried : List (String × Literal)) (decoded : Entries Value) :
    Entries.get? name (s.addUndeclared carried decoded) = Entries.get? name decoded := by
  unfold addUndeclared
  induction carried generalizing decoded with
  | nil => rfl
  | cons e carried ih =>
    rw [List.foldl_cons, ih]
    dsimp only
    split
    · next hadd =>
      refine Entries.get?_insert_of_ne ?_
      rintro rfl
      obtain ⟨t, ht⟩ := Option.isSome_iff_exists.mp h
      simp [ht] at hadd
    · rfl

theorem Schema.addUndeclared_of_closed (h : s.isOpen = false) (carried : List (String × Literal))
    (decoded : Entries Value) : s.addUndeclared carried decoded = decoded := by
  unfold addUndeclared
  induction carried with
  | nil => rfl
  | cons e carried ih =>
    rw [List.foldl_cons, h]
    rw [h] at ih
    exact ih

/-! ## None -/

/-- Where none is written, none is read. -/
theorem Registry.Writes.decode_eq_pure_none (h : r.Writes known levels place t d v l)
    (hl : l.isNone = true) : r.decode worker levels place t l = pure .none := by
  induction h with
  | @primitive _ _ _ kind s s' resolved read =>
    rw [decode_of_resolve resolved]
    have hkind := Scalar.kind_of_as? read
    subst hkind
    cases s' with
    | none => rfl
    | _ => cases hl
  | absent nullable =>
    rw [decode_nullable nullable]
    rfl
  | present nullable =>
    rw [decode_nullable nullable, decodeValued, if_pos hl]
  | plain plain _ ih =>
    rw [decode_plain plain]
    exact ih hl
  | _ => cases hl

/-! ## Fields of a record -/

/-- A field that was decoded is found, and was there to be decoded. -/
def FieldRead (r : Registry) (worker : Option Delegate) (levels : Nat) (place : Place)
    (carried : List (String × Literal)) (σ : Session) (es : Entries Value)
    (f : String × HostType) : Prop :=
  ∃ l v, Entries.get? f.1 carried = some l ∧ Entries.get? f.1 es = some v ∧
    (r.decode worker (levels - 1) (place.child (.field f.1)) f.2 l).run σ = (.ok v, σ)

variable {carried : List (String × Literal)} {decoded es : Entries Value}
  {fields : List (String × HostType)}

/-- Where decoding fields does not depend on the session and no name is declared twice, each field
is found as it was decoded. -/
theorem decodeFields_ok (distinct : (fields.map (·.1)).Nodup) (ordered : decoded.Ordered)
    (hσ : I σ)
    (hsteady : ∀ f ∈ fields, ∀ levels place l, Steady I (r.decode worker levels place f.2 l))
    (h : (decodeFields (below (r.decode worker) levels) place carried decoded fields).run σ =
      (.ok es, σ')) :
    σ' = σ ∧ es.Ordered ∧ (fields ≠ [] → 0 < levels) ∧
      (∀ f ∈ fields, FieldRead r worker levels place carried σ es f) ∧
      ∀ name, name ∉ fields.map (·.1) → Entries.get? name es = Entries.get? name decoded := by
  induction fields generalizing decoded with
  | nil =>
    cases h
    exact ⟨rfl, ordered, fun hne ↦ absurd rfl hne, List.forall_mem_nil _, fun _ _ ↦ rfl⟩
  | cons f fields ih =>
    obtain ⟨hnew, distinct⟩ := List.nodup_cons.mp distinct
    obtain ⟨hf, hfields⟩ := List.forall_mem_cons.mp hsteady
    obtain ⟨⟨decode, inner⟩, henter, h⟩ := run_ofExcept_bind_eq_ok.mp h
    obtain ⟨hlevels, hinner⟩ := enter_below_eq_ok.mp henter
    cases hinner
    dsimp only at h
    cases hget : Entries.get? f.1 carried with
    | none =>
      rw [hget] at h
      cases h
    | some l =>
      simp only [hget] at h
      obtain ⟨v, σ₁, hv, hrest⟩ := run_bind_eq_ok.mp h
      obtain ⟨rfl, hv⟩ := (hf _ _ _).run_eq hσ hσ hv
      obtain ⟨rfl, hes, -, hread, hothers⟩ := ih distinct (ordered.insert f.1 v) hfields hrest
      refine ⟨rfl, hes, fun _ ↦ hlevels, List.forall_mem_cons.mpr ⟨⟨l, v, hget, ?_, hv⟩, hread⟩, ?_⟩
      · rw [hothers f.1 hnew, Entries.get?_insert_self]
      · intro name hname
        obtain ⟨hne, hname⟩ := List.ne_and_not_mem_of_not_mem_cons hname
        rw [hothers name hname, Entries.get?_insert_of_ne hne]

/-- What some fields are decoded to is found where all of them were decoded. -/
theorem run_decodeFields_of_read (room : fields ≠ [] → 0 < levels)
    (h : ∀ f ∈ fields, FieldRead r worker levels place carried σ es f) :
    ∃ found : Entries Value, found.Ordered ∧
      (∀ name, Entries.get? name found =
        if name ∈ fields.map (·.1) then Entries.get? name es else none) ∧
      (decodeFields (below (r.decode worker) levels) place carried [] fields).run σ =
        (.ok found, σ) := by
  -- The value under each name is taken for the one that was written.
  let written : Entries (Value × Literal) :=
    carried.map fun e ↦ (e.1, (Entries.get? e.1 es).getD .none, e.2)
  have hcarried : written.map (fun e ↦ (e.1, e.2.2)) = carried := by
    simp [written, Function.comp_def]
  have hget (name : String) : Entries.get? name written =
      (Entries.get? name carried).map fun l ↦ ((Entries.get? name es).getD .none, l) :=
    Entries.get?_map_named (fun name l ↦ ((Entries.get? name es).getD .none, l)) carried name
  let canon : String → Value → Value := fun _ v ↦ v
  have hread (f : String × HostType) (hf : f ∈ fields) : ∃ item, Entries.get? f.1 written =
      some item ∧ (r.decode worker (levels - 1) (place.child (.field f.1)) f.2 item.2).run σ =
        (.ok (canon f.1 item.1), σ) := by
    obtain ⟨l, v, hl, hv, hrun⟩ := h f hf
    refine ⟨(v, l), ?_, hrun⟩
    rw [hget, hl, hv]
    rfl
  obtain ⟨found, hordered, hfound, hrun⟩ :=
    run_decodeFields room hread Entries.ordered_nil
  refine ⟨found, hordered, fun name ↦ ?_, hcarried ▸ hrun⟩
  rw [hfound]
  by_cases hname : name ∈ fields.map (·.1)
  · obtain ⟨f, hf, rfl⟩ := List.mem_map.mp hname
    obtain ⟨l, v, hl, hv, -⟩ := h f hf
    rw [if_pos hname, if_pos hname, hget, hl, hv]
    rfl
  · rw [if_neg hname, if_neg hname]
    rfl

/-! ## Records with some of the fields -/

namespace Registry

variable {u : HostType} {s' : Schema} {w : Value}

/-- Decoding a field of a known record type does not depend on the session. -/
theorem Described.steady_field (h : r.Described known t d) (hr : r.Builtin)
    (resolved : r.resolve t = .ok .record) (schema : r.schemaOf t = .ok s) :
    ∀ f ∈ s.fields, ∀ levels place l,
      Steady (Session.Recalls r known) (r.decode worker levels place f.2 l) := by
  intro f hf levels place l
  cases h with
  | intro _ resolved' composed described =>
    cases resolved.symm.trans resolved'
    cases composed with
    | record schema' declared types =>
      cases schema.symm.trans schema'
      rw [declared] at hf
      obtain ⟨g, hg, rfl⟩ := List.mem_map.mp hf
      exact (described g.2 (types ▸ List.mem_map_of_mem hg)).steady_decode hr

/-- Where some of the fields are found as all of them were decoded, they are those that are kept of
the whole record. -/
theorem eq_filter_addUndeclared {found : Entries Value} (hsub : s'.fields ⊆ s.fields)
    (hordered : found.Ordered) (ordered : es.Ordered)
    (hfound : ∀ name, Entries.get? name found =
      if name ∈ s'.fields.map (·.1) then Entries.get? name es else none)
    (carried : List (String × Literal)) :
    found = (s.addUndeclared carried es).filter fun f ↦ (s'.get? f.1).isSome := by
  refine Entries.eq_of_get?_eq hordered ((Schema.ordered_addUndeclared ordered).filter _) ?_
  intro name
  rw [hfound, Entries.get?_filter fun name ↦ (s'.get? name).isSome]
  cases hget : s'.get? name with
  | none => rw [if_neg (Schema.get?_eq_none_iff.mp hget)]; rfl
  | some t =>
    have hmem : (name, t) ∈ s'.fields := Entries.mem_of_lookup hget
    have hsome : (s.get? name).isSome = true := by
      rw [Option.isSome_iff_ne_none, Ne, Schema.get?_eq_none_iff, not_not]
      exact List.mem_map_of_mem (hsub hmem)
    rw [if_pos (List.mem_map_of_mem hmem), Option.isSome_some, if_pos rfl,
      Schema.get?_addUndeclared_of_isSome hsome]

/-- What a record was decoded to is also found, field by field, where it is decoded as a closed
record with some of its fields. -/
theorem Described.run_decode_restricted (h : r.Described known t d) (hr : r.Builtin)
    (hσ : σ.Recalls r known) (resolved : r.resolve t = .ok .record) (schema : r.schemaOf t = .ok s)
    (distinct : (s.fields.map (·.1)).Nodup)
    (hw : (r.decode worker levels place t l).run σ = (.ok w, σ')) :
    ∃ fields, w = .record (some (recordName s t)) fields ∧
      ∀ u s', r.resolve u = .ok .record → r.schemaOf u = .ok s' → s'.isOpen = false →
        s'.fields ⊆ s.fields → (r.decode worker levels place u l).run σ =
          (.ok (.record (some (recordName s' u)) (fields.filter fun f ↦ (s'.get? f.1).isSome)),
            σ) := by
  rw [decode_of_resolve resolved] at hw
  obtain ⟨s₁, hs₁, hw⟩ := run_ofExcept_bind_eq_ok.mp hw
  cases schema.symm.trans hs₁
  cases l with
  | record carried =>
    obtain ⟨es, σ₁, hes, hw⟩ := run_bind_eq_ok.mp hw
    cases hw
    obtain ⟨rfl, ordered, room, hread, -⟩ :=
      decodeFields_ok distinct Entries.ordered_nil hσ (h.steady_field hr resolved schema) hes
    refine ⟨_, rfl, fun u s' resolved' schema' closed hsub ↦ ?_⟩
    have room' (hne : s'.fields ≠ []) : 0 < levels := by
      obtain ⟨f, hf⟩ := List.exists_mem_of_ne_nil _ hne
      exact room (List.ne_nil_of_mem (hsub hf))
    obtain ⟨found, hordered, hfound, hrun⟩ :=
      run_decodeFields_of_read room' fun f hf ↦ hread f (hsub hf)
    have hkept := eq_filter_addUndeclared hsub hordered ordered hfound carried
    rw [decode_of_resolve resolved', ← hkept]
    show (Attempt.ofExcept (r.schemaOf u) >>= _).run _ = _
    rw [schema', run_bind_of_ok (run_ofExcept _ _)]
    show (decodeFields _ _ _ _ _ >>= _).run _ = _
    rw [run_bind_of_ok hrun, Schema.addUndeclared_of_closed closed]
    rfl
  | _ => cases hw

/-! ## Optional types -/

theorem run_remembering_of_run {x : Conversion Descriptor} {s s' : Session}
    (hs : s.described? t = none) (hx : x.run s = (.ok d, s')) :
    (remembering t x).run s = (.ok d, s'.remember t d) := by
  rw [run_remembering, hs, hx]

/-- Where a type is known, it is also described as an optional type, and stays known. -/
theorem run_describe_optional (hσ : σ.Coherent r) (hd : σ.known t d)
    (resolved : r.resolve (.optional t) = .ok .optional) (levels : Nat) (place : Place) :
    ∃ σ', (r.describe levels place (.optional t)).run σ = (.ok d.orNone, σ') ∧
      σ'.Recalls r σ.known := by
  have hout : ((r.describe levels place (.optional t)).run σ).1 = .ok d.orNone := by
    rw [describe_eq, describeStep]
    cases hremembered : σ.described? (.optional t) with
    | some d' =>
      rw [run_remembering, hremembered]
      have hd' : r.IsDescribed (.optional t) d' := hσ.isDescribed hremembered
      have hoptional : r.IsDescribed (.optional t) d.orNone := by
        refine Composes.optional.isDescribed resolved fun part hp ↦ ?_
        cases List.mem_singleton.mp hp
        exact hσ.isDescribed hd
      rw [hd'.unique hoptional]
    | none =>
      have hinner := run_describe_of_known (r := r) hd levels place
      have hrun : (Descriptor.orNone <$> r.describe levels place t).run σ = (.ok d.orNone, σ) := by
        rw [run_map, hinner]
        rfl
      rw [resolved]
      exact congrArg Prod.fst (run_remembering_of_run hremembered hrun)
  have hgrows := (describes_describe (r := r) levels place (.optional t)).within σ hσ
  exact ⟨_, Prod.ext hout rfl, hgrows.1, hgrows.2⟩

end Registry

end

/-! ## What engines read and write after a change -/

namespace Engine

open Relation

variable {e e₁ e₂ : Engine} {place : Place} {t : HostType} {v : Value} {l : Literal}

/-- What was written as a type is read as the optional type by the same steps. -/
theorem run_toValue_optional (he : e.Reachable) (hr : e.setup.registry.Standard)
    (hl : (convert fun u ↦ u.toLiteral place t v).run e = (.ok l, e₁))
    (hsetup : e₂.setup = e.setup) :
    (convert fun u ↦ u.toValue place (.optional t) l).run e₂ =
      (convert fun u ↦ u.toValue place t l).run e₂ := by
  obtain ⟨known, d, hwrites, -⟩ := writes_of_toLiteral he hr hl
  have hoptional : e.setup.registry.resolve (.optional t) = .ok .optional :=
    hr.resolve_generic (o := .optional) rfl
  have hdecode : e₂.setup.toValue place (.optional t) l = e₂.setup.toValue place t l := by
    rw [hsetup]
    show e.setup.registry.decode _ _ place _ l = e.setup.registry.decode _ _ place _ l
    rw [Registry.decode_nullable (.optional hoptional), Registry.decodeValued]
    split
    · next hnone => exact (hwrites.decode_eq_pure_none hnone).symm
    · rfl
  rw [run_convert, run_convert, hdecode]

/-- What a value was written as is known, and where that is remembered it is encoded the same
again. -/
theorem encode_again (he : e.Reachable) (hr : e.setup.registry.Standard) (hv : v.StreamFree)
    (hl : (convert fun u ↦ u.toLiteral place t v).run e = (.ok l, e₁))
    (hc : ReflTransGen Converts e₁ e₂) :
    ∃ d, e₂.setup = e.setup ∧ e₂.session.Coherent e.setup.registry ∧ e₂.session.known t d ∧
      e.setup.verified place d l = .ok l ∧
      ∀ σ : Session, σ.Recalls e.setup.registry e₂.session.known →
        (e.setup.encode place t v d).run σ = (.ok l, σ) := by
  obtain ⟨s', hrun, rfl⟩ := run_convert_eq_ok.mp hl
  obtain ⟨d, s₁, hd, hrest⟩ := run_bind_eq_ok.mp hrun
  obtain ⟨l', s₂, hl', hlast⟩ := run_bind_eq_ok.mp hrest
  have hverified : e.setup.verified place d l' = .ok l := congrArg Prod.fst hlast
  obtain rfl : l' = l := Setup.eq_of_verified hverified
  obtain rfl : s₂ = s' := congrArg Prod.snd hlast
  have hdescribes := Registry.describes_describe (r := e.setup.registry) (e.setup.levels place)
    place t
  have hs₁ : s₁.Coherent e.setup.registry := (hdescribes.within.of_run hd he.coherent).1
  have hknown : s₁.known t d := hdescribes.remembered he.coherent hd
  have hsteady : Attempt.Steady (·.Recalls e.setup.registry s₁.known)
      (e.setup.encode place t v d) :=
    (hs₁ t d hknown).steady_encode hr.builtin hv
  have hagain (σ : Session) (hσ : σ.Recalls e.setup.registry s₁.known) :=
    hsteady.run_eq ⟨hs₁, fun _ _ h ↦ h⟩ hσ hl'
  obtain ⟨rfl, -⟩ := hagain s₁ ⟨hs₁, fun _ _ h ↦ h⟩
  obtain ⟨hsetup, hgrows⟩ := converts_grows hc
  obtain ⟨hs₂, hknows⟩ := hgrows hs₁
  refine ⟨d, hsetup, hs₂, hknows t d hknown, hverified, fun σ hσ ↦ ?_⟩
  exact (hagain σ ⟨hσ.coherent, fun t d h ↦ hσ.knows t d (hknows t d h)⟩).2

/-- A value that is there is written as the optional type as it was written as the type. -/
theorem outcome_toLiteral_optional (he : e.Reachable) (hr : e.setup.registry.Standard)
    (hv : v.StreamFree) (hsome : v.isNone = false)
    (hl : (convert fun u ↦ u.toLiteral place t v).run e = (.ok l, e₁))
    (hc : ReflTransGen Converts e₁ e₂) :
    (convert fun u ↦ u.toLiteral place (.optional t) v).outcome e₂ = .ok l := by
  obtain ⟨d, hsetup, hcoherent, hknown, hverified, hencode⟩ := encode_again he hr hv hl hc
  have hoptional : e.setup.registry.resolve (.optional t) = .ok .optional :=
    hr.resolve_generic (o := .optional) rfl
  obtain ⟨σ, hdescribe, hσ⟩ := Registry.run_describe_optional hcoherent hknown hoptional
    (e.setup.levels place) place
  have hdescribe : (e.setup.describe place (.optional t)).run e₂.session = (.ok d.orNone, σ) :=
    hdescribe
  have hverified' : e.setup.verified place d.orNone l = .ok l := by
    unfold Setup.verified at hverified ⊢
    cases hverify : e.setup.settings.verify with
    | false => rfl
    | true =>
      rw [hverify] at hverified
      cases hconforms : l.conforms d with
      | false =>
        rw [hconforms] at hverified
        cases hverified
      | true =>
        rw [Literal.conforms_orNone hconforms]
        rfl
  have hwritten : (e.setup.encode place (.optional t) v d.orNone).run σ = (.ok l, σ) := by
    show (e.setup.registry.encode _ _ place _ v _).run σ = _
    rw [Registry.encode_of_resolve hoptional]
    show (Registry.encodeValued _ _ v).run σ = _
    rw [Registry.encodeValued, hsome, if_neg Bool.false_ne_true,
      run_bind_of_ok (run_describe_of_known (hσ.knows t d hknown) _ _)]
    exact hencode σ hσ
  have hrun : (e.setup.toLiteral place (.optional t) v).run e₂.session = (.ok l, σ) := by
    show (e.setup.describe place (.optional t) >>= _).run e₂.session = _
    rw [run_bind_of_ok hdescribe]
    show (e.setup.encode place (.optional t) v d.orNone >>= _).run σ = _
    rw [run_bind_of_ok hwritten, hverified']
    rfl
  rw [← hsetup] at hrun
  exact outcome_of_run (run_convert_of_run hrun)

/-- What was written as a type is read the same as the optional type, and a value that is there is
written the same as the optional type.  If the type is a record that declares no name twice, what
the literal is read to as a closed record with some of its fields is just these fields of what it is
read to as the type; and it is read as the type if the records within declare no name twice
either. -/
theorem toValue_evolved (he : e.Reachable) (hr : e.setup.registry.Standard) (ho : v.Ordered)
    (hv : v.StreamFree) (hl : (convert fun u ↦ u.toLiteral place t v).run e = (.ok l, e₁))
    (hc : ReflTransGen Converts e₁ e₂) :
    (convert fun u ↦ u.toValue place (.optional t) l).run e₂ =
      (convert fun u ↦ u.toValue place t l).run e₂ ∧
    (v.isNone = false →
      (convert fun u ↦ u.toLiteral place (.optional t) v).outcome e₂ = .ok l) ∧
    ∀ s, e.setup.registry.resolve t = .ok .record → e.setup.registry.schemaOf t = .ok s →
      (s.fields.map (·.1)).Nodup →
      (∀ w, (convert fun u ↦ u.toValue place t l).outcome e₂ = .ok w →
        ∃ fields, w = .record (some (Registry.recordName s t)) fields ∧
          ∀ t' s', e.setup.registry.resolve t' = .ok .record →
            e.setup.registry.schemaOf t' = .ok s' → s'.isOpen = false → s'.fields ⊆ s.fields →
            (convert fun u ↦ u.toValue place t' l).run e₂ =
              (.ok (.record (some (Registry.recordName s' t'))
                (fields.filter fun f ↦ (s'.get? f.1).isSome)), e₂)) ∧
      (e.setup.registry.DistinctFields t →
        ∃ w, (convert fun u ↦ u.toValue place t l).outcome e₂ = .ok w) := by
  obtain ⟨d, hsetup, hcoherent, hknown, -⟩ := encode_again he hr hv hl hc
  refine ⟨run_toValue_optional he hr hl hsetup,
    fun hsome ↦ outcome_toLiteral_optional he hr hv hsome hl hc, ?_⟩
  intro s resolved schema distinct
  constructor
  · intro w hw
    obtain ⟨σ, hw, -⟩ := run_convert_eq_ok.mp (Prod.ext hw rfl)
    rw [hsetup] at hw
    obtain ⟨fields, rfl, hfields⟩ := (hcoherent t d hknown).run_decode_restricted hr.builtin
      ⟨hcoherent, fun _ _ h ↦ h⟩ resolved schema distinct hw
    refine ⟨fields, rfl, fun t' s' resolved' schema' closed hsub ↦ run_convert_of_run ?_⟩
    rw [hsetup]
    exact hfields t' s' resolved' schema' closed hsub
  · intro hdistinct
    obtain ⟨known, d', hwrites, hafter⟩ := writes_of_toLiteral he hr hl
    exact ⟨_, outcome_of_run (run_toValue_of_writes hsetup hwrites hdistinct ho hv (hafter hc).2)⟩

/-! ## Points with a label only -/

/-- A record with the label of a point. -/
def labelType : HostType :=
  .record "label" [("label", .union [.ofKind .integer, .ofKind .string])] false

/-- A point is read as an optional point, written as one, and read as its label alone. -/
theorem toValue_evolved_point :
    (convert fun u ↦ u.toValue .root (.optional (.named "point")) pointLiteral).outcome
        ((convert fun u ↦ u.toLiteral .root (.named "point") point).run pointEngine).2 =
      .ok (.record (some "point") [("label", .scalar (.string "a")), ("note", .record none []),
        ("x", .scalar (.float (.ofInt 3)))]) ∧
    (convert fun u ↦ u.toLiteral .root (.optional (.named "point")) point).outcome
        ((convert fun u ↦ u.toLiteral .root (.named "point") point).run pointEngine).2 =
      .ok pointLiteral ∧
    (convert fun u ↦ u.toValue .root labelType pointLiteral).outcome
        ((convert fun u ↦ u.toLiteral .root (.named "point") point).run pointEngine).2 =
      .ok (.record (some "label") [("label", .scalar (.string "a"))]) := by
  have ho : point.Ordered := by
    refine ⟨?_, trivial, ⟨Entries.ordered_nil, trivial⟩, trivial, trivial⟩
    decide +kernel
  have hv : point.StreamFree := by simp [point, Value.StreamFree, Value.StreamFreeEntries]
  have hl : (convert fun u ↦ u.toLiteral .root (.named "point") point).run pointEngine =
      (.ok pointLiteral, _) := Prod.ext rfl rfl
  obtain ⟨hread, hwritten, hrecord⟩ := toValue_evolved reachable_pointEngine
    standard_pointEngine ho hv hl .refl
  obtain ⟨hrestricted, hsome⟩ := hrecord pointSchema rfl rfl (by decide)
  obtain ⟨w, hw⟩ := hsome distinctFields_point
  have hvalue : (convert fun u ↦ u.toValue .root (.named "point") pointLiteral).outcome
      ((convert fun u ↦ u.toLiteral .root (.named "point") point).run pointEngine).2 =
        .ok (.record (some "point") [("label", .scalar (.string "a")), ("note", .record none []),
          ("x", .scalar (.float (.ofInt 3)))]) := rfl
  obtain ⟨fields, hfields, hlabel⟩ := hrestricted _ hvalue
  cases hfields
  refine ⟨(congrArg Prod.fst hread).trans hvalue, hwritten rfl, ?_⟩
  · refine outcome_of_run ((hlabel labelType _ rfl rfl rfl ?_).trans rfl)
    decide

/-! ## Names that are declared twice -/

/-- A record that declares a name twice, as members that take none by a tag and without one. -/
def twiceType : HostType :=
  .record "inner" [("x", .union [.ofKind .integer, .ofKind .string, .ofKind .none]),
    ("x", .optional (.union [.ofKind .integer, .ofKind .string]))] false

/-- A record with just one field, which is such a record. -/
def holdingTwiceType : HostType := .record "outer" [("a", twiceType)] false

/-- A record that declares no name twice, but holds one that does, is written but not read. -/
theorem not_exists_toValue_restricted :
    ¬ ∀ (e e₁ : Engine) (t t' : HostType) (s s' : Schema) (v : Value) (l : Literal),
      e.Reachable → e.setup.registry.Standard → v.Ordered → v.StreamFree →
      (convert fun u ↦ u.toLiteral .root t v).run e = (.ok l, e₁) →
      e.setup.registry.resolve t = .ok .record → e.setup.registry.schemaOf t = .ok s →
      (s.fields.map (·.1)).Nodup → e.setup.registry.resolve t' = .ok .record →
      e.setup.registry.schemaOf t' = .ok s' → s'.isOpen = false → s'.fields ⊆ s.fields →
      ∃ w, (convert fun u ↦ u.toValue .root t' l).outcome e₁ = .ok w := by
  intro h
  have ho : (Value.record none [("a", .record none [("x", .none)])]).Ordered := by
    simp [Value.Ordered, Value.OrderedEntries, Entries.Ordered, Value.none]
  have hread := h freshEngine _ holdingTwiceType holdingTwiceType _ _
    (.record none [("a", .record none [("x", .none)])])
    (.record [("a", .record [("x", .union (.primitive .none) .none)])])
    (reachable_start _ _ _ _) Registry.standard_defaults ho
    (by simp [Value.StreamFree, Value.StreamFreeEntries, Value.none]) (Prod.ext rfl rfl) rfl rfl (by decide)
    rfl rfl rfl (List.Subset.refl _)
  obtain ⟨w, hw⟩ := hread
  cases hw

end Engine

end Interchange
