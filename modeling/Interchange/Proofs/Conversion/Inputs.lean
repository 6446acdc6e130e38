import Interchange.Proofs.Conversion.Evolution
import Interchange.Proofs.Conversion.Shape
import Mathlib.Data.List.Forall2
import Mathlib.Data.List.Sort

/-!
# Named inputs

Named inputs are the fields of a closed record.  Each is converted under its own name, one level
further in, and none of them makes a difference to the others: so it comes to the same to describe
all of them first, as the record type is, and then to write them.  Reading even fails with the same
faults.
-/

namespace Interchange

open Session Attempt

/-- Ordered entries that have items under the same names have the same names one by one. -/
theorem Entries.map_fst_eq_of_subset {α β : Type} {es : Entries α} {fs : Entries β}
    (he : es.Ordered) (hf : fs.Ordered) (h : es.map (·.1) ⊆ fs.map (·.1))
    (h' : fs.map (·.1) ⊆ es.map (·.1)) : es.map (·.1) = fs.map (·.1) :=
  have hlt : (es.map (·.1)).Pairwise (· < ·) := List.pairwise_map.mpr he
  List.Subset.antisymm_of_pairwise hlt (List.pairwise_map.mpr hf) h h'

theorem Entries.Ordered.nodup {α : Type} {es : Entries α} (h : es.Ordered) :
    (es.map (·.1)).Nodup :=
  have hlt : (es.map (·.1)).Pairwise (· < ·) := List.pairwise_map.mpr h
  hlt.nodup

theorem Entries.isSome_get?_iff {α : Type} {es : Entries α} {name : String} :
    (get? name es).isSome = true ↔ name ∈ es.map (·.1) := by
  rw [Option.isSome_iff_ne_none, Ne, get?_eq_none_iff, List.mem_map]
  simp

theorem Literal.conformsField_of_mem {es : List (String × Literal)} {name : String} {l : Literal}
    {d : Descriptor} (distinct : (es.map (·.1)).Nodup) (h : (name, l) ∈ es) :
    conformsField es name d = l.conforms d := by
  induction es with
  | nil => cases h
  | cons e es ih =>
    obtain ⟨hnew, distinct⟩ := List.nodup_cons.mp distinct
    unfold conformsField
    rcases List.mem_cons.mp h with rfl | h
    · exact if_pos rfl
    · have hne : name ≠ e.1 := by
        rintro rfl
        exact hnew (List.mem_map.mpr ⟨_, h, rfl⟩)
      rw [if_neg hne, ih distinct h]

/-- What a record conforms to is a matter of each of its fields. -/
theorem Literal.conforms_record_iff {found : List (String × HostType × Descriptor)}
    {m : List (String × Literal)} (distinct : (m.map (·.1)).Nodup)
    (h : List.Forall₂ (fun f e ↦ e.1 = f.1) found m) :
    (Literal.record m).conforms (.record (found.map fun f ↦ (f.1, f.2.2))) = true ↔
      List.Forall₂ (fun f e ↦ e.2.conforms f.2.2 = true) found m := by
  -- The record stays whole while its fields are gone through.
  have hpart {found' : List (String × HostType × Descriptor)} {m' : List (String × Literal)}
      (h : List.Forall₂ (fun f e ↦ e.1 = f.1) found' m') (hsub : ∀ e ∈ m', e ∈ m) :
      (∀ f ∈ found', conformsField m f.1 f.2.2 = true) ↔
        List.Forall₂ (fun f e ↦ e.2.conforms f.2.2 = true) found' m' := by
    induction h with
    | nil => simp
    | @cons f e found' m' hname _ ih =>
      obtain ⟨he, hes⟩ := List.forall_mem_cons.mp hsub
      rw [List.forall_mem_cons, List.forall₂_cons, ih hes, ← hname,
        conformsField_of_mem distinct he]
  rw [conforms_record, List.forall_mem_map]
  exact hpart h fun _ he ↦ he

namespace Setup

variable {u : Setup} {s s' : Session} {types : Entries HostType} {values : Entries Value}
  {literals literals' : Entries Literal} {name : String} {known : Knowledge}

/-- A field of the outermost record stands at the place of an input. -/
theorem enter_bind_eq {α β : Type} (work : Nat → α) (name : String)
    (k : α × Place → Conversion β) :
    (.ofExcept (enter (below work (u.levels .root)) .root (.field name)) >>= k) =
      (.ofExcept (u.namedPlace name) >>= fun place ↦ k (work (u.levels place), place)) := by
  unfold namedPlace reach levels
  cases u.settings.maxDepth <;> rfl

/-! ## Reading -/

/-- Fields are read one after the other, as inputs are. -/
theorem decodeFields_eq (ordered : types.Ordered) {decoded : Entries Value}
    (below_types : ∀ e ∈ decoded, ∀ f ∈ types, e.1 < f.1) :
    decodeFields (below (u.registry.decode (some u.delegate)) (u.levels .root)) .root literals
      decoded types = (decoded ++ ·) <$> u.toValues literals types := by
  induction types generalizing decoded with
  | nil => simp [decodeFields, toValues]
  | cons f types ih =>
    obtain ⟨hlt, ordered⟩ := Entries.ordered_cons.mp ordered
    rw [decodeFields, enter_bind_eq, toValues, map_bind]
    congr 1
    funext place
    cases Entries.get? f.1 literals with
    | none => rfl
    | some l =>
      dsimp only
      rw [map_bind]
      congr 1
      funext v
      have hinsert : Entries.insert f.1 v decoded = decoded ++ [(f.1, v)] :=
        Entries.insert_of_forall_lt fun e he ↦ below_types e he f List.mem_cons_self
      rw [hinsert, ih ordered]
      · simp
      · intro e he g hg
        rcases List.mem_append.mp he with he | he
        · exact below_types e he g (List.mem_cons_of_mem _ hg)
        · rw [List.mem_singleton.mp he]
          exact hlt g hg

/-- Literals of named inputs are read as the record of them is. -/
theorem toValue_record (resolved : u.registry.resolve (.record name types false) = .ok .record)
    (ordered : types.Ordered) : u.toValue .root (.record name types false) (.record literals) =
      Value.record (some name) <$> u.toValues literals types := by
  have hfields : decodeFields (below (u.registry.decode (some u.delegate)) (u.levels .root)) .root
      literals [] types = ([] ++ ·) <$> u.toValues literals types :=
    decodeFields_eq ordered (List.forall_mem_nil _)
  show u.registry.decode _ _ _ _ _ = _
  rw [Registry.decode_of_resolve resolved]
  show (decodeFields _ _ _ _ _ >>= _) = _
  rw [hfields]
  have hclosed (carried : Entries Literal) (es : Entries Value) :
      Schema.addUndeclared ⟨name, types, false⟩ carried es = es :=
    Schema.addUndeclared_of_closed rfl carried es
  simp only [hclosed, Registry.recordName, List.nil_append, id_map', bind_pure_comp]

/-- Only the literals under the names of the types are looked at. -/
theorem toValues_congr {types : List (String × HostType)}
    (h : ∀ f ∈ types, Entries.get? f.1 literals = Entries.get? f.1 literals') :
    u.toValues literals types = u.toValues literals' types := by
  induction types with
  | nil => rfl
  | cons f types ih =>
    obtain ⟨hf, htypes⟩ := List.forall_mem_cons.mp h
    rw [toValues, toValues, hf, ih htypes]

/-! ## Describing -/

/-- Inputs are described one after the other, as fields are. -/
theorem describeNamed_eq (types : List (String × HostType)) : u.describeNamed types =
    describeFields (below u.registry.describe (u.levels .root)) .root types := by
  induction types with
  | nil => rfl
  | cons f types ih =>
    rw [describeNamed, describeFields, enter_bind_eq, ih]
    rfl

/-- An input has a place just if there is a level left for it. -/
theorem namedPlace_eq_ok {place : Place} : u.namedPlace name = .ok place ↔
    0 < u.levels .root ∧ place = Place.root.child (.field name) := by
  have hlevels : u.levels .root = u.settings.maxDepth := rfl
  rw [namedPlace, reach, hlevels]
  split
  · next h =>
    rw [Except.ok.injEq, eq_comm]
    exact (and_iff_right h).symm
  · next h =>
    constructor
    · rintro ⟨⟩
    · exact fun hp ↦ absurd hp.1 h

/-- Inputs are only described where there is a level for them. -/
theorem levels_of_describeNamed {types : List (String × HostType)} {ds : Entries Descriptor}
    (h : (u.describeNamed types).run s = (.ok ds, s')) (hne : types ≠ []) : 0 < u.levels .root := by
  cases types with
  | nil => exact absurd rfl hne
  | cons f types =>
    obtain ⟨place, hplace, -⟩ := run_ofExcept_bind_eq_ok.mp h
    exact (namedPlace_eq_ok.mp hplace).1

/-- The types of inputs are known once they are described. -/
theorem describeNamed_ok {types : List (String × HostType)} {ds : Entries Descriptor}
    (hs : s.Coherent u.registry) (h : (u.describeNamed types).run s = (.ok ds, s')) :
    s'.Recalls u.registry s.known ∧
      ∃ found : List (String × HostType × Descriptor), types = found.map (fun f ↦ (f.1, f.2.1)) ∧
        ds = found.map (fun f ↦ (f.1, f.2.2)) ∧ ∀ f ∈ found, s'.known f.2.1 f.2.2 := by
  have hgrows := (keeps_describeNamed types).of_run h hs
  refine ⟨⟨hgrows.1, hgrows.2⟩, ?_⟩
  rw [describeNamed_eq] at h
  refine describeFields_ok (r := u.registry) (fun describe hd place t ↦ ?_) hs h
  obtain ⟨n, -, rfl⟩ := below_eq_some.mp hd
  exact Registry.describes_describe n place t

/-- A session knows a type as it was just described. -/
theorem describe_ok {place : Place} {t : HostType} {d : Descriptor} (hs : s.Coherent u.registry)
    (h : (u.describe place t).run s = (.ok d, s')) :
    s'.Recalls u.registry s'.known ∧ u.registry.Described s'.known t d := by
  have hdescribes := Registry.describes_describe (r := u.registry) (u.levels place) place t
  have hs' := (hdescribes.within.of_run h hs).1
  exact ⟨⟨hs', fun _ _ h ↦ h⟩, hs' _ _ (hdescribes.remembered hs h)⟩

/-- Inputs whose types are known are described without a change, if there is a level for them. -/
theorem run_describeNamed_of_known {found : List (String × HostType × Descriptor)}
    (room : found ≠ [] → 0 < u.levels .root) (h : ∀ f ∈ found, s.known f.2.1 f.2.2) :
    (u.describeNamed (found.map fun f ↦ (f.1, f.2.1))).run s =
      (.ok (found.map fun f ↦ (f.1, f.2.2)), s) := by
  induction found with
  | nil => rfl
  | cons f found ih =>
    obtain ⟨hf, hfound⟩ := List.forall_mem_cons.mp h
    have hlevels : 0 < u.levels .root := room (List.cons_ne_nil f found)
    rw [List.map_cons, describeNamed, namedPlace_eq_ok.mpr ⟨hlevels, rfl⟩]
    have hd : (u.describe (Place.root.child (.field f.1)) f.2.1).run s = (.ok f.2.2, s) :=
      run_describe_of_known hf _ _
    rw [run_bind_of_ok (run_ofExcept _ _), run_bind_of_ok hd,
      run_bind_of_ok (ih (fun _ ↦ hlevels) hfound)]
    rfl

section

variable (resolved : u.registry.resolve (.record name types false) = .ok .record)

include resolved

/-- The record type is described by the descriptors of the inputs, unless it is remembered. -/
theorem describe_record : u.describe .root (.record name types false) =
    remembering (.record name types false) (.record <$> u.describeNamed types) := by
  rw [describe, Registry.describe_eq, Registry.describeStep, resolved, describeNamed_eq,
    map_eq_pure_bind]
  rfl

/-- How the inputs are described is known where the record type is. -/
theorem found_of_known_record {d : Descriptor} (hs : s.Coherent u.registry)
    (h : s.known (.record name types false) d) :
    ∃ found : List (String × HostType × Descriptor), types = found.map (fun f ↦ (f.1, f.2.1)) ∧
      d = .record (found.map fun f ↦ (f.1, f.2.2)) ∧ ∀ f ∈ found, s.known f.2.1 f.2.2 := by
  cases hs _ _ h with
  | intro _ resolved' composed described =>
    cases resolved.symm.trans resolved'
    cases composed with
    | @record _ _ found _ schema declared types =>
      cases schema
      exact ⟨found, declared, rfl, fun f hf ↦
        (described f.2 (types ▸ List.mem_map_of_mem hf)).isKnown⟩

/-- Where the inputs are described, so is the record type, and all that is known of them stays. -/
theorem run_describe_record {ds : Entries Descriptor} (hs : s.Coherent u.registry)
    (h : (u.describeNamed types).run s = (.ok ds, s')) :
    ∃ s₂, (u.describe .root (.record name types false)).run s = (.ok (.record ds), s₂) ∧
      s₂.Recalls u.registry s'.known := by
  obtain ⟨hs', found, htypes, hds, hknown⟩ := describeNamed_ok hs h
  rw [describe_record resolved, run_remembering]
  cases hremembered : s.described? (.record name types false) with
  | some d =>
    obtain ⟨found', htypes', rfl, hknown'⟩ := found_of_known_record resolved hs hremembered
    have room (hne : found' ≠ []) : 0 < u.levels .root :=
      levels_of_describeNamed h (by rwa [htypes', Ne, List.map_eq_nil_iff])
    have hrun := run_describeNamed_of_known room hknown'
    rw [← htypes', h] at hrun
    cases hrun
    exact ⟨s, rfl, hs, fun _ _ h ↦ h⟩
  | none =>
    have hcomposes : u.registry.Composes .record (found.map (·.2)) (.record name types false)
        (.record (found.map fun f ↦ (f.1, f.2.2))) := .record rfl htypes rfl
    have hparts : ∀ part ∈ found.map (·.2), s'.known part.1 part.2 :=
      List.forall_mem_map.mpr hknown
    have hgrows := grows_remember resolved hcomposes hparts hs'.coherent
    refine ⟨s'.remember (.record name types false) (.record ds), ?_, ?_⟩
    · rw [run_map, h]
      rfl
    · rw [hds]
      exact ⟨hgrows.1, hgrows.2⟩

/-- Where the record type is described, so are the inputs, if there is a level for them. -/
theorem exists_run_describeNamed {d : Descriptor} {s₂ : Session} (hs : s.Coherent u.registry)
    (room : types ≠ [] → 0 < u.levels .root)
    (h : (u.describe .root (.record name types false)).run s = (.ok d, s₂)) :
    ∃ ds s', (u.describeNamed types).run s = (.ok ds, s') := by
  rw [describe_record resolved, run_remembering] at h
  cases hremembered : s.described? (.record name types false) with
  | some d =>
    obtain ⟨found, htypes, -, hknown⟩ := found_of_known_record resolved hs hremembered
    have room' (hne : found ≠ []) : 0 < u.levels .root :=
      room (by rwa [htypes, Ne, List.map_eq_nil_iff])
    rw [htypes]
    exact ⟨_, _, run_describeNamed_of_known room' hknown⟩
  | none =>
    rw [hremembered] at h
    rcases hrun : (u.describeNamed types).run s with ⟨e | ds, s'⟩
    · rw [run_map, hrun] at h
      cases h
    · exact ⟨ds, s', rfl⟩

end

/-! ## Writing -/

/-- What is encoded for an input whose type is described so, in a session that knows that. -/
def Encoded (u : Setup) (s : Session) (values : Entries Value) (f : String × HostType × Descriptor)
    (e : String × Literal) : Prop :=
  e.1 = f.1 ∧ ∃ v, Entries.get? f.1 values = some v ∧
    (u.encode (Place.root.child (.field f.1)) f.2.1 v f.2.2).run s = (.ok e.2, s)

/-- A literal of an input is not refused. -/
def Verifies (u : Setup) (f : String × HostType × Descriptor) (e : String × Literal) : Prop :=
  u.settings.verify = true → e.2.conforms f.2.2 = true

/-- Inputs can all be described, and are then encoded, each by itself. -/
def WritesInputs (u : Setup) (s : Session) (types : List (String × HostType))
    (values : Entries Value) (m : Entries Literal) (s' : Session) : Prop :=
  ∃ found : List (String × HostType × Descriptor), types = found.map (fun f ↦ (f.1, f.2.1)) ∧
    (u.describeNamed types).run s = (.ok (found.map fun f ↦ (f.1, f.2.2)), s') ∧
    (∀ f ∈ found, s'.known f.2.1 f.2.2) ∧
    List.Forall₂ (u.Encoded s' values) found m ∧ List.Forall₂ u.Verifies found m

theorem verified_eq_ok {place : Place} {d : Descriptor} {l l' : Literal} :
    u.verified place d l = .ok l' ↔ l = l' ∧ (u.settings.verify = true → l.conforms d = true) := by
  rw [verified]
  by_cases hverify : u.settings.verify = true <;> by_cases hl : l.conforms d = true <;>
    simp [hverify, hl]

/-- A value without streams is written once its type is described, by a session that encoding
leaves as it is. -/
theorem toLiteral_eq_ok {place : Place} {t : HostType} {v : Value} {l : Literal}
    (hr : u.registry.Builtin) (hs : s.Coherent u.registry) (hv : v.StreamFree) :
    (u.toLiteral place t v).run s = (.ok l, s') ↔ ∃ d, (u.describe place t).run s = (.ok d, s') ∧
      (u.encode place t v d).run s' = (.ok l, s') ∧
      (u.settings.verify = true → l.conforms d = true) := by
  constructor
  · intro h
    obtain ⟨d, s₁, hd, h⟩ := run_bind_eq_ok.mp h
    obtain ⟨l', s₂, hl, h⟩ := run_bind_eq_ok.mp h
    obtain ⟨rfl, hverified⟩ := verified_eq_ok.mp (congrArg Prod.fst h)
    obtain rfl : s₂ = s' := congrArg Prod.snd h
    obtain ⟨hs₁, hdescribed⟩ := describe_ok hs hd
    obtain ⟨rfl, -⟩ := (hdescribed.steady_encode hr hv).run_eq hs₁ hs₁ hl
    exact ⟨d, hd, hl, hverified⟩
  · rintro ⟨d, hd, hl, hverified⟩
    show (u.describe place t >>= _).run s = _
    rw [run_bind_of_ok hd]
    show (u.encode place t v d >>= _).run s' = _
    rw [run_bind_of_ok hl, verified_eq_ok.mpr ⟨rfl, hverified⟩]
    rfl

/-- Encoding an input comes to the same in any session that knows how it is described. -/
theorem Encoded.of_recalls {f : String × HostType × Descriptor} {e : String × Literal}
    (h : u.Encoded s values f e) (hr : u.registry.Builtin)
    (hv : ∀ e ∈ values, e.2.StreamFree) (hf : u.registry.Described known f.2.1 f.2.2)
    (hk : s.Recalls u.registry known) (hk' : s'.Recalls u.registry known) :
    u.Encoded s' values f e := by
  obtain ⟨hname, v, hget, hrun⟩ := h
  have hfree : v.StreamFree := hv _ (Entries.mem_of_get? hget)
  exact ⟨hname, v, hget, ((hf.steady_encode hr hfree).run_eq hk hk' hrun).2⟩

theorem name_mem_of_encoded {found : List (String × HostType × Descriptor)} {m : Entries Literal}
    (h : List.Forall₂ (u.Encoded s values) found m) : ∀ f ∈ found, f.1 ∈ values.map (·.1) := by
  induction h with
  | nil => exact List.forall_mem_nil _
  | cons hf _ ih =>
    obtain ⟨-, v, hget, -⟩ := hf
    exact List.forall_mem_cons.mpr ⟨List.mem_map_of_mem (Entries.mem_of_get? hget), ih⟩

theorem encoded_iff_of_recalls {found : List (String × HostType × Descriptor)} {m : Entries Literal}
    (hr : u.registry.Builtin) (hv : ∀ e ∈ values, e.2.StreamFree)
    (hfound : ∀ f ∈ found, u.registry.Described known f.2.1 f.2.2)
    (hs : s.Recalls u.registry known) (hs' : s'.Recalls u.registry known) :
    List.Forall₂ (u.Encoded s values) found m ↔ List.Forall₂ (u.Encoded s' values) found m := by
  induction found generalizing m with
  | nil => simp
  | cons f found ih =>
    obtain ⟨hf, hfound⟩ := List.forall_mem_cons.mp hfound
    cases m with
    | nil => simp
    | cons e m =>
      rw [List.forall₂_cons, List.forall₂_cons, ih hfound]
      exact and_congr_left fun _ ↦
        ⟨fun h ↦ h.of_recalls hr hv hf hs hs', fun h ↦ h.of_recalls hr hv hf hs' hs⟩

/-- Inputs' literals are not refused just if the record of them conforms. -/
theorem verifies_iff {found : List (String × HostType × Descriptor)} {m : Entries Literal}
    (distinct : (found.map (·.1)).Nodup) (hnames : List.Forall₂ (fun f e ↦ e.1 = f.1) found m) :
    (u.settings.verify = true →
      (Literal.record m).conforms (.record (found.map fun f ↦ (f.1, f.2.2))) = true) ↔
    List.Forall₂ u.Verifies found m := by
  have hm : found.map (·.1) = m.map (·.1) := by
    rw [← List.forall₂_eq_eq_eq, List.forall₂_map_left_iff, List.forall₂_map_right_iff]
    exact hnames.imp fun _ _ h ↦ h.symm
  rw [Literal.conforms_record_iff (hm ▸ distinct) hnames]
  unfold Verifies
  by_cases hverify : u.settings.verify = true
  · simp only [hverify, forall_const]
  · simp only [hverify, Bool.false_eq_true, false_implies, true_iff]
    exact hnames.imp fun _ _ _ ↦ trivial

/-- The first input is written, and then the others are. -/
theorem toLiteralsOf_cons_eq_ok {f : String × HostType} {types : List (String × HostType)}
    {m : Entries Literal} : (u.toLiteralsOf values (f :: types)).run s = (.ok m, s') ↔
      ∃ v l s₁ ls, Entries.get? f.1 values = some v ∧
        u.namedPlace f.1 = .ok (Place.root.child (.field f.1)) ∧
        (u.toLiteral (Place.root.child (.field f.1)) f.2 v).run s = (.ok l, s₁) ∧
        (u.toLiteralsOf values types).run s₁ = (.ok ls, s') ∧ m = (f.1, l) :: ls := by
  rw [toLiteralsOf]
  constructor
  · intro h
    cases hget : Entries.get? f.1 values with
    | none =>
      rw [hget] at h
      cases h
    | some v =>
      rw [hget] at h
      obtain ⟨place, hplace, h⟩ := run_ofExcept_bind_eq_ok.mp h
      obtain ⟨l, s₁, hl, h⟩ := run_bind_eq_ok.mp h
      obtain ⟨ls, s₂, hls, h⟩ := run_bind_eq_ok.mp h
      cases h
      obtain ⟨-, rfl⟩ := namedPlace_eq_ok.mp hplace
      exact ⟨v, l, s₁, ls, rfl, hplace, hl, hls, rfl⟩
  · rintro ⟨v, l, s₁, ls, hget, hplace, hl, hls, rfl⟩
    simp only [hget, hplace]
    rw [run_bind_of_ok (run_ofExcept _ _), run_bind_of_ok hl, run_bind_of_ok hls]
    rfl

/-- That inputs can all be described and then encoded says the same of the first by itself and of
the others after it: what the others add to what is known does not change how it is encoded. -/
theorem writesInputs_cons_iff {f : String × HostType} {types : List (String × HostType)}
    {m : Entries Literal} (hr : u.registry.Builtin) (hs : s.Coherent u.registry)
    (hv : ∀ e ∈ values, e.2.StreamFree) : u.WritesInputs s (f :: types) values m s' ↔
      ∃ v l s₁ ls, Entries.get? f.1 values = some v ∧
        u.namedPlace f.1 = .ok (Place.root.child (.field f.1)) ∧
        (u.toLiteral (Place.root.child (.field f.1)) f.2 v).run s = (.ok l, s₁) ∧
        u.WritesInputs s₁ types values ls s' ∧ m = (f.1, l) :: ls := by
  constructor
  · rintro ⟨found, hfound, hrun, hknown, hencoded, hverifies⟩
    obtain ⟨g, found, rfl, rfl, htypes⟩ := List.map_eq_cons_iff.mp hfound.symm
    obtain ⟨place, hplace, hrun⟩ := run_ofExcept_bind_eq_ok.mp hrun
    obtain ⟨d, s₁, hd, hrun⟩ := run_bind_eq_ok.mp hrun
    obtain ⟨ds, s₂, hds, hrun⟩ := run_bind_eq_ok.mp hrun
    cases hrun
    obtain ⟨hs₁, hdescribed⟩ := describe_ok hs hd
    have hs' := hs₁.grows ((keeps_describeNamed _).of_run hds)
    obtain ⟨-, rfl⟩ := namedPlace_eq_ok.mp hplace
    cases hencoded with
    | @cons _ e _ ls hfirst hencoded =>
    cases hverifies with
    | cons hverified hverifies =>
    obtain ⟨_, l⟩ := e
    obtain ⟨rfl, v, hget, hl⟩ := hfirst.of_recalls hr hv hdescribed hs' hs₁
    exact ⟨v, l, s₁, ls, hget, hplace,
      (toLiteral_eq_ok hr hs (hv _ (Entries.mem_of_get? hget))).mpr ⟨_, hd, hl, hverified⟩,
      ⟨found, htypes.symm, hds, (List.forall_mem_cons.mp hknown).2, hencoded, hverifies⟩, rfl⟩
  · rintro ⟨v, l, s₁, ls, hget, hplace, hl, hls, rfl⟩
    obtain ⟨d, hd, hl, hverified⟩ :=
      (toLiteral_eq_ok hr hs (hv _ (Entries.mem_of_get? hget))).mp hl
    obtain ⟨found, htypes, hds, hknown, hencoded, hverifies⟩ := hls
    obtain ⟨hs₁, hdescribed⟩ := describe_ok hs hd
    have hs' := hs₁.grows ((keeps_describeNamed types).of_run hds)
    have hfirst : u.Encoded s₁ values (f.1, f.2, d) (f.1, l) := ⟨rfl, v, hget, hl⟩
    refine ⟨(f.1, f.2, d) :: found, congrArg _ htypes, ?_, ?_, ?_, .cons hverified hverifies⟩
    · rw [describeNamed, hplace, run_bind_of_ok (run_ofExcept _ _), run_bind_of_ok hd,
        run_bind_of_ok hds]
      rfl
    · exact List.forall_mem_cons.mpr ⟨hs'.knows _ _ hdescribed.isKnown, hknown⟩
    · exact .cons (hfirst.of_recalls hr hv hdescribed hs₁ hs') hencoded

/-- Inputs are written one after the other just if they can all be described and then encoded. -/
theorem toLiteralsOf_eq_ok {types : List (String × HostType)} {m : Entries Literal}
    (hr : u.registry.Builtin) (hs : s.Coherent u.registry) (hv : ∀ e ∈ values, e.2.StreamFree) :
    (u.toLiteralsOf values types).run s = (.ok m, s') ↔ u.WritesInputs s types values m s' := by
  induction types generalizing s m with
  | nil =>
    constructor
    · rintro ⟨⟩
      exact ⟨[], rfl, rfl, List.forall_mem_nil _, .nil, .nil⟩
    · rintro ⟨found, hfound, hrun, -, hencoded, -⟩
      cases List.map_eq_nil_iff.mp hfound.symm
      cases hrun
      cases hencoded
      rfl
  | cons f types ih =>
    rw [toLiteralsOf_cons_eq_ok, writesInputs_cons_iff hr hs hv]
    refine exists_congr fun v ↦ exists_congr fun l ↦ exists_congr fun s₁ ↦ exists_congr fun ls ↦
      and_congr_right fun hget ↦ and_congr_right fun _ ↦ and_congr_right fun hl ↦ ?_
    obtain ⟨d, hd, -⟩ := (toLiteral_eq_ok hr hs (hv _ (Entries.mem_of_get? hget))).mp hl
    rw [ih (describe_ok hs hd).1.coherent]

/-- A declared field is encoded as its type. -/
theorem encodeField_of_lookup {declared : List (String × HostType × Descriptor)} {schema : Schema}
    (hfields : schema.fields = declared.map fun f ↦ (f.1, f.2.1)) {name : String} {t : HostType}
    {d : Descriptor} (hlookup : declared.lookup name = some (t, d)) (encode : Encoder)
    (describe : Describer) (onWorker : Bool) (inner : Place) (v : Value) :
    encodeField encode describe onWorker inner schema (declared.map fun f ↦ (f.1, f.2.2))
      (name, v) = encode inner t v d := by
  rw [encodeField, Schema.get?_eq hfields, Entries.lookup_map_snd, hlookup]
  rfl

/-- The fields of a record are encoded as inputs of their names are. -/
theorem encodeFields_eq_ok {declared found : List (String × HostType × Descriptor)}
    {vs : List (String × Value)} {m : List (String × Literal)} {describe : Describer}
    {schema : Schema} (hr : u.registry.Builtin)
    (hfields : schema.fields = declared.map fun f ↦ (f.1, f.2.1))
    (hs : s.Recalls u.registry known) (hv : ∀ e ∈ values, e.2.StreamFree)
    (hknown : ∀ f ∈ found, u.registry.Described known f.2.1 f.2.2)
    (hlookup : ∀ f ∈ found, declared.lookup f.1 = some f.2)
    (hget : ∀ e ∈ vs, Entries.get? e.1 values = some e.2)
    (hnames : vs.map (·.1) = found.map (·.1)) :
    (encodeFields (below (u.registry.encode (some u.delegate)) (u.levels .root)) describe false
      .root schema (declared.map fun f ↦ (f.1, f.2.2)) vs).run s = (.ok m, s') ↔
      s' = s ∧ (found ≠ [] → 0 < u.levels .root) ∧ List.Forall₂ (u.Encoded s values) found m := by
  induction found generalizing vs m with
  | nil =>
    cases List.map_eq_nil_iff.mp hnames
    constructor
    · rintro ⟨⟩
      exact ⟨rfl, fun h ↦ absurd rfl h, .nil⟩
    · rintro ⟨rfl, -, ⟨⟩⟩
      rfl
  | cons f found ih =>
    obtain ⟨name, t, d⟩ := f
    obtain ⟨⟨_, v⟩, vs, rfl, ⟨⟩, hvs⟩ := List.map_eq_cons_iff.mp hnames
    obtain ⟨hf, hfound⟩ := List.forall_mem_cons.mp hknown
    obtain ⟨hlookup, hlookups⟩ := List.forall_mem_cons.mp hlookup
    obtain ⟨hget, hgets⟩ := List.forall_mem_cons.mp hget
    have ih {m} := ih (m := m) hfound hlookups hgets hvs
    cases hlevels : u.levels .root with
    | zero =>
      constructor
      · rintro ⟨⟩
      · rintro ⟨-, room, -⟩
        exact absurd (room (List.cons_ne_nil _ _)) (Nat.lt_irrefl 0)
    | succ n =>
      have hn : u.levels (Place.root.child (.field name)) = n := congrArg Nat.pred hlevels
      have hfield (l : Literal) : (u.registry.encode (some u.delegate) n
          (Place.root.child (.field name)) t v d).run s = (.ok l, s) ↔
          u.Encoded s values (name, t, d) (name, l) := by
        simp [Encoded, encode, hget, hn]
      rw [hlevels, below] at ih
      rw [below, encodeFields_cons]
      dsimp only
      rw [encodeField_of_lookup hfields hlookup]
      constructor
      · intro h
        obtain ⟨l, s₁, hl, h⟩ := run_bind_eq_ok.mp h
        obtain ⟨ls, s₂, hls, h⟩ := run_bind_eq_ok.mp h
        cases h
        have hfree : v.StreamFree := hv _ (Entries.mem_of_get? hget)
        obtain ⟨rfl, hl⟩ := (hf.steady_encode hr hfree).run_eq hs hs hl
        obtain ⟨rfl, -, hencoded⟩ := ih.mp hls
        exact ⟨rfl, fun _ ↦ n.succ_pos, .cons ((hfield l).mp hl) hencoded⟩
      · rintro ⟨rfl, -, hencoded⟩
        cases hencoded with
        | @cons _ e _ ls hl hencoded =>
        obtain ⟨_, l⟩ := e
        cases hl.1
        rw [run_bind_of_ok ((hfield l).mpr hl),
          run_bind_of_ok (ih.mpr ⟨rfl, fun _ ↦ n.succ_pos, hencoded⟩)]
        rfl

/-- A record without a name has the fields of a closed record type just if it has its names. -/
theorem fieldsFor_iff (r : Registry) (name : String) (ordered : types.Ordered)
    (ordered' : values.Ordered) :
    r.fieldsFor .root ⟨name, types, false⟩ (.record none values) = .ok values ↔
      values.map (·.1) = types.map (·.1) := by
  have hfield (n : String) : ((⟨name, types, false⟩ : Schema).get? n).isSome = true ↔
      n ∈ types.map (·.1) := by
    rw [Option.isSome_iff_ne_none, Ne, Schema.get?_eq_none_iff, not_not]
  have hfits : r.Fits ⟨name, types, false⟩ none values ↔ values.map (·.1) = types.map (·.1) := by
    constructor
    · intro h
      refine Entries.map_fst_eq_of_subset ordered' ordered ?_ ?_
      · exact List.forall_mem_map.mpr fun e he ↦ (hfield e.1).mp (h.closed rfl e he)
      · exact List.forall_mem_map.mpr fun f hf ↦ Entries.isSome_get?_iff.mp (h.complete f hf)
    · intro h
      refine ⟨fun _ h ↦ (nomatch h), fun f hf ↦ ?_, fun _ e he ↦ ?_⟩
      · exact Entries.isSome_get?_iff.mpr (h ▸ List.mem_map_of_mem hf)
      · exact (hfield e.1).mpr (h ▸ List.mem_map_of_mem he)
  rw [← hfits]
  rcases r.fieldsFor_record .root ⟨name, types, false⟩ none values with ⟨h, h'⟩ | ⟨h, e, h', -⟩
  · exact ⟨fun _ ↦ h, fun _ ↦ h'⟩
  · exact ⟨fun h'' ↦ (nomatch h'.symm.trans h''), fun h'' ↦ absurd h'' h⟩

section

variable (resolved : u.registry.resolve (.record name types false) = .ok .record)

include resolved

/-- A record with just the declared fields is encoded field by field. -/
theorem encode_record {ds : Entries Descriptor}
    (hcarried : u.registry.fieldsFor .root ⟨name, types, false⟩ (.record none values) =
      .ok values) :
    u.encode .root (.record name types false) (.record none values) (.record ds) =
      .record <$> encodeFields (below (u.registry.encode (some u.delegate)) (u.levels .root))
        (u.registry.describe (u.levels .root - 1)) false .root ⟨name, types, false⟩ ds values := by
  rw [encode, Registry.encode_of_resolve resolved]
  show (Attempt.ofExcept (u.registry.fieldsFor .root ⟨name, types, false⟩ _) >>= _) = _
  rw [hcarried]
  rfl

/-- Fields are only encoded where there is a level for them. -/
theorem levels_of_encode_record {ds : Entries Descriptor} {l : Literal}
    (hcarried : u.registry.fieldsFor .root ⟨name, types, false⟩ (.record none values) = .ok values)
    (h : (u.encode .root (.record name types false) (.record none values) (.record ds)).run s =
      (.ok l, s')) (hne : values ≠ []) : 0 < u.levels .root := by
  rw [encode_record resolved hcarried] at h
  obtain ⟨m, hm, -⟩ := run_map_eq_ok.mp h
  cases values with
  | nil => exact absurd rfl hne
  | cons e values =>
    obtain ⟨entered, henter, -⟩ := run_ofExcept_bind_eq_ok.mp hm
    exact (enter_below_eq_ok.mp henter).1

/-- Where the types of the inputs are known, the record of them is encoded and conforms just if each
input is encoded and its literal is not refused. -/
theorem encode_record_eq_ok {σ σ' : Session} {found : List (String × HostType × Descriptor)}
    {m : Entries Literal} (hr : u.registry.Builtin) (ordered : types.Ordered)
    (ordered' : values.Ordered) (hv : ∀ e ∈ values, e.2.StreamFree)
    (hnames : values.map (·.1) = types.map (·.1))
    (htypes : types = found.map fun f ↦ (f.1, f.2.1)) (hσ : σ.Recalls u.registry σ'.known)
    (hσ' : σ'.Coherent u.registry) (hknown : ∀ f ∈ found, σ'.known f.2.1 f.2.2) :
    (u.encode .root (.record name types false) (.record none values)
        (.record (found.map fun f ↦ (f.1, f.2.2)))).run σ = (.ok (.record m), σ) ∧
      (u.settings.verify = true →
        (Literal.record m).conforms (.record (found.map fun f ↦ (f.1, f.2.2))) = true) ↔
    (found ≠ [] → 0 < u.levels .root) ∧
      List.Forall₂ (u.Encoded σ' values) found m ∧ List.Forall₂ u.Verifies found m := by
  have hrecalls : σ'.Recalls u.registry σ'.known := ⟨hσ', fun _ _ h ↦ h⟩
  have hdescribed (f) (hf : f ∈ found) : u.registry.Described σ'.known f.2.1 f.2.2 :=
    hσ' _ _ (hknown f hf)
  have hnames' : types.map (·.1) = found.map (·.1) := by
    rw [htypes, List.map_map]
    rfl
  have distinct : (found.map (·.1)).Nodup := hnames' ▸ ordered.nodup
  have hencode : (u.encode .root (.record name types false) (.record none values)
      (.record (found.map fun f ↦ (f.1, f.2.2)))).run σ = (.ok (.record m), σ) ↔
      (found ≠ [] → 0 < u.levels .root) ∧ List.Forall₂ (u.Encoded σ' values) found m := by
    rw [encode_record resolved ((fieldsFor_iff u.registry name ordered ordered').mpr hnames),
      ← encoded_iff_of_recalls hr hv hdescribed hσ hrecalls]
    have hfields (m' : Entries Literal) :
        (encodeFields (below (u.registry.encode (some u.delegate)) (u.levels .root))
          (u.registry.describe (u.levels .root - 1)) false .root ⟨name, types, false⟩
          (found.map fun f ↦ (f.1, f.2.2)) values).run σ = (.ok m', σ) ↔ _ :=
      encodeFields_eq_ok hr htypes hσ hv hdescribed
        (fun f hf ↦ Entries.lookup_of_mem distinct hf) (fun e he ↦ Entries.get?_of_mem ordered' he)
        (hnames.trans hnames')
    rw [run_map_eq_ok]
    simp [hfields]
  have hverified (hencoded : List.Forall₂ (u.Encoded σ' values) found m) :
      (u.settings.verify = true →
        (Literal.record m).conforms (.record (found.map fun f ↦ (f.1, f.2.2))) = true) ↔
      List.Forall₂ u.Verifies found m := verifies_iff distinct (hencoded.imp fun _ _ h ↦ h.1)
  rw [hencode, and_assoc]
  exact and_congr_right fun _ ↦ and_congr_right hverified

/-- The record of inputs is written just if they can all be described and then encoded. -/
theorem toLiteral_record_eq_ok {m : Entries Literal} (hr : u.registry.Builtin)
    (hs : s.Coherent u.registry) (ordered : types.Ordered) (ordered' : values.Ordered)
    (hv : ∀ e ∈ values, e.2.StreamFree) (hnames : values.map (·.1) = types.map (·.1)) :
    (∃ s₂, (u.toLiteral .root (.record name types false) (.record none values)).run s =
        (.ok (.record m), s₂)) ↔ ∃ s', u.WritesInputs s types values m s' := by
  have hfree : (Value.record none values).StreamFree := Value.streamFreeEntries_iff.mpr hv
  have hcarried := (fieldsFor_iff u.registry name ordered ordered').mpr hnames
  constructor
  · rintro ⟨s₂, h⟩
    obtain ⟨d, hd, hl⟩ := (toLiteral_eq_ok hr hs hfree).mp h
    obtain ⟨hs₂, hdescribed⟩ := describe_ok hs hd
    obtain ⟨ds', rfl⟩ : ∃ ds', d = .record ds' := by
      obtain ⟨found', -, rfl, -⟩ := found_of_known_record resolved hs₂.coherent hdescribed.isKnown
      exact ⟨_, rfl⟩
    have room (hne : types ≠ []) : 0 < u.levels .root := by
      refine levels_of_encode_record resolved hcarried hl.1 ?_
      rintro rfl
      exact hne (List.map_eq_nil_iff.mp hnames.symm)
    obtain ⟨ds, s', hds⟩ := exists_run_describeNamed resolved hs room hd
    obtain ⟨hs', found, htypes, rfl, hknown⟩ := describeNamed_ok hs hds
    obtain ⟨s₂', hd', hs₂'⟩ := run_describe_record resolved hs hds
    cases hd.symm.trans hd'
    obtain ⟨-, hwritten⟩ := (encode_record_eq_ok resolved hr ordered ordered' hv hnames htypes hs₂'
      hs'.coherent hknown).mp hl
    exact ⟨s', found, htypes, hds, hknown, hwritten⟩
  · rintro ⟨s', found, htypes, hds, hknown, hwritten⟩
    obtain ⟨s₂, hd, hs₂⟩ := run_describe_record resolved hs hds
    have hs' := (describeNamed_ok hs hds).1
    have room (hne : found ≠ []) : 0 < u.levels .root :=
      levels_of_describeNamed hds (by rwa [htypes, Ne, List.map_eq_nil_iff])
    have hl := (encode_record_eq_ok resolved hr ordered ordered' hv hnames htypes hs₂
      hs'.coherent hknown).mpr ⟨room, hwritten⟩
    exact ⟨s₂, (toLiteral_eq_ok hr hs hfree).mpr ⟨_, hd, hl⟩⟩

/-- A record that is written has just the declared fields. -/
theorem names_of_toLiteral_record {l : Literal} (ordered : types.Ordered)
    (ordered' : values.Ordered)
    (h : (u.toLiteral .root (.record name types false) (.record none values)).run s = (.ok l, s')) :
    values.map (·.1) = types.map (·.1) := by
  obtain ⟨d, s₁, -, h⟩ := run_bind_eq_ok.mp h
  obtain ⟨l', s₂, hl, -⟩ := run_bind_eq_ok.mp h
  rw [Registry.encode_of_resolve resolved] at hl
  obtain ⟨schema, hschema, hl⟩ := run_ofExcept_bind_eq_ok.mp hl
  cases hschema
  obtain ⟨fields, hfields, -⟩ := run_ofExcept_bind_eq_ok.mp hl
  obtain ⟨⟨_, ⟨⟩⟩, -⟩ := Registry.fieldsFor_eq_ok hfields
  exact (fieldsFor_iff u.registry name ordered ordered').mp hfields

end

/-- Inputs are written just if each has a type, each type has an input, and these are written one
after the other. -/
theorem toLiterals_eq_ok {m : Entries Literal} (hr : u.registry.Builtin)
    (hs : s.Coherent u.registry) (ordered : types.Ordered) (ordered' : values.Ordered)
    (hv : ∀ e ∈ values, e.2.StreamFree) :
    (u.toLiterals types values).run s = (.ok m, s') ↔
      values.map (·.1) = types.map (·.1) ∧ u.WritesInputs s types values m s' := by
  rw [toLiterals]
  cases hextra : values.find? fun e ↦ (Entries.get? e.1 types).isNone with
  | some extra =>
    constructor
    · rintro ⟨⟩
    · rintro ⟨hnames, -⟩
      have hmem : extra.1 ∈ types.map (·.1) :=
        hnames ▸ List.mem_map_of_mem (List.mem_of_find?_eq_some hextra)
      have hsome := Entries.isSome_get?_iff.mpr hmem
      have hnone := List.find?_some hextra
      rw [Option.isNone_iff_eq_none.mp hnone] at hsome
      cases hsome
  | none =>
    rw [toLiteralsOf_eq_ok hr hs hv]
    refine ⟨fun h ↦ ⟨?_, h⟩, fun h ↦ h.2⟩
    refine Entries.map_fst_eq_of_subset ordered' ordered ?_ ?_
    · refine List.forall_mem_map.mpr fun e he ↦ Entries.isSome_get?_iff.mp ?_
      simpa only [Bool.not_eq_true, Option.isNone_eq_false_iff] using
        List.find?_eq_none.mp hextra e he
    · obtain ⟨found, rfl, -, -, hencoded, -⟩ := h
      rw [List.map_map]
      exact List.forall_mem_map.mpr (name_mem_of_encoded hencoded)

end Setup

namespace Engine

variable {e : Engine} {types : Entries HostType} {values : Entries Value}

/-- Named inputs are a closed record: they are written as the record of them is and read as it is,
and in either reading only what has a type is looked at. -/
theorem inputs_record (he : e.Reachable) (hr : e.setup.registry.Standard) (ht : types.Ordered)
    (ho : values.Ordered) (hv : ∀ input ∈ values, input.2.StreamFree) (name : String) :
    (∀ m, (convert fun u ↦ u.toLiterals types values).outcome e = .ok m ↔
      (convert fun u ↦ u.toLiteral .root (.record name types false) (.record none values)).outcome e
        = .ok (.record m)) ∧
    ∀ literals,
      (∀ r, (convert fun u ↦ u.toValues literals types).outcome e = .ok r ↔
        ∃ n, (convert fun u ↦ u.toValue .root (.record name types false)
          (.record literals)).outcome e = .ok (.record n r)) ∧
      ∀ literals', (∀ type ∈ types, Entries.get? type.1 literals = Entries.get? type.1 literals') →
        (convert fun u ↦ u.toValues literals types).run e =
          (convert fun u ↦ u.toValues literals' types).run e ∧
        (convert fun u ↦ u.toValue .root (.record name types false) (.record literals)).run e =
          (convert fun u ↦
            u.toValue .root (.record name types false) (.record literals')).run e := by
  have resolved : e.setup.registry.resolve (.record name types false) = .ok .record :=
    hr.resolve_generic (o := .record) rfl
  have hs := he.coherent
  refine ⟨fun m ↦ ?_, fun literals ↦ ⟨fun r ↦ ?_, fun literals' hagree ↦ ?_⟩⟩
  · show (e.setup.toLiterals types values).outcome e.session = .ok m ↔
      (e.setup.toLiteral .root _ _).outcome e.session = .ok (.record m)
    simp only [outcome_eq_ok, Setup.toLiterals_eq_ok hr.builtin hs ht ho hv, exists_and_left]
    constructor
    · rintro ⟨hnames, hwrites⟩
      exact (Setup.toLiteral_record_eq_ok resolved hr.builtin hs ht ho hv hnames).mpr hwrites
    · rintro ⟨s', h⟩
      have hnames := Setup.names_of_toLiteral_record resolved ht ho h
      exact ⟨hnames,
        (Setup.toLiteral_record_eq_ok resolved hr.builtin hs ht ho hv hnames).mp ⟨s', h⟩⟩
  · show (e.setup.toValues literals types).outcome e.session = .ok r ↔
      ∃ n, (e.setup.toValue .root _ _).outcome e.session = .ok (.record n r)
    rw [Setup.toValue_record resolved ht]
    simp only [outcome_eq_ok, run_map_eq_ok, Value.record.injEq]
    constructor
    · rintro ⟨s', h⟩
      exact ⟨some name, s', r, h, rfl, rfl⟩
    · rintro ⟨n, s', r', h, -, rfl⟩
      exact ⟨s', h⟩
  · have hvalues : e.setup.toValues literals types = e.setup.toValues literals' types :=
      Setup.toValues_congr hagree
    refine ⟨?_, ?_⟩
    · rw [run_convert, run_convert, hvalues]
    · rw [run_convert, run_convert, Setup.toValue_record resolved ht,
        Setup.toValue_record resolved ht, hvalues]

/-- A number and a point. -/
def inputTypes : Entries HostType := [("count", .ofKind .integer), ("where", .named "point")]

def inputs : Entries Value := [("count", .scalar (.integer 2)), ("where", point)]

def inputLiterals : Entries Literal := [("count", .scalar (.integer 2)), ("where", pointLiteral)]

theorem inputs_record_point :
    (convert fun u ↦ u.toLiteral .root (.record "call" inputTypes false)
      (.record none inputs)).outcome pointEngine = .ok (.record inputLiterals) ∧
    ∃ values, (convert fun u ↦ u.toValues (("all", .none) :: inputLiterals) inputTypes).outcome
      pointEngine = .ok values ∧ ∃ n, (convert fun u ↦ u.toValue .root
        (.record "call" inputTypes false) (.record inputLiterals)).outcome pointEngine =
          .ok (.record n values) := by
  have hfree : ∀ input ∈ inputs, input.2.StreamFree := by
    simp [inputs, point, Value.StreamFree, Value.StreamFreeEntries]
  have ordered : inputTypes.Ordered ∧ inputs.Ordered := by decide
  obtain ⟨hwrite, hread⟩ := inputs_record reachable_pointEngine standard_pointEngine ordered.1
    ordered.2 hfree "call"
  obtain ⟨hvalues, hdeclared⟩ := hread inputLiterals
  refine ⟨(hwrite _).mp rfl, _, ?_, (hvalues _).mp rfl⟩
  have hagree : ∀ type ∈ inputTypes, Entries.get? type.1 inputLiterals =
      Entries.get? type.1 (("all", .none) :: inputLiterals) := by
    simp [inputTypes, inputLiterals, Entries.get?]
  rw [outcome, ← (hdeclared _ hagree).1]
  rfl

end Engine

end Interchange
