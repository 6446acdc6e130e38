import Interchange.Proofs.Conversion.Writes
import Interchange.Proofs.Engine

/-!
# Produced literals conform

Whatever literal is written for a value has the shape that its host type is described as, by
induction on the rules of writing: optional values conform to the union with none, tagged ones to
the member they are written as, records have all fields that are described.  So verifying literals
never refuses one, and makes no difference.
-/

namespace Interchange

open Session Attempt

/-! ## Conformance to unions -/

namespace Literal

variable {l : Literal} {d : Descriptor} {members members' : List Descriptor} {tagField : String}

/-- A literal that conforms to a union conforms to one with more members. -/
theorem conforms_union_mono (h : l.conforms (.union members tagField) = true)
    (hm : members ⊆ members') (tagField' : String) :
    l.conforms (.union members' tagField') = true := by
  cases hl : l.isUntagged with
  | true =>
    rw [conforms_union_of_isUntagged hl, List.any_eq_true] at h ⊢
    obtain ⟨d, hd, h⟩ := h
    exact ⟨d, hm hd, h⟩
  | false =>
    cases l with
    | union type value =>
      rw [conforms_union_union, Bool.and_eq_true, List.contains_iff_mem] at h ⊢
      exact ⟨hm h.1, h.2⟩
    | _ => cases hl

theorem conforms_union_of_mem (hl : l.isUntagged = true) (hd : d ∈ members)
    (h : l.conforms d = true) : l.conforms (.union members tagField) = true := by
  rw [conforms_union_of_isUntagged hl, List.any_eq_true]
  exact ⟨d, hd, h⟩

theorem subset_eraseDups (ds : List Descriptor) : ds ⊆ ds.eraseDups := fun _ h ↦
  List.mem_eraseDups.mpr h

/-- A literal that conforms to a type conforms to it or none. -/
theorem conforms_orNone (h : l.conforms d = true) : l.conforms d.orNone = true := by
  have hself {d : Descriptor} (hl : l.isUntagged = true) (h : l.conforms d = true) :
      l.conforms (.ofMembers [d, .primitive .none] Descriptor.defaultTagField) = true :=
    conforms_union_of_mem hl (subset_eraseDups _ List.mem_cons_self) h
  cases d with
  | union members tagField =>
    refine conforms_union_mono h ?_ _
    exact List.Subset.trans (List.subset_append_left _ _) (subset_eraseDups _)
  | _ =>
    cases l with
    | union type value => cases h
    | _ => exact hself rfl h

theorem conforms_none_orNone (d : Descriptor) : none.conforms d.orNone = true := by
  have hnone : none.conforms (.primitive .none) = true := by
    simp [conforms, none, Descriptor.someMember, Scalar.kind]
  cases d with
  | union members tagField =>
    refine conforms_union_of_mem rfl (subset_eraseDups _ ?_) hnone
    exact List.mem_append_right _ List.mem_cons_self
  | _ => exact conforms_union_of_mem rfl (subset_eraseDups _ (by simp)) hnone

/-- Under the tag of a member, what conforms to the member conforms to the union. -/
theorem conforms_union_ofMembers {ds : List Descriptor} (hd : d ∈ ds)
    (h : l.conforms d = true) (tagField : String) :
    (union d l).conforms (.ofMembers ds tagField) = true := by
  rw [Descriptor.ofMembers, conforms_union_union, Bool.and_eq_true, List.contains_iff_mem,
    List.mem_eraseDups]
  exact ⟨hd, h⟩

/-! ## Conformance of items -/

theorem conformAll_iff {ls : List Literal} :
    conformAll ls d = true ↔ ∀ l ∈ ls, l.conforms d = true := by
  induction ls with
  | nil => simp [conformAll]
  | cons l ls ih => simp [conformAll, ih]

theorem conformEntries_iff {es : List (String × Literal)} :
    conformEntries es d = true ↔ ∀ e ∈ es, e.2.conforms d = true := by
  induction es with
  | nil => simp [conformEntries]
  | cons e es ih => simp [conformEntries, ih]

/-- An item that is there under a name conforms if all items under it do. -/
theorem conformsField_of_forall {es : List (String × Literal)} {name : String}
    (hmem : ∃ e ∈ es, e.1 = name) (h : ∀ e ∈ es, e.1 = name → e.2.conforms d = true) :
    conformsField es name d = true := by
  induction es with
  | nil =>
    obtain ⟨e, he, -⟩ := hmem
    cases he
  | cons e es ih =>
    obtain ⟨he, hes⟩ := List.forall_mem_cons.mp h
    unfold conformsField
    split
    · next hname => exact he hname.symm
    · next hname =>
      refine ih ?_ hes
      obtain ⟨e', he', hn⟩ := hmem
      rcases List.mem_cons.mp he' with rfl | he'
      · exact absurd hn.symm hname
      · exact ⟨e', he', hn⟩

theorem conforms_collection {ls : List Literal} :
    (collection ls).conforms (.collection d) = true ↔ ∀ l ∈ ls, l.conforms d = true := by
  simp [conforms, Descriptor.someMember, conformAll_iff]

theorem conforms_mapping {es : List (String × Literal)} :
    (mapping es).conforms (.mapping d) = true ↔ ∀ e ∈ es, e.2.conforms d = true := by
  simp [conforms, Descriptor.someMember, conformEntries_iff]

theorem conforms_record {es : List (String × Literal)} {types : List (String × Descriptor)} :
    (record es).conforms (.record types) = true ↔ ∀ f ∈ types, conformsField es f.1 f.2 = true := by
  simp [conforms, Descriptor.someMember]

end Literal

/-! ## Conformance of what is written -/

theorem exists_mem_zipIdx {α : Type} {a : α} {as : List α} (h : a ∈ as) (i : Nat) :
    ∃ j, (a, j) ∈ as.zipIdx i := by
  rw [← List.zipIdx_map_fst i as] at h
  obtain ⟨item, hitem, rfl⟩ := List.mem_map.mp h
  exact ⟨item.2, hitem⟩

namespace Registry

variable {r : Registry} {known : Knowledge} {levels : Nat} {place : Place} {t : HostType}
  {d : Descriptor} {v : Value} {l : Literal}

/-- With distinct names, each declared field is the one that is found under its name. -/
theorem Declares.lookup {s : Schema} {declared : List (String × HostType × Descriptor)}
    (h : r.Declares t s declared) (ht : r.DistinctFields t) {f : String × HostType × Descriptor}
    (hf : f ∈ declared) : declared.lookup f.1 = some f.2 := by
  have hnodup : (declared.map (·.1)).Nodup := by
    have hs := ht.nodup h.resolved h.schema
    rwa [h.fields, List.map_map] at hs
  exact Entries.lookup_of_mem hnodup hf

theorem Declares.contains {s : Schema} {declared : List (String × HostType × Descriptor)}
    (h : r.Declares t s declared) {f : String × HostType × Descriptor} (hf : f ∈ declared) :
    r.Contains t f.2.1 := by
  have hmem : (f.1, f.2.1) ∈ s.fields := by
    rw [h.fields]
    exact List.mem_map_of_mem hf
  exact .field h.resolved h.schema hmem

/-- A record conforms if it has every declared field, and what it has for one conforms to it. -/
theorem Declares.conforms {s : Schema} {declared : List (String × HostType × Descriptor)}
    (h : r.Declares t s declared) (ht : r.DistinctFields t) {es : List (String × Literal)}
    (complete : ∀ f ∈ declared, ∃ e ∈ es, e.1 = f.1)
    (each : ∀ e ∈ es, ∀ t d, declared.lookup e.1 = some (t, d) → e.2.conforms d = true) :
    (Literal.record es).conforms (.record (declared.map fun f ↦ (f.1, f.2.2))) = true := by
  refine Literal.conforms_record.mpr ?_
  intro type htype
  obtain ⟨f, hf, rfl⟩ := List.mem_map.mp htype
  refine Literal.conformsField_of_forall (complete f hf) fun e he hname ↦ ?_
  have hlookup := h.lookup ht hf
  rw [← hname] at hlookup
  exact each e he _ _ hlookup

theorem Nullable.contains {inner : HostType} (h : r.Nullable t inner) : r.Contains t inner := by
  cases h with
  | optional => exact .part List.mem_cons_self
  | union _ _ member => exact .part (List.mem_of_find?_eq_some member)

theorem Plain.contains {members : List HostType} (h : r.Plain members t) :
    r.Contains (.union members) t := .part (List.mem_of_find?_eq_some h.member)

/-- The literal that is written for a value conforms to what its host type is described as. -/
theorem Writes.conforms (h : r.Writes known levels place t d v l) (ht : r.DistinctFields t) :
    l.conforms d = true := by
  induction h with
  | primitive _ read => simp [Literal.conforms, Descriptor.someMember, Scalar.kind_of_as? read]
  | reference => simp [Literal.conforms, Descriptor.someMember]
  | list _ _ _ ih =>
    have ht := ht.of_contains (.part List.mem_cons_self)
    refine Literal.conforms_collection.mpr ?_
    intro l hl
    obtain ⟨item, hitem, rfl⟩ := List.mem_map.mp hl
    obtain ⟨i, hi⟩ := exists_mem_zipIdx hitem 0
    exact ih (item, i) hi ht
  | stream _ _ ih =>
    have ht := ht.of_contains (.part List.mem_cons_self)
    refine Literal.conforms_collection.mpr ?_
    intro l hl
    obtain ⟨item, hitem, rfl⟩ := List.mem_map.mp hl
    obtain ⟨i, hi⟩ := exists_mem_zipIdx hitem 0
    exact ih (item, i) hi ht
  | dict _ _ _ ih =>
    have ht := ht.of_contains (.part List.mem_cons_self)
    refine Literal.conforms_mapping.mpr ?_
    intro e he
    obtain ⟨entry, hentry, rfl⟩ := List.mem_map.mp he
    exact ih entry hentry ht
  | absent => exact Literal.conforms_none_orNone _
  | present nullable _ _ ih => exact Literal.conforms_orNone (ih (ht.of_contains nullable.contains))
  | plain plain _ ih => exact ih (ht.of_contains plain.contains)
  | @tagged _ _ _ member _ _ tagged accepted _ ih =>
    have hmem := List.mem_of_find?_eq_some accepted
    refine Literal.conforms_union_ofMembers (List.mem_map_of_mem hmem) (ih ?_) _
    exact ht.of_contains (.part (List.mem_map_of_mem hmem))
  | @record _ _ _ _ declared _ fields declares complete _ _ _ _ ih =>
    refine declares.conforms ht ?_ ?_
    · intro f hf
      obtain ⟨field, hfield, hname⟩ := complete f hf
      exact ⟨(field.1, field.2.2), List.mem_map_of_mem hfield, hname⟩
    · intro e he t d hlookup
      obtain ⟨field, hfield, rfl⟩ := List.mem_map.mp he
      have hf := Entries.mem_of_lookup hlookup
      exact ih field hfield t d hlookup (ht.of_contains (declares.contains hf))

/-! ## What the worker is asked -/

variable {c : Converter}

theorem encodeBy_congr (hc : c.isBuiltin) (ask ask' : Delegate) (deeper : Option Encoder)
    (parts : List (HostType × (Value → Descriptor → Conversion Literal))) :
    r.encodeBy (some ask) levels deeper place c t parts v d =
      r.encodeBy (some ask') levels deeper place c t parts v d := by
  cases c with
  | jsonLines | plugin => cases hc
  | optional => cases t <;> rcases parts with _ | ⟨part, _ | _⟩ <;> rfl
  | _ => cases t <;> rfl

/-- Built-in converters ask nothing of the worker, so it does not matter what it could answer. -/
theorem encode_congr (hr : r.Builtin) (ask ask' : Delegate) (levels : Nat) :
    r.encode (some ask) levels = r.encode (some ask') levels := by
  funext place t
  induction levels, t using HostType.levels_induction generalizing place with
  | step levels t deeper ih =>
    have hbelow : below (r.encode (some ask)) levels = below (r.encode (some ask')) levels := by
      cases levels with
      | zero => rfl
      | succ levels =>
        refine congrArg some ?_
        funext place t
        exact deeper levels rfl t place
    have hparts := List.map_congr_left fun part hpart ↦
      congrArg (Prod.mk part) (ih part hpart place)
    funext v d
    rw [encode_eq, encode_eq, encodeStep, encodeStep, hbelow, hparts]
    cases hc : r.resolve t with
    | error e => rfl
    | ok c => exact encodeBy_congr (hr.resolve hc) ask ask' _ _

end Registry

/-! ## Verification -/

namespace Setup

variable {u : Setup} {worker : Option Delegate} {place : Place} {t : HostType} {d : Descriptor}
  {v : Value} {l : Literal} {s s' : Session}

/-- The same, but literals are verified or not. -/
def verifying (u : Setup) (verify : Bool) : Setup :=
  { u with settings := { u.settings with verify } }

theorem verified_of_conforms (h : l.conforms d = true) : u.verified place d l = .ok l := by
  simp [verified, h]

theorem eq_of_verified {l' : Literal} (h : u.verified place d l = .ok l') : l = l' := by
  unfold verified at h
  split at h
  · cases h
  · cases h
    rfl

section

variable (hr : u.registry.Builtin) (hw : ∀ ask, worker = some ask → ask.Keeping u.registry)
  (hs : s.Coherent u.registry)

include hr hw hs

/-- What is encoded as a type that was described is written by the rules, and the session goes on
remembering all that the rules refer to. -/
theorem writes_of_describe {s₁ : Session} (hd : (u.describe place t).run s = (.ok d, s₁))
    (hl : (u.registry.encode worker (u.levels place) place t v d).run s₁ = (.ok l, s')) :
    u.registry.Writes s₁.known (u.levels place) place t d v l ∧ s'.Recalls u.registry s₁.known := by
  have hdescribes := Registry.describes_describe (r := u.registry) (u.levels place) place t
  have hs₁ := (hdescribes.within.of_run hd hs).1
  have hrecalls : s₁.Recalls u.registry s₁.known := ⟨hs₁, fun _ _ h ↦ h⟩
  have hdescribed := hs₁ t d (hdescribes.remembered hs hd)
  exact ⟨Registry.encodesAsWritten hr hw hdescribed hrecalls hl,
    hrecalls.grows ((Registry.keeps_encode hw _ _ _ _ _).of_run hl)⟩

/-- A literal is written for a type as it is described. -/
theorem toLiteralBy_ok (h : (u.toLiteralBy worker place t v).run s = (.ok l, s')) :
    ∃ d s₁, (u.describe place t).run s = (.ok d, s₁) ∧ s₁.known t d ∧
      u.registry.Writes s₁.known (u.levels place) place t d v l ∧
      s'.Recalls u.registry s₁.known := by
  obtain ⟨d, s₁, hd, h⟩ := run_bind_eq_ok.mp h
  obtain ⟨l', s₂, hl, h⟩ := run_bind_eq_ok.mp h
  obtain rfl : l' = l := eq_of_verified (congrArg Prod.fst h)
  obtain rfl : s₂ = s' := congrArg Prod.snd h
  have hknown := (Registry.describes_describe (u.levels place) place t).remembered hs hd
  exact ⟨d, s₁, hd, hknown, writes_of_describe hr hw hs hd hl⟩

/-- Where names of fields are distinct, literals are encoded as if none were verified. -/
theorem run_toLiteralBy (ht : u.registry.DistinctFields t) :
    (u.toLiteralBy worker place t v).run s =
      (u.describe place t >>= u.registry.encode worker (u.levels place) place t v).run s := by
  rw [toLiteralBy, run_bind, run_bind]
  rcases hd : (u.describe place t).run s with ⟨e | d, s₁⟩
  · rfl
  · dsimp only
    rw [run_bind]
    rcases hl : (u.registry.encode worker (u.levels place) place t v d).run s₁ with ⟨e | l, s₂⟩
    · rfl
    · have hconforms := (writes_of_describe hr hw hs hd hl).1.conforms ht
      simp only [verified_of_conforms hconforms, run_ofExcept]

end

/-- Verifying literals or not makes no difference where names of fields are distinct. -/
theorem run_toLiteral_verifying (hr : u.registry.Builtin) (hs : s.Coherent u.registry)
    (ht : u.registry.DistinctFields t) (verify : Bool) :
    ((u.verifying verify).toLiteral place t v).run s = (u.toLiteral place t v).run s := by
  have hdescribe : (u.verifying verify).describe place t = u.describe place t := rfl
  have hencode : (u.verifying verify).registry.encode (some (u.verifying verify).delegate)
      ((u.verifying verify).levels place) = u.registry.encode (some u.delegate) (u.levels place) :=
    Registry.encode_congr hr _ _ _
  calc ((u.verifying verify).toLiteral place t v).run s
    _ = _ := run_toLiteralBy (u := u.verifying verify) hr (fun _ ↦ keeping_delegate) hs ht
    _ = (u.describe place t >>=
          u.registry.encode (some u.delegate) (u.levels place) place t v).run s := by
        rw [hdescribe, hencode]
    _ = (u.toLiteral place t v).run s :=
        (run_toLiteralBy hr (fun _ ↦ keeping_delegate) hs ht).symm

end Setup

namespace Engine

/-- The same, but literals are verified or not. -/
def verifying (e : Engine) (verify : Bool) : Engine := { e with setup := e.setup.verifying verify }

variable {e : Engine} {t : HostType}

/-- Every literal that is produced conforms to the descriptor of its host type, whether literals
are verified or not, and verifying them makes no difference to what comes out and to the engine. -/
theorem toLiteral_conforms (he : e.Reachable) (hr : e.setup.registry.Standard)
    (ht : e.setup.registry.DistinctFields t) (place : Place) (v : Value) :
    (∀ l e', (convert fun u ↦ u.toLiteral place t v).run e = (.ok l, e') →
      ∃ d, (convert fun u ↦ u.describe place t).outcome e = .ok d ∧
        (convert fun u ↦ u.describe place t).run e' = (.ok d, e') ∧ l.conforms d = true) ∧
    ∀ verify, (convert fun u ↦ u.toLiteral place t v).run (e.verifying verify) =
      (((convert fun u ↦ u.toLiteral place t v).run e).1,
        ((convert fun u ↦ u.toLiteral place t v).run e).2.verifying verify) := by
  have hs := he.coherent
  constructor
  · intro l e' hl
    obtain ⟨s', h, rfl⟩ := run_convert_eq_ok.mp hl
    obtain ⟨d, s₁, hd, hknown, hwrites, hrecalls⟩ :=
      Setup.toLiteralBy_ok hr.builtin (fun _ ↦ Setup.keeping_delegate) hs h
    have hknown' : s'.known t d := hrecalls.knows t d hknown
    refine ⟨d, ?_, ?_, hwrites.conforms ht⟩
    · exact outcome_of_run (run_convert_of_run hd)
    · exact run_convert_of_run (run_describe_of_known hknown' _ _)
  · intro verify
    have hrun : ((e.setup.verifying verify).toLiteral place t v).run e.session =
        (e.setup.toLiteral place t v).run e.session :=
      Setup.run_toLiteral_verifying hr.builtin hs ht verify
    exact run_convert_of_run (Prod.ext (congrArg Prod.fst hrun) (congrArg Prod.snd hrun))

/-! ## Points -/

/-- A record with a number and a label, which takes further fields. -/
def pointSchema : Schema :=
  ⟨"point", [("x", .ofKind .float), ("label", .union [.ofKind .integer, .ofKind .string])], true⟩

/-- An engine that has points beside the built-in types. -/
def pointEngine : Engine :=
  start Settings.defaults (Registry.defaults.declareRecord pointSchema) ⟨Settings.sharedWorker⟩
    (.inMemory Settings.defaults.area)

/-- A point with an integer for a number, and with a note. -/
def point : Value :=
  .record (some "point") [("label", .scalar (.string "a")), ("note", .record (some "note") []),
    ("x", .scalar (.integer 3))]

def pointLiteral : Literal :=
  .record [("label", .union (.primitive .string) (.scalar (.string "a"))), ("note", .record []),
    ("x", .scalar (.float (.ofInt 3)))]

theorem reachable_pointEngine : pointEngine.Reachable := reachable_start _ _ _ _

theorem standard_pointEngine : pointEngine.setup.registry.Standard :=
  Registry.standard_defaults.declareRecord pointSchema

theorem distinctFields_point : pointEngine.setup.registry.DistinctFields (.named "point") :=
  have hcloses : pointEngine.setup.registry.closes [.named "point", .ofKind .float,
    .union [.ofKind .integer, .ofKind .string], .ofKind .integer, .ofKind .string] = true := by
    decide +kernel
  Registry.distinctFields_of_closes hcloses List.mem_cons_self

theorem toLiteral_conforms_point :
    (∃ d, (convert fun u ↦ u.describe .root (.named "point")).outcome pointEngine = .ok d ∧
      pointLiteral.conforms d = true) ∧
    (convert fun u ↦ u.toLiteral .root (.named "point") point).outcome
      (pointEngine.verifying false) = .ok pointLiteral := by
  obtain ⟨hconforms, hverifying⟩ := toLiteral_conforms reachable_pointEngine standard_pointEngine
    distinctFields_point .root point
  have hrun : ((convert fun u ↦ u.toLiteral .root (.named "point") point).run pointEngine).1 =
      .ok pointLiteral := rfl
  constructor
  · obtain ⟨d, hd, -, hl⟩ := hconforms pointLiteral _ (Prod.ext hrun rfl)
    exact ⟨d, hd, hl⟩
  · rw [outcome, hverifying, hrun]

end Engine

end Interchange
