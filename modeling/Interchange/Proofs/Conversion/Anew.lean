import Interchange.Proofs.Engine

/-!
# Describing types anew

What a session remembers is what describing a type all over again comes to, with nothing remembered
and as many levels as it takes.  `Descriptor.recordDepth` is the number of levels that it takes.  So
a descriptor that an engine serves is never left over from another registry.

How describing ends is said for any invariant of sessions: both describing anew and describing from
memory are instances.
-/

namespace Interchange

open Session Attempt

/-! ## Levels that describing takes -/

namespace Descriptor

/-- How many levels further in the parts of a descriptor are described. -/
def inward : Descriptor → Nat
  | record _ => 1
  | _ => 0

/-- The number of records that are within each other. -/
def recordDepth (d : Descriptor) : Nat :=
  d.fold fun d parts ↦ parts.foldr (fun part n ↦ max (part.2 + d.inward) n) 0

theorem recordDepth_le_iff {d : Descriptor} {n : Nat} :
    d.recordDepth ≤ n ↔ ∀ part ∈ d.parts, part.recordDepth + d.inward ≤ n := by
  rw [recordDepth, fold_eq]
  induction d.parts with
  | nil => simp
  | cons part parts ih =>
    rw [List.map_cons, List.foldr_cons, Nat.max_le, ih, List.forall_mem_cons]
    rfl

theorem recordDepth_part {d part : Descriptor} (h : part ∈ d.parts) :
    part.recordDepth + d.inward ≤ d.recordDepth := recordDepth_le_iff.mp (Nat.le_refl _) part h

theorem recordDepth_field {fields : List (String × Descriptor)} {f : String × Descriptor}
    (h : f ∈ fields) : f.2.recordDepth < (record fields).recordDepth := by
  have hmem : f.2 ∈ (record fields).parts := List.mem_map_of_mem h
  exact recordDepth_part hmem

theorem recordDepth_le_ofMembers {members : List Descriptor} {d : Descriptor} (h : d ∈ members)
    (tagField : String) : d.recordDepth ≤ (ofMembers members tagField).recordDepth := by
  have hmem : d ∈ (ofMembers members tagField).parts := List.mem_eraseDups.mpr h
  exact recordDepth_part hmem

theorem recordDepth_le_orNone (d : Descriptor) : d.recordDepth ≤ d.orNone.recordDepth := by
  cases d with
  | union members tagField =>
    refine recordDepth_le_iff.mpr fun part h ↦ ?_
    exact recordDepth_le_ofMembers (List.mem_append_left _ h) _
  | _ => exact recordDepth_le_ofMembers List.mem_cons_self _

end Descriptor

namespace Registry

variable {r : Registry} {c : Converter} {parts : List (HostType × Descriptor)} {t : HostType}
  {d : Descriptor}

/-- The fields of a record take less than the record. -/
theorem Composes.recordDepth_lt (h : r.Composes .record parts t d) {part : HostType × Descriptor}
    (hp : part ∈ parts) : part.2.recordDepth < d.recordDepth := by
  cases h with
  | @record _ _ fields _ _ _ types =>
    subst types
    obtain ⟨f, hf, rfl⟩ := List.mem_map.mp hp
    have hmem : (f.1, f.2.2) ∈ fields.map fun f ↦ (f.1, f.2.2) := List.mem_map_of_mem hf
    exact Descriptor.recordDepth_field hmem

/-- No part takes more than the whole. -/
theorem Composes.recordDepth_le (h : r.Composes c parts t d) {part : HostType × Descriptor}
    (hp : part ∈ parts) : part.2.recordDepth ≤ d.recordDepth := by
  cases h with
  | primitive | reference | jsonLines | plugin => cases hp
  | @list t d =>
    rw [List.mem_singleton.mp hp]
    have hmem : d ∈ (Descriptor.collection d).parts := List.mem_cons_self
    exact Descriptor.recordDepth_part hmem
  | @dict t d =>
    rw [List.mem_singleton.mp hp]
    have hmem : d ∈ (Descriptor.mapping d).parts := List.mem_cons_self
    exact Descriptor.recordDepth_part hmem
  | optional | orNone =>
    rw [List.mem_singleton.mp hp]
    exact Descriptor.recordDepth_le_orNone _
  | plain => exact Nat.le_of_eq (congrArg (·.2.recordDepth) (List.mem_singleton.mp hp))
  | tagged => exact Descriptor.recordDepth_le_ofMembers (List.mem_map_of_mem hp) _
  | record schema declared types =>
    exact Nat.le_of_lt (recordDepth_lt (.record schema declared types) hp)

end Registry

/-- A refusal for want of levels, where there are too few for a descriptor. -/
def TooDeep (levels : Nat) (d : Descriptor) (e : Fault) : Prop :=
  levels < d.recordDepth ∧ ∃ path, e = .nestingLimit path

/-! ## How describing ends -/

section

variable {r : Registry} {I : Session → Prop} {E : Fault → Prop} {deeper : Option Describer}
  {place : Place} {c : Converter} {t : HostType} {d : Descriptor}
  {parts : List (HostType × Descriptor)} {x : HostType → Conversion Descriptor}

theorem ends_describeMembers (seen : List (HostType × Descriptor))
    (hx : ∀ part ∈ parts, Ends I (· = part.2) E (x part.1))
    (distinct : ((seen ++ parts).map (·.2)).Nodup) :
    Ends I (· = .ofMembers ((seen ++ parts).map (·.2)) Descriptor.defaultTagField) E
      (describeMembers seen (parts.map fun part ↦ (part.1, x part.1))) := by
  induction parts generalizing seen with
  | nil =>
    rw [List.append_nil]
    exact .pure rfl
  | cons part parts ih =>
    obtain ⟨hpart, hparts⟩ := List.forall_mem_cons.mp hx
    rw [List.append_cons] at distinct ⊢
    refine hpart.bind fun d hd ↦ ?_
    subst hd
    have hnew : checkDistinct seen part.1 part.2 = .ok () := by
      refine checkDistinct_eq_ok.mpr fun hmem ↦ ?_
      rw [List.map_append, List.map_append, List.append_assoc, List.nodup_append] at distinct
      exact distinct.2.2 _ hmem part.2 (by simp) rfl
    rw [hnew]
    exact ih _ hparts distinct

theorem ends_describeFields {fields : List (String × HostType × Descriptor)}
    (hlimit : fields ≠ [] → deeper = none → ∀ path, E (.nestingLimit path))
    (h : ∀ describe, deeper = some describe → ∀ f ∈ fields, ∀ place,
      Ends I (· = f.2.2) E (describe place f.2.1)) :
    Ends I (· = fields.map fun f ↦ (f.1, f.2.2)) E
      (describeFields deeper place (fields.map fun f ↦ (f.1, f.2.1))) := by
  induction fields with
  | nil => exact .pure rfl
  | cons f fields ih =>
    cases deeper with
    | none => exact .throw (hlimit (List.cons_ne_nil _ _) rfl _)
    | some describe =>
      obtain ⟨hf, hfields⟩ := List.forall_mem_cons.mp (h describe rfl)
      refine (hf (place.child (.field f.1))).bind fun d hd ↦ ?_
      subst hd
      refine (ih (fun _ h ↦ nomatch h) fun _ hd ↦ ?_).bind fun ds hds ↦ ?_
      · cases hd
        exact hfields
      · subst hds
        exact .pure rfl

namespace Registry

/-- A converter describes a type as it is put together from its parts, if these are described so. -/
theorem Composes.ends_describeBy (h : r.Composes c parts t d)
    (hx : ∀ part ∈ parts, Ends I (· = part.2) E (x part.1))
    (hlimit : c = .record → parts ≠ [] → deeper = none → ∀ path, E (.nestingLimit path))
    (hdeeper : c = .record → ∀ describe, deeper = some describe → ∀ part ∈ parts, ∀ place,
      Ends I (· = part.2) E (describe place part.1)) :
    Ends I (· = d) E (r.describeBy deeper place c t (t.parts.map fun part ↦ (part, x part))) := by
  cases h with
  | primitive | reference | jsonLines => exact .pure rfl
  | plugin described =>
    show Ends I _ E (.ofExcept _)
    rw [described]
    exact .pure rfl
  | list | dict | optional =>
    refine (hx _ List.mem_cons_self).map fun d hd ↦ ?_
    rw [hd]
  | plain form member =>
    simp only [describeBy, HostType.parts, valued?_map, form, member, Option.map_some]
    exact hx _ List.mem_cons_self
  | orNone form member =>
    simp only [describeBy, HostType.parts, valued?_map, form, member, Option.map_some]
    refine (hx _ List.mem_cons_self).map fun d hd ↦ ?_
    rw [hd]
  | tagged form types distinct =>
    subst types
    simp only [describeBy, HostType.parts, form, List.map_map]
    exact ends_describeMembers [] hx distinct
  | @record _ s fields _ schema declared types =>
    subst types
    show Ends I _ E (.ofExcept (r.schemaOf t) >>= _)
    rw [schema]
    show Ends I _ E (describeFields deeper place s.fields >>= _)
    rw [declared]
    refine (ends_describeFields (fun hne hnone ↦ ?_) fun describe hd f hf ↦ ?_).bind
      fun ds hds ↦ ?_
    · exact hlimit rfl (by simpa using hne) hnone
    · exact hdeeper rfl describe hd f.2 (List.mem_map_of_mem hf)
    · rw [hds]
      exact .pure rfl

end Registry

end

/-! ## Describing with nothing remembered -/

namespace Registry

/-- Describes a type by its converter, given how its parts are described. -/
def describeAnewStep (r : Registry) (deeper : Option Describer) (place : Place) (t : HostType)
    (parts : List (HostType × Conversion Descriptor)) : Conversion Descriptor := do
  r.describeBy deeper place (← .ofExcept (r.resolve t)) t parts

/-- Describes a type, given how types are described one level further in. -/
def describeAnewWith (r : Registry) (deeper : Option Describer) : Describer :=
  fun place ↦ HostType.fold (r.describeAnewStep deeper place)

/-- Describes a type where so many levels are left, and its parts as often as they occur. -/
def describeAnew (r : Registry) : Nat → Describer
  | 0 => r.describeAnewWith none
  | levels + 1 => r.describeAnewWith (some (r.describeAnew levels))

theorem describeAnew_eq (r : Registry) (levels : Nat) (place : Place) (t : HostType) :
    r.describeAnew levels place t = r.describeAnewStep (below r.describeAnew levels) place t
      (t.parts.map fun part ↦ (part, r.describeAnew levels place part)) := by
  cases levels <;> exact HostType.fold_eq _ t

/-- What a type is described as, all the way down, whatever is known. -/
abbrev IsDescribed (r : Registry) (t : HostType) (d : Descriptor) : Prop :=
  r.Described (fun _ _ ↦ True) t d

variable {r : Registry} {c : Converter} {parts : List (HostType × Descriptor)} {t : HostType}
  {d d' : Descriptor} {known : Knowledge} {I : Session → Prop} {s : Session}

/-- A step of describing finds the descriptor of a type or is refused for want of levels, if all
work on its parts does. -/
theorem ends_describeAnewStep {work : Nat → Describer} (resolved : r.resolve t = .ok c)
    (composed : r.Composes c parts t d)
    (h : ∀ part ∈ parts, ∀ levels place,
      Ends I (· = part.2) (TooDeep levels part.2) (work levels place part.1))
    (levels : Nat) (place : Place) :
    Ends I (· = d) (TooDeep levels d) (r.describeAnewStep (below work levels) place t
      (t.parts.map fun part ↦ (part, work levels place part))) := by
  rw [describeAnewStep, resolved]
  refine composed.ends_describeBy (fun part hp ↦ ?_) ?_ ?_
  · refine (h part hp levels place).mono (fun _ h ↦ h) ?_
    rintro e ⟨hlt, hpath⟩
    exact ⟨Nat.lt_of_lt_of_le hlt (composed.recordDepth_le hp), hpath⟩
  · rintro rfl hne hnone path
    obtain ⟨part, hp⟩ := List.exists_mem_of_ne_nil _ hne
    cases levels with
    | zero => exact ⟨Nat.zero_lt_of_lt (composed.recordDepth_lt hp), path, rfl⟩
    | succ levels => cases hnone
  · rintro rfl describe hd part hp place
    obtain ⟨n, rfl, rfl⟩ := below_eq_some.mp hd
    refine (h part hp n place).mono (fun _ h ↦ h) ?_
    rintro e ⟨hlt, hpath⟩
    exact ⟨Nat.lt_of_le_of_lt hlt (composed.recordDepth_lt hp), hpath⟩

theorem Described.isDescribed (h : r.Described known t d) : r.IsDescribed t d :=
  h.mono fun _ _ _ ↦ trivial

/-- Describing a type anew finds what it is described as or is refused for want of levels. -/
theorem Described.ends_describeAnew (h : r.Described known t d) (levels : Nat) (place : Place) :
    Ends (· = s) (· = d) (TooDeep levels d) (r.describeAnew levels place t) := by
  induction h generalizing levels place with
  | intro _ resolved composed _ ih =>
    rw [describeAnew_eq]
    exact ends_describeAnewStep resolved composed ih levels place

/-- With levels enough, describing a type anew finds what it is described as. -/
theorem Described.run_describeAnew (h : r.Described known t d) {levels : Nat}
    (hl : d.recordDepth ≤ levels) (place : Place) (s : Session) :
    (r.describeAnew levels place t).run s = (.ok d, s) := by
  have hends := h.ends_describeAnew levels place (s := s)
  rcases hrun : (r.describeAnew levels place t).run s with ⟨e | d', s'⟩
  · exact absurd (hends.of_error rfl hrun).2.1 (Nat.not_lt.mpr hl)
  · obtain ⟨rfl, rfl⟩ := hends.of_ok rfl hrun
    rfl

/-- A type is described in one way only. -/
theorem IsDescribed.unique (h : r.IsDescribed t d) (h' : r.IsDescribed t d') : d = d' := by
  let s : Session := .start (.inMemory "")
  have hd := h.run_describeAnew (Nat.le_max_left d.recordDepth d'.recordDepth) .root s
  have hd' := h'.run_describeAnew (Nat.le_max_right d.recordDepth d'.recordDepth) .root s
  have heq := congrArg Prod.fst (hd.symm.trans hd')
  exact Except.ok.inj heq

/-- A type is described as its converter puts it together from what its parts are described as. -/
theorem Composes.isDescribed (h : r.Composes c parts t d) (resolved : r.resolve t = .ok c)
    (hp : ∀ part ∈ parts, r.IsDescribed part.1 part.2) : r.IsDescribed t d :=
  .intro trivial resolved h hp

end Registry

/-! ## Describing from memory -/

namespace Session

variable {r : Registry} {known : Knowledge} {base s : Session} {t : HostType} {d : Descriptor}

theorem Coherent.isDescribed (hs : s.Coherent r) (h : s.known t d) : r.IsDescribed t d :=
  (hs t d h).isDescribed

/-- A session that differs from another at most in what it remembers, which is nothing but what is
known. -/
structure Inside (known : Knowledge) (base s : Session) : Prop where
  same : s = { base with described := s.described }
  knows : ∀ t d, s.known t d → known t d

theorem Inside.remember (h : Inside known base s) (hd : known t d) :
    Inside known base (s.remember t d) := by
  constructor
  · rw [Session.remember, h.same]
  · intro t' d' h'
    rw [known_remember] at h'
    split at h'
    · next ht => rwa [ht, h']
    · exact h.knows t' d' h'

/-- What is remembered is as good as what is described anew. -/
theorem ends_remembering {E : Fault → Prop} {x : Conversion Descriptor}
    (hx : Ends (Inside known base) (· = d) E x) (hd : known t d)
    (unique : ∀ d', known t d' → d' = d) :
    Ends (Inside known base) (· = d) E (remembering t x) := by
  intro s hs
  rw [run_remembering]
  cases ht : s.described? t with
  | some d' => exact ⟨hs, unique d' (hs.knows t d' ht)⟩
  | none =>
    rcases hrun : x.run s with ⟨e | d', s'⟩
    · exact hx.of_error hs hrun
    · obtain ⟨hs', rfl⟩ := hx.of_ok hs hrun
      exact ⟨hs'.remember hd, rfl⟩

end Session

/-- Where all that may be remembered is known, and unambiguous, describing a known type finds its
descriptor or is refused for want of levels, and remembers nothing else. -/
theorem Registry.Described.ends_describe {r : Registry} {known : Knowledge} {t : HostType}
    {d : Descriptor} (h : r.Described known t d)
    (unique : ∀ t d d', known t d → known t d' → d = d') (base : Session) (levels : Nat)
    (place : Place) :
    Ends (Inside known base) (· = d) (TooDeep levels d) (r.describe levels place t) := by
  induction h generalizing levels place with
  | intro isKnown resolved composed _ ih =>
    rw [describe_eq]
    have hstep := ends_describeAnewStep resolved composed ih levels place
    exact ends_remembering hstep isKnown fun d' hd' ↦ unique _ _ _ hd' isKnown

/-- All that a type is about is described in some way if the type is. -/
theorem Registry.IsDescribed.described {r : Registry} {t : HostType} {d : Descriptor}
    (h : r.IsDescribed t d) : r.Described r.IsDescribed t d := by
  induction h with
  | intro _ resolved composed described ih =>
    exact .intro (composed.isDescribed resolved described) resolved composed ih

/-- Describing a type finds what it is described as or is refused for want of levels, if nothing
else is remembered of any type. -/
theorem Registry.IsDescribed.ends_describe {r : Registry} {t : HostType} {d : Descriptor}
    (h : r.IsDescribed t d) (base : Session) (levels : Nat) (place : Place) :
    Ends (Inside r.IsDescribed base) (· = d) (TooDeep levels d) (r.describe levels place t) :=
  h.described.ends_describe (fun _ _ _ h h' ↦ h.unique h') base levels place

theorem Session.Coherent.inside {r : Registry} {s : Session} (hs : s.Coherent r) :
    Inside r.IsDescribed s s := ⟨rfl, fun _ _ h ↦ hs.isDescribed h⟩

namespace Registry

variable {r : Registry} {t : HostType} {d : Descriptor}

/-- What describing finds is what a type is described as. -/
theorem ends_describe (levels : Nat) (place : Place) (t : HostType) :
    Ends (Coherent r) (r.IsDescribed t) (fun _ ↦ True) (r.describe levels place t) := by
  have hdescribes := describes_describe (r := r) levels place t
  intro s hs
  rcases hrun : (r.describe levels place t).run s with ⟨e | d, s'⟩
  · exact ⟨(hdescribes.within.of_run hrun hs).1, trivial⟩
  · have hs' := (hdescribes.within.of_run hrun hs).1
    exact ⟨hs', hs'.isDescribed (hdescribes.remembered hs hrun)⟩

theorem IsDescribed.ends_describe_coherent (h : r.IsDescribed t d) (levels : Nat) (place : Place) :
    Ends (Coherent r) (· = d) (fun _ ↦ True) (r.describe levels place t) :=
  (Registry.ends_describe levels place t).mono (fun _ h' ↦ h'.unique h) fun _ h ↦ h

end Registry

/-! ## Descriptors that engines serve -/

namespace Engine

variable {e : Engine} {place : Place} {t : HostType} {d : Descriptor}

/-- What an engine says a type is described as is what the type is described as by the registry
there is. -/
theorem Reachable.isDescribed (he : e.Reachable)
    (h : (convert fun u ↦ u.describe place t).outcome e = .ok d) :
    e.setup.registry.IsDescribed t d :=
  of_outcome_eq_ok _ (Registry.ends_describe (e.setup.levels place) place t) he.coherent h

/-- A type that is described in some way is described so by any engine, if it has the levels. -/
theorem Under.outcome_describe {u : Setup} (he : e.Under u) (h : u.registry.IsDescribed t d)
    (place : Place) :
    (convert fun u ↦ u.describe place t).outcome e = .ok d ∨
      u.levels place < d.recordDepth ∧
        ∃ path, (convert fun u ↦ u.describe place t).outcome e = .error (.nestingLimit path) := by
  obtain ⟨he, rfl⟩ := he
  have hends := h.ends_describe e.session (e.setup.levels place) place
  have hs : Inside e.setup.registry.IsDescribed e.session e.session :=
    Session.Coherent.inside he.coherent
  rcases outcome_of_ends (fun u ↦ u.describe place t) hends hs with
    ⟨_, hd, rfl⟩ | ⟨_, hf, hdeep, path, rfl⟩
  · exact .inl hd
  · exact .inr ⟨hdeep, path, hf⟩

/-- In whatever state an engine is, what it says a type is described as is what describing the type
by the registry there is comes to, with nothing remembered and all the levels that it takes. -/
theorem run_describeAnew_of_describe (he : e.Reachable)
    (h : (convert fun u ↦ u.describe place t).outcome e = .ok d) {levels : Nat}
    (hl : d.recordDepth ≤ levels) (place' : Place) (s : Session) :
    (e.setup.registry.describeAnew levels place' t).run s = (.ok d, s) :=
  (he.isDescribed h).run_describeAnew hl place' s

/-- Boxes of a kind of plain data. -/
def boxSchema (k : Kind) : Schema := ⟨"box", [("content", .ofKind k)], false⟩

/-- An engine that described lists of boxes of integers before boxes were declared to be of
strings. -/
def boxEngine : Engine :=
  let registry := Registry.defaults.declareRecord (boxSchema .integer)
  let e := start Settings.defaults registry ⟨Settings.sharedWorker⟩ (.inMemory "")
  let e := ((convert fun u ↦ u.describe .root (.list (.named "box"))).run e).2
  ((declareRecord (boxSchema .string)).run e).2

theorem reachable_boxEngine : boxEngine.Reachable :=
  ((reachable_start _ _ _ _).step (.converts (.call (.describe .root _) _))).step
    (.declareRecord _ _)

/-- Boxes are served as they are declared now. -/
theorem run_describeAnew_box :
    (boxEngine.setup.registry.describeAnew 1 .root (.list (.named "box"))).run boxEngine.session =
      (.ok (.collection (.record [("content", .primitive .string)])), boxEngine.session) := by
  have h : (convert fun u ↦ u.describe .root (.list (.named "box"))).outcome boxEngine =
      .ok (.collection (.record [("content", .primitive .string)])) := rfl
  exact run_describeAnew_of_describe reachable_boxEngine h (Nat.le_refl 1) .root _

end Engine

end Interchange
