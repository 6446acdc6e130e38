import Interchange.Proofs.Conversion.Described
import Interchange.Proofs.Session

/-!
# Describing types remembers them

Whatever describing a type comes to, a coherent session stays coherent and forgets nothing; if it
succeeds, the type is known to be described so.  One lemma for each function that describes says
what it finds, the last one goes by induction on the levels and the parts of the type.

A property of values and faults of types that passes to a bind, as a compositional one does, passes
from describing the parts of a type to describing the type, but for remembering it.
-/

namespace Interchange

open Session Attempt

/-! ## Faults of types -/

/-- What describing a type can come to if it finds no descriptor. -/
inductive Fault.OfType : Fault → Prop
  | unsupportedType (type : String) : OfType (.unsupportedType type)
  | ambiguousType (descriptor : String) (candidates : List String) :
      OfType (.ambiguousType descriptor candidates)
  | nestingLimit (path : Path) : OfType (.nestingLimit path)

section

variable {t : HostType} {f : Fault}

theorem ofType_of_enter {α : Type} {deeper : Option α} {place : Place} {seg : Segment}
    (h : enter deeper place seg = .error f) : f.OfType := by
  cases deeper with
  | none =>
    cases h
    exact .nestingLimit _
  | some a => cases h

theorem ofType_of_checkDistinct {seen : List (HostType × Descriptor)} {d : Descriptor}
    (h : checkDistinct seen t d = .error f) : f.OfType := by
  unfold checkDistinct at h
  split at h
  · cases h
    exact .ambiguousType _ _
  · cases h

namespace Registry

variable {r : Registry}

theorem ofType_of_resolve (h : r.resolve t = .error f) : f.OfType := by
  simp only [resolve] at h
  split at h
  · cases h
  · cases h
    exact .unsupportedType _

theorem ofType_of_schemaOf (h : r.schemaOf t = .error f) : f.OfType := by
  cases t with
  | named name =>
    simp only [schemaOf] at h
    split at h
    · cases h
    · cases h
      exact .unsupportedType _
  | record => cases h
  | _ =>
    cases h
    exact .unsupportedType _

end Registry

end

/-! ## Properties of describing -/

/-- A property of steps that values and faults of types have and that passes to a bind. -/
structure Typewise (P : ∀ α : Type, Conversion α → Prop) : Prop where
  pure : ∀ {α : Type} (a : α), P α (Pure.pure a)
  throw : ∀ {α : Type} {f : Fault}, f.OfType → P α (MonadExcept.throw f)
  bind : ∀ {α β : Type} {x : Conversion α} {k : α → Conversion β}, P α x → (∀ a, P β (k a)) →
    P β (x >>= k)

namespace Typewise

variable {P : ∀ α : Type, Conversion α → Prop} {α β : Type} {r : Registry}
  {deeper : Option Describer} {place : Place} {t : HostType}

theorem map (hP : Typewise P) {x : Conversion α} (hx : P α x) (g : α → β) : P β (g <$> x) := by
  rw [map_eq_pure_bind]
  exact hP.bind hx fun _ ↦ hP.pure _

theorem bind_ofExcept (hP : Typewise P) {x : Except Fault α} {k : α → Conversion β}
    (hf : ∀ f, x = .error f → f.OfType) (hk : ∀ a, x = .ok a → P β (k a)) :
    P β (.ofExcept x >>= k) := by
  cases x with
  | error f => exact hP.throw (hf f rfl)
  | ok a => exact hk a rfl

theorem describeMembers (hP : Typewise P) {seen : List (HostType × Descriptor)}
    {parts : List (HostType × Conversion Descriptor)} (h : ∀ part ∈ parts, P _ part.2) :
    P _ (describeMembers seen parts) := by
  induction parts generalizing seen with
  | nil => exact hP.pure _
  | cons part parts ih =>
    obtain ⟨hpart, hparts⟩ := List.forall_mem_cons.mp h
    refine hP.bind hpart fun d ↦ hP.bind_ofExcept ?_ fun _ _ ↦ ih hparts
    exact fun _ hf ↦ ofType_of_checkDistinct hf

theorem describeFields (hP : Typewise P)
    (h : ∀ describe, deeper = some describe → ∀ place t, P _ (describe place t))
    (fields : List (String × HostType)) : P _ (describeFields deeper place fields) := by
  induction fields with
  | nil => exact hP.pure _
  | cons field fields ih =>
    refine hP.bind_ofExcept (fun _ hf ↦ ofType_of_enter hf) fun entered he ↦ ?_
    obtain ⟨hd, -⟩ := enter_eq_ok.mp he
    exact hP.bind (h _ hd _ _) fun d ↦ hP.bind ih fun _ ↦ hP.pure _

/-- Describing a type by a converter has a property if describing its parts has, and what a
converter from outside the library says. -/
theorem describeBy (hP : Typewise P) {x : HostType → Conversion Descriptor} {c : Converter}
    (hplugin : ∀ p, c = .plugin p → P _ (.ofExcept (p.describe r.directory t)))
    (h : ∀ describe, deeper = some describe → ∀ place t, P _ (describe place t))
    (hx : ∀ part ∈ t.parts, P _ (x part)) :
    P _ (r.describeBy deeper place c t (t.parts.map fun part ↦ (part, x part))) := by
  have hrefused (t : HostType) : P Descriptor (MonadExcept.throw (unsupported t)) :=
    hP.throw (.unsupportedType _)
  cases c with
  | primitive | reference | jsonLines => exact hP.pure _
  | plugin p => exact hplugin p rfl
  | sequence =>
    cases t with
    | list t => exact hP.map (hx t List.mem_cons_self) _
    | _ => exact hrefused _
  | mapping =>
    cases t with
    | dict t => exact hP.map (hx t List.mem_cons_self) _
    | _ => exact hrefused _
  | optional =>
    cases t with
    | optional t => exact hP.map (hx t List.mem_cons_self) _
    | _ => exact hrefused _
  | union =>
    cases t with
    | union members =>
      have hx : ∀ m ∈ members, P _ (x m) := hx
      have hmember {m : HostType} (hm : HostType.valued? members = some m) : P _ (x m) :=
        hx m (List.mem_of_find?_eq_some hm)
      simp only [Registry.describeBy, HostType.parts, valued?_map]
      cases HostType.unionForm members with
      | tagged => exact hP.describeMembers (by simpa using hx)
      | void => exact hrefused _
      | plain =>
        cases hv : HostType.valued? members with
        | none => exact hrefused _
        | some m => exact hmember hv
      | optional =>
        cases hv : HostType.valued? members with
        | none => exact hrefused _
        | some m => exact hP.map (hmember hv) _
    | _ => exact hrefused _
  | record =>
    refine hP.bind_ofExcept (fun _ hf ↦ Registry.ofType_of_schemaOf hf) fun s _ ↦ ?_
    exact hP.bind (hP.describeFields h _) fun _ ↦ hP.pure _

end Typewise

namespace Compositional

variable {P : ∀ α : Type, Conversion α → Prop} {r : Registry} {deeper : Option Describer}
  {place : Place} {t : HostType}

theorem typewise (hP : Compositional P) : Typewise P := ⟨hP.pure, fun _ ↦ hP.throw _, hP.bind⟩

theorem describeBy (hP : Compositional P) {x : HostType → Conversion Descriptor}
    (h : ∀ describe, deeper = some describe → ∀ place t, P _ (describe place t))
    (hx : ∀ part ∈ t.parts, P _ (x part)) (c : Converter) :
    P _ (r.describeBy deeper place c t (t.parts.map fun part ↦ (part, x part))) :=
  hP.typewise.describeBy (fun _ _ ↦ hP.ofExcept _) h hx

end Compositional

/-! ## What is remembered -/

/-- A step of a conversion keeps a coherent session coherent and forgets nothing. -/
abbrev Keeps {α : Type} (r : Registry) (x : Conversion α) : Prop := Within (Grows r) x

theorem Quiet.keeps {r : Registry} {α : Type} {x : Conversion α} (h : Quiet x) : Keeps r x :=
  h.mono fun _ _ hs ↦ grows_of_described_eq hs

theorem compositional_keeps (r : Registry) : Compositional fun _ x ↦ Keeps r x where
  blind h := h.quiet.keeps
  bind_of_run hx hk := hx.bind_of_run fun hrun ↦ hk _ _ _ hrun

/-- A way of describing a type keeps sessions coherent and remembers what it finds. -/
structure Describes (r : Registry) (t : HostType) (x : Conversion Descriptor) : Prop where
  within : Keeps r x
  remembered : ∀ {s s' d}, s.Coherent r → x.run s = (.ok d, s') → s'.known t d

variable {r : Registry} {s s' : Session} {t : HostType} {d : Descriptor}

/-! ## Members of unions -/

theorem checkDistinct_eq_ok {seen : List (HostType × Descriptor)} :
    checkDistinct seen t d = .ok () ↔ d ∉ seen.map (·.2) := by
  unfold checkDistinct
  split
  · next other d' hfind =>
    have hd : d' = d := by simpa using List.find?_some hfind
    have hmem : d ∈ seen.map (·.2) := hd ▸ List.mem_map_of_mem (List.mem_of_find?_eq_some hfind)
    exact ⟨fun h ↦ (nomatch h), fun h ↦ absurd hmem h⟩
  · next hfind =>
    refine ⟨fun _ hmem ↦ ?_, fun _ ↦ rfl⟩
    obtain ⟨part, hpart, rfl⟩ := List.mem_map.mp hmem
    simpa using List.find?_eq_none.mp hfind part hpart

/-- The members of a tagged union are all known afterwards, and no two are described alike. -/
theorem describeMembers_ok {seen : List (HostType × Descriptor)}
    {parts : List (HostType × Conversion Descriptor)}
    (h : ∀ part ∈ parts, Describes r part.1 part.2) (hs : s.Coherent r)
    (hseen : ∀ part ∈ seen, s.known part.1 part.2) (hdistinct : (seen.map (·.2)).Nodup)
    (hrun : (describeMembers seen parts).run s = (.ok d, s')) :
    ∃ found : List (HostType × Descriptor),
      seen.map (·.1) ++ parts.map (·.1) = found.map (·.1) ∧ (found.map (·.2)).Nodup ∧
      d = .ofMembers (found.map (·.2)) Descriptor.defaultTagField ∧
      ∀ part ∈ found, s'.known part.1 part.2 := by
  induction parts generalizing seen s with
  | nil =>
    cases hrun
    exact ⟨seen, by simp, hdistinct, rfl, hseen⟩
  | cons part parts ih =>
    obtain ⟨hpart, hparts⟩ := List.forall_mem_cons.mp h
    rw [describeMembers] at hrun
    obtain ⟨d₁, s₁, hd₁, hrun⟩ := run_bind_eq_ok.mp hrun
    obtain ⟨⟨⟩, hcheck, hrun⟩ := run_ofExcept_bind_eq_ok.mp hrun
    obtain ⟨hs₁, hk⟩ := hpart.within.of_run hd₁ hs
    have hseen₁ : ∀ p ∈ seen ++ [(part.1, d₁)], s₁.known p.1 p.2 := by
      intro p hp
      rcases List.mem_append.mp hp with hp | hp
      · exact hk _ _ (hseen p hp)
      · rw [List.mem_singleton.mp hp]
        exact hpart.remembered hs hd₁
    have hdistinct₁ : ((seen ++ [(part.1, d₁)]).map (·.2)).Nodup := by
      rw [List.map_append, List.nodup_append]
      refine ⟨hdistinct, List.pairwise_singleton _ _, fun d hd d' hd' he ↦ ?_⟩
      have hd₁ : d = d₁ := he.trans (List.mem_singleton.mp hd')
      exact checkDistinct_eq_ok.mp hcheck (hd₁ ▸ hd)
    obtain ⟨found, htypes, hfound⟩ := ih hparts hs₁ hseen₁ hdistinct₁ hrun
    exact ⟨found, by simpa using htypes, hfound⟩

/-! ## Fields of records -/

section

variable {deeper : Option Describer} {place : Place} {fields : List (String × HostType)}

/-- The types of a record's fields are all known afterwards. -/
theorem describeFields_ok
    (h : ∀ describe, deeper = some describe → ∀ place t, Describes r t (describe place t))
    (hs : s.Coherent r) {ds : List (String × Descriptor)}
    (hrun : (describeFields deeper place fields).run s = (.ok ds, s')) :
    ∃ found : List (String × HostType × Descriptor),
      fields = found.map (fun f ↦ (f.1, f.2.1)) ∧ ds = found.map (fun f ↦ (f.1, f.2.2)) ∧
        ∀ f ∈ found, s'.known f.2.1 f.2.2 := by
  induction fields generalizing s ds with
  | nil =>
    cases hrun
    exact ⟨[], rfl, rfl, fun _ h ↦ nomatch h⟩
  | cons field fields ih =>
    rw [describeFields] at hrun
    obtain ⟨entered, he, hrun⟩ := run_ofExcept_bind_eq_ok.mp hrun
    obtain ⟨hdeeper, -⟩ := enter_eq_ok.mp he
    have hfield := h _ hdeeper entered.2 field.2
    obtain ⟨d, s₁, hd, hrun⟩ := run_bind_eq_ok.mp hrun
    obtain ⟨ds, s₂, hds, hrun⟩ := run_bind_eq_ok.mp hrun
    cases hrun
    have hs₁ := (hfield.within.of_run hd hs).1
    have hkeeps : Keeps r (describeFields deeper place fields) :=
      (compositional_keeps r).typewise.describeFields (fun _ hd place t ↦ (h _ hd place t).within) fields
    have hk := (hkeeps.of_run hds hs₁).2
    obtain ⟨found, rfl, rfl, hknown⟩ := ih hs₁ hds
    refine ⟨(field.1, field.2, d) :: found, rfl, rfl, List.forall_mem_cons.mpr ⟨?_, hknown⟩⟩
    exact hk _ _ (hfield.remembered hs hd)

end

/-! ## Types -/

/-- A type that is not remembered is described and then is. -/
theorem run_remembering (t : HostType) (x : Conversion Descriptor) (s : Session) :
    (remembering t x).run s = match s.described? t with
      | some d => (.ok d, s)
      | none => match x.run s with
        | (.ok d, s') => (.ok d, s'.remember t d)
        | (.error e, s') => (.error e, s') := by
  rw [remembering, run_bind_of_ok (run_get s)]
  cases s.described? t with
  | some d => rfl
  | none =>
    show (x >>= _).run s = _
    rw [run_bind]
    rcases x.run s with ⟨_ | _, _⟩ <;> rfl

/-- A type that is remembered is not described again. -/
theorem run_describe_of_known (h : s.known t d) (levels : Nat) (place : Place) :
    (r.describe levels place t).run s = (.ok d, s) := by
  have hd : s.described? t = some d := h
  rw [Registry.describe_eq, Registry.describeStep, run_remembering, hd]

/-- In a session that remembers a type, describing it comes to that and changes nothing. -/
theorem ends_describe_of_known (h : s.known t d) (levels : Nat) (place : Place) :
    Ends (· = s) (· = d) (fun _ ↦ False) (r.describe levels place t) := by
  rintro _ rfl
  rw [run_describe_of_known h]
  exact ⟨rfl, rfl⟩

theorem describes_remembering {x : Conversion Descriptor} (hx : Keeps r x)
    (hcomposes : ∀ {s s' d}, s.Coherent r → x.run s = (.ok d, s') → ∃ c, r.resolve t = .ok c ∧
      ∃ parts, r.Composes c parts t d ∧ ∀ part ∈ parts, s'.known part.1 part.2) :
    Describes r t (remembering t x) := by
  refine ⟨fun s ↦ ?_, fun {s s' d} hs hrun ↦ ?_⟩
  · intro hs
    rw [run_remembering]
    cases ht : s.described? t with
    | some d => exact ⟨hs, fun _ _ h ↦ h⟩
    | none =>
      rcases hrun : x.run s with ⟨e | d, s'⟩
      · exact hx.of_run hrun hs
      · obtain ⟨c, hc, parts, hparts, hknown⟩ := hcomposes hs hrun
        exact trans_of (Grows r) (hx.of_run hrun) (grows_remember hc hparts hknown) hs
  · rw [run_remembering] at hrun
    cases ht : s.described? t with
    | some d =>
      rw [ht] at hrun
      cases hrun
      exact ht
    | none =>
      rw [ht] at hrun
      rcases hx' : x.run s with ⟨e | d, s'⟩ <;> rw [hx'] at hrun <;> cases hrun
      exact described?_remember_self _ t d

namespace Registry

variable {deeper : Option Describer} {place : Place} {c : Converter}
  {x : HostType → Conversion Descriptor}

/-- A converter puts a descriptor together from those of types that are known afterwards. -/
theorem describeBy_ok
    (h : ∀ describe, deeper = some describe → ∀ place t, Describes r t (describe place t))
    (hx : ∀ part ∈ t.parts, Describes r part (x part)) (hs : s.Coherent r)
    (hrun : (r.describeBy deeper place c t (t.parts.map fun part ↦ (part, x part))).run s =
      (.ok d, s')) :
    ∃ parts, r.Composes c parts t d ∧ ∀ part ∈ parts, s'.known part.1 part.2 := by
  cases c with
  | primitive | reference | jsonLines =>
    cases hrun
    exact ⟨[], by constructor, fun _ h ↦ nomatch h⟩
  | plugin p =>
    have hp : p.describe r.directory t = .ok d := congrArg Prod.fst hrun
    exact ⟨[], .plugin hp, fun _ h ↦ nomatch h⟩
  | sequence =>
    cases t with
    | list t =>
      obtain ⟨d, hd, rfl⟩ := run_map_eq_ok.mp hrun
      have hknown := (hx t List.mem_cons_self).remembered hs hd
      exact ⟨[(t, d)], .list, by simpa using hknown⟩
    | _ => cases hrun
  | mapping =>
    cases t with
    | dict t =>
      obtain ⟨d, hd, rfl⟩ := run_map_eq_ok.mp hrun
      have hknown := (hx t List.mem_cons_self).remembered hs hd
      exact ⟨[(t, d)], .dict, by simpa using hknown⟩
    | _ => cases hrun
  | optional =>
    cases t with
    | optional t =>
      obtain ⟨d, hd, rfl⟩ := run_map_eq_ok.mp hrun
      have hknown := (hx t List.mem_cons_self).remembered hs hd
      exact ⟨[(t, d)], .optional, by simpa using hknown⟩
    | _ => cases hrun
  | union =>
    cases t with
    | union members =>
      have hx : ∀ m ∈ members, Describes r m (x m) := hx
      have hmember {m : HostType} (hm : HostType.valued? members = some m) :=
        hx m (List.mem_of_find?_eq_some hm)
      simp only [describeBy, HostType.parts, valued?_map] at hrun
      cases hf : HostType.unionForm members with
      | tagged =>
        rw [hf] at hrun
        have hparts : ∀ part ∈ members.map fun m ↦ (m, x m), Describes r part.1 part.2 := by
          simpa using hx
        obtain ⟨found, htypes, hdistinct, rfl, hknown⟩ :=
          describeMembers_ok hparts hs (List.forall_mem_nil _) List.Pairwise.nil hrun
        exact ⟨found, .tagged hf (by simpa [Function.comp_def] using htypes) hdistinct, hknown⟩
      | void => rw [hf] at hrun; cases hrun
      | plain =>
        rw [hf] at hrun
        cases hv : HostType.valued? members with
        | none => rw [hv] at hrun; cases hrun
        | some m =>
          rw [hv] at hrun
          have hknown := (hmember hv).remembered hs hrun
          exact ⟨[(m, d)], .plain hf hv, by simpa using hknown⟩
      | optional =>
        rw [hf] at hrun
        cases hv : HostType.valued? members with
        | none => rw [hv] at hrun; cases hrun
        | some m =>
          rw [hv] at hrun
          obtain ⟨d, hd, rfl⟩ := run_map_eq_ok.mp hrun
          have hknown := (hmember hv).remembered hs hd
          exact ⟨[(m, d)], .orNone hf hv, by simpa using hknown⟩
    | _ => cases hrun
  | record =>
    obtain ⟨schema, hschema, hrun⟩ := run_ofExcept_bind_eq_ok.mp hrun
    obtain ⟨ds, s₂, hds, hrun⟩ := run_bind_eq_ok.mp hrun
    cases hrun
    obtain ⟨found, hfields, rfl, hknown⟩ := describeFields_ok h hs hds
    refine ⟨found.map (·.2), .record hschema hfields rfl, fun part hpart ↦ ?_⟩
    obtain ⟨f, hf, rfl⟩ := List.mem_map.mp hpart
    exact hknown f hf

theorem describes_describeStep
    (h : ∀ describe, deeper = some describe → ∀ place t, Describes r t (describe place t))
    (hx : ∀ part ∈ t.parts, Describes r part (x part)) :
    Describes r t (r.describeStep deeper place t (t.parts.map fun part ↦ (part, x part))) := by
  refine describes_remembering ?_ fun {s s' d} hs hrun ↦ ?_
  · have hP := compositional_keeps r
    refine hP.bind (hP.ofExcept _) fun c ↦ hP.describeBy ?_ (fun part hp ↦ (hx part hp).within) c
    exact fun _ hd place t ↦ (h _ hd place t).within
  · obtain ⟨c, hc, hrun⟩ := run_ofExcept_bind_eq_ok.mp hrun
    exact ⟨c, hc, describeBy_ok h hx hs hrun⟩

/-- Describing a type keeps sessions coherent, forgets nothing and remembers what it finds. -/
theorem describes_describe (levels : Nat) (place : Place) (t : HostType) :
    Describes r t (r.describe levels place t) := by
  induction levels, t using HostType.levels_induction generalizing place with
  | step levels t deeper ih =>
    rw [describe_eq]
    refine describes_describeStep ?_ fun part hpart ↦ ih part hpart place
    intro describe hd place t
    obtain ⟨n, hn, rfl⟩ := below_eq_some.mp hd
    exact deeper n hn t place

end Registry

/-! ## The rest of a session -/

/-- Two sessions differ at most in what they remember. -/
def Session.OnlyRecalls (s s' : Session) : Prop := ∃ ds, s' = s.recalling ds

instance : IsPreorder Session Session.OnlyRecalls where
  refl s := ⟨s.described, rfl⟩
  trans s s' s'' := by
    rintro ⟨ds, rfl⟩ ⟨ds', rfl⟩
    exact ⟨ds', rfl⟩

theorem typewise_onlyRecalls : Typewise fun _ x ↦ Within Session.OnlyRecalls x where
  pure a := .pure a
  throw _ := .throw _
  bind hx hk := hx.bind hk

theorem onlyRecalls_remembering {x : Conversion Descriptor} (hx : Within Session.OnlyRecalls x) :
    Within Session.OnlyRecalls (remembering t x) := by
  intro s
  rw [run_remembering]
  cases s.described? t with
  | some d => exact refl_of Session.OnlyRecalls s
  | none =>
    obtain ⟨ds, hs⟩ := hx s
    rcases hrun : x.run s with ⟨e | d, s'⟩ <;> rw [hrun] at hs
    · exact ⟨ds, hs⟩
    · obtain rfl : s' = s.recalling ds := hs
      exact ⟨_, rfl⟩

/-- Describing a type changes nothing but what is remembered, even if it fails. -/
theorem onlyRecalls_describe (levels : Nat) (place : Place) (t : HostType) :
    Within Session.OnlyRecalls (r.describe levels place t) := by
  induction levels, t using HostType.levels_induction generalizing place with
  | step levels t deeper ih =>
    rw [Registry.describe_eq, Registry.describeStep]
    refine onlyRecalls_remembering ((Within.ofExcept _).bind fun c ↦ ?_)
    refine typewise_onlyRecalls.describeBy (fun p _ ↦ .ofExcept _) ?_ fun part hp ↦ ih part hp place
    intro describe hd place t
    obtain ⟨n, hn, rfl⟩ := below_eq_some.mp hd
    exact deeper n hn t place

end Interchange
