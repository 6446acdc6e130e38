import Interchange.Proofs.Conversion.Guess
import Interchange.Proofs.Registry.Ancestors
import Mathlib.Order.Filter.AtTopBot.Basic
import Mathlib.Order.Filter.Finite

/-!
# Describing types that are about themselves

Describing a type calls describing again for the parts of the type and for the fields of the record
that it is declared as, which lead by their names to any type, also back to the first one.
`describeCall` is one such call, given what stands for the calls that it makes.  The parts of a type
are smaller, and the fields of a record stand one level further in, so for each type some number of
calls within calls is enough, whatever stands for further ones.

What has been described was put together from what its parts and fields are described as, all the
way down.  So no type is described that leads to one that is about itself, whatever is remembered:
describing it comes to a fault.
-/

namespace Interchange

open Relation Session Attempt Filter

/-! ## Calls within calls -/

section

variable {deeper deeper' : Option Describer} {place : Place}

/-- Fields are described alike by what describes each of them alike. -/
theorem describeFields_congr {fields : List (String × HostType)}
    (h : Option.Rel (fun x y ↦ ∀ f ∈ fields,
      x (place.child (.field f.1)) f.2 = y (place.child (.field f.1)) f.2) deeper deeper') :
    describeFields deeper place fields = describeFields deeper' place fields := by
  cases h with
  | none => rfl
  | @some x y h =>
    induction fields with
    | nil => rfl
    | cons f fields ih =>
      obtain ⟨hf, hfields⟩ := List.forall_mem_cons.mp h
      show (x _ f.2 >>= fun d ↦ describeFields (some x) place fields >>= fun ds ↦
        pure ((f.1, d) :: ds)) = _
      rw [hf, ih hfields]
      rfl

theorem Registry.describeBy_record (r : Registry) (t : HostType)
    (parts : List (HostType × Conversion Descriptor)) : r.describeBy deeper place .record t parts =
      .ofExcept (r.schemaOf t) >>= fun s ↦ describeFields deeper place s.fields >>= fun ds ↦
        pure (Descriptor.record ds) := rfl

/-- A converter describes a type alike by what describes its parts and its fields alike. -/
theorem Registry.describeBy_congr {r : Registry} {t : HostType}
    {x y : HostType → Conversion Descriptor} (hparts : ∀ part ∈ t.parts, x part = y part)
    (hfields : ∀ s, r.schemaOf t = .ok s →
      describeFields deeper place s.fields = describeFields deeper' place s.fields)
    (c : Converter) :
    r.describeBy deeper place c t (t.parts.map fun part ↦ (part, x part)) =
      r.describeBy deeper' place c t (t.parts.map fun part ↦ (part, y part)) := by
  have hmap : t.parts.map (fun part ↦ (part, x part)) = t.parts.map fun part ↦ (part, y part) :=
    List.map_congr_left fun part hpart ↦ congrArg (part, ·) (hparts part hpart)
  rw [hmap]
  cases c with
  | record =>
    rw [describeBy_record, describeBy_record]
    cases hs : r.schemaOf t with
    | error f => rfl
    | ok s =>
      show (describeFields deeper place s.fields >>= _) = _
      rw [hfields s hs]
      rfl
  | _ => cases t <;> rfl

end

namespace Setup

variable {u : Setup} {calls : Describer} {place : Place} {t : HostType}

/-- One call of describing, given what stands for the calls that it makes: for the parts of a type
at the same place, and for the fields of a record one step further in, unless that is too far. -/
def describeCall (u : Setup) (calls : Describer) : Describer := fun place t ↦
  u.registry.describeStep
    (if place.path.length < u.settings.maxDepth then some calls else none) place t
    (t.parts.map fun part ↦ (part, calls place part))

theorem levels_child (place : Place) (s : Segment) :
    u.levels (place.child s) = u.levels place - 1 := by
  simp [levels, Nat.sub_add_eq]

/-- A call describes a type if the calls that it makes describe the parts and the fields. -/
theorem describeCall_eq_describe
    (hparts : ∀ part ∈ t.parts, calls place part = u.describe place part)
    (hfields : ∀ s, u.registry.schemaOf t = .ok s → ∀ n, u.levels place = n + 1 →
      ∀ f ∈ s.fields, calls (place.child (.field f.1)) f.2 =
        u.describe (place.child (.field f.1)) f.2) :
    u.describeCall calls place t = u.describe place t := by
  rw [describe, Registry.describe_eq]
  unfold describeCall Registry.describeStep
  congr 2
  funext c
  refine Registry.describeBy_congr hparts ?_ c
  intro s hs
  apply describeFields_congr
  cases hlevels : u.levels place with
  | zero =>
    have hfar : ¬ place.path.length < u.settings.maxDepth :=
      Nat.not_lt.mpr (Nat.le_of_sub_eq_zero hlevels)
    rw [if_neg hfar]
    exact .none
  | succ n =>
    have hnear : place.path.length < u.settings.maxDepth := Nat.lt_of_sub_eq_succ hlevels
    rw [if_pos hnear]
    refine .some fun f hf ↦ ?_
    rw [hfields s hs n hlevels f hf, describe, levels_child, hlevels]
    rfl

/-- Describing is such a call, and calls itself. -/
theorem describeCall_describe (u : Setup) : u.describeCall u.describe = u.describe := by
  funext place t
  apply describeCall_eq_describe
  · exact fun _ _ ↦ rfl
  · exact fun _ _ _ _ _ _ ↦ rfl

/-- So many calls within calls describe a type, whatever stands for further ones. -/
def Settles (u : Setup) (n : Nat) (place : Place) (t : HostType) : Prop :=
  ∀ calls, (u.describeCall^[n] calls) place t = u.describe place t

/-- Every type is described by calls within calls, if there may be enough of them. -/
theorem eventually_settles (levels : Nat) (t : HostType) (place : Place)
    (h : u.levels place = levels) : ∀ᶠ n in atTop, u.Settles n place t := by
  induction levels, t using HostType.levels_induction generalizing place with
  | step levels t deeper ih =>
    have hparts : ∀ᶠ n in atTop, ∀ part ∈ t.parts, u.Settles n place part :=
      (eventually_all_finite t.parts.finite_toSet).mpr fun part hpart ↦ ih part hpart place h
    have hfields : ∀ᶠ n in atTop, ∀ s, u.registry.schemaOf t = .ok s → ∀ m,
        u.levels place = m + 1 → ∀ f ∈ s.fields, u.Settles n (place.child (.field f.1)) f.2 := by
      cases hs : u.registry.schemaOf t with
      | error f => exact .of_forall fun n s h ↦ nomatch h
      | ok s =>
        cases levels with
        | zero => exact .of_forall fun n s _ m hm ↦ by cases h.symm.trans hm
        | succ m =>
          have heach : ∀ᶠ n in atTop, ∀ f ∈ s.fields,
              u.Settles n (place.child (.field f.1)) f.2 := by
            refine (eventually_all_finite s.fields.finite_toSet).mpr fun f _ ↦ ?_
            apply deeper m rfl
            rw [levels_child, h, Nat.add_sub_cancel]
          filter_upwards [heach] with n hn s' hs'
          cases hs'
          exact fun _ _ ↦ hn
    rw [← map_add_atTop_eq_nat 1, eventually_map]
    filter_upwards [hparts, hfields] with n hparts hfields calls
    rw [Function.iterate_succ_apply']
    apply describeCall_eq_describe
    · exact fun part hpart ↦ hparts part hpart calls
    · exact fun s hs m hm f hf ↦ hfields s hs m hm f hf calls

/-- Describing a type is a finite matter. -/
theorem exists_settles (u : Setup) (place : Place) (t : HostType) : ∃ n, u.Settles n place t :=
  (eventually_settles _ t place rfl).exists

end Setup

/-! ## How describing fails -/

/-- From whatever session, a step finds what it is for or a fault of types. -/
abbrev FailsByType {α : Type} (x : Conversion α) : Prop :=
  Ends (fun _ ↦ True) (fun _ ↦ True) Fault.OfType x

theorem typewise_failsByType : Typewise fun _ x ↦ FailsByType x where
  pure _ := .pure trivial
  throw h := .throw h
  bind hx hk := hx.bind fun a _ ↦ hk a

theorem failsByType_remembering {t : HostType} {x : Conversion Descriptor} (hx : FailsByType x) :
    FailsByType (remembering t x) := by
  intro s hs
  rw [run_remembering]
  cases s.described? t with
  | some d => exact ⟨trivial, trivial⟩
  | none =>
    rcases hrun : x.run s with ⟨e | d, s'⟩
    · exact ⟨trivial, (hx.of_error hs hrun).2⟩
    · exact ⟨trivial, trivial⟩

namespace Registry

/-- With no converters from outside, describing a type finds a descriptor or a fault of types. -/
theorem Unplugged.failsByType_describe {r : Registry} (hr : r.Unplugged) (levels : Nat)
    (place : Place) (t : HostType) : FailsByType (r.describe levels place t) := by
  have hP := typewise_failsByType
  induction levels, t using HostType.levels_induction generalizing place with
  | step levels t deeper ih =>
    rw [describe_eq]
    apply failsByType_remembering
    refine hP.bind_ofExcept (fun _ hf ↦ ofType_of_resolve hf) fun c hc ↦ hP.describeBy ?_ ?_ ?_
    · exact fun p hp ↦ absurd hp (hr.resolve hc p)
    · intro describe hd place t
      obtain ⟨n, hn, rfl⟩ := below_eq_some.mp hd
      exact deeper n hn t place
    · exact fun part hpart ↦ ih part hpart place

end Registry

/-! ## Types that are about themselves -/

/-- In a union that carries no tags, all members are the one that it is about or of the absent
value. -/
theorem HostType.eq_or_isNone_of_valued? {members : List HostType} {t u : HostType}
    (form : unionForm members ≠ .tagged) (member : valued? members = some t) (hu : u ∈ members) :
    u = t ∨ u.isNone := by
  cases hnone : u.isNone with
  | true => exact .inr rfl
  | false =>
    left
    have hmem : u ∈ members.filter (!·.isNone) := List.mem_filter.mpr ⟨hu, by simp [hnone]⟩
    have hsingle : ∃ w, members.filter (!·.isNone) = [w] := by
      by_contra hmany
      push Not at hmany
      exact form (unionForm_eq_tagged.mpr ⟨List.ne_nil_of_mem hu, hmany⟩)
    obtain ⟨w, hw⟩ := hsingle
    rw [valued?, ← List.head?_filter, hw] at member
    rw [hw] at hmem
    rw [List.mem_singleton.mp hmem, Option.some.inj member]

namespace Registry

variable {r : Registry} {c : Converter} {parts : List (HostType × Descriptor)} {t u : HostType}
  {d : Descriptor}

/-- A type of the absent value is not about anything. -/
theorem Standard.not_contains_of_isNone (hr : r.Standard) (ht : t.isNone) : ¬ r.Contains t u := by
  rw [HostType.isNone_iff.mp ht]
  intro h
  cases h with
  | part mem => cases mem
  | field resolved => cases (hr.resolve_ofKind .none).symm.trans resolved

/-- What a type is about directly is among what its descriptor was put together from, or a type of
the absent value. -/
theorem Standard.exists_mem_of_contains (hr : r.Standard) (composed : r.Composes c parts t d)
    (resolved : r.resolve t = .ok c) (h : r.Contains t u) :
    (∃ d, (u, d) ∈ parts) ∨ u.isNone := by
  cases h with
  | field resolved' schema mem =>
    cases resolved.symm.trans resolved'
    cases composed with
    | @record _ _ fields _ schema' declared types =>
      cases schema.symm.trans schema'
      rw [declared] at mem
      obtain ⟨f, hf, rfl⟩ := List.mem_map.mp mem
      subst types
      exact .inl ⟨f.2.2, List.mem_map_of_mem hf⟩
  | part mem =>
    cases t with
    | named | record => cases mem
    | list t | dict t | optional t =>
      cases resolved.symm.trans (hr.resolve_generic rfl)
      cases composed
      rw [List.mem_singleton.mp mem]
      exact .inl ⟨_, List.mem_cons_self⟩
    | union members =>
      have hmember {t : HostType} {d : Descriptor} (form : HostType.unionForm members ≠ .tagged)
          (member : HostType.valued? members = some t) : (∃ d', (u, d') ∈ [(t, d)]) ∨ u.isNone := by
        refine (HostType.eq_or_isNone_of_valued? form member mem).imp_left ?_
        rintro rfl
        exact ⟨d, List.mem_cons_self⟩
      cases resolved.symm.trans (hr.resolve_generic rfl)
      cases composed with
      | plain form member => exact hmember (by simp [form]) member
      | orNone form member => exact hmember (by simp [form]) member
      | tagged _ types _ =>
        subst types
        obtain ⟨part, hpart, rfl⟩ := List.mem_map.mp mem
        exact .inl ⟨part.2, hpart⟩

/-- A type that is described leads to none that is about itself. -/
theorem IsDescribed.not_transGen_contains (h : r.IsDescribed t d) (hr : r.Standard)
    (hu : ReflTransGen r.Contains t u) : ¬ TransGen r.Contains u u := by
  induction h generalizing u with
  | @intro c parts t d _ resolved composed _ ih =>
    have hnext (w u : HostType) (hw : r.Contains t w) (hu : ReflTransGen r.Contains w u) :
        ¬ TransGen r.Contains u u := by
      rcases hr.exists_mem_of_contains composed resolved hw with ⟨d, hmem⟩ | hnone
      · exact ih _ hmem hu
      · rcases hu.cases_head with rfl | ⟨_, hstep, -⟩
        · intro hcycle
          obtain ⟨_, hstep, -⟩ := TransGen.head'_iff.mp hcycle
          exact hr.not_contains_of_isNone hnone hstep
        · exact absurd hstep (hr.not_contains_of_isNone hnone)
    rcases hu.cases_head with rfl | ⟨w, hw, hu⟩
    · -- a way from the type back to itself goes through one of those that it is about
      intro hcycle
      obtain ⟨w, hw, hback⟩ := TransGen.head'_iff.mp hcycle
      exact hnext w t hw hback hcycle
    · exact hnext w u hw hu

end Registry

/-! ## Engines -/

namespace Engine

variable {e : Engine}

/-- With the built-in converters, whatever parents and records are declared, describing a type takes
finitely many calls within calls and comes to a descriptor or a fault of types.  It comes to a fault
if the type leads to one that is about itself, whatever the engine was called for before. -/
theorem describe_settles (he : e.Reachable) (hr : e.setup.registry.Standard) (place : Place)
    (t : HostType) :
    e.setup.describeCall e.setup.describe = e.setup.describe ∧
    (∃ n, ∀ calls, (e.setup.describeCall^[n] calls) place t = e.setup.describe place t) ∧
    ((∃ d, (convert fun u ↦ u.describe place t).outcome e = .ok d) ∨
      ∃ f, f.OfType ∧ (convert fun u ↦ u.describe place t).outcome e = .error f) ∧
    ∀ w, ReflTransGen e.setup.registry.Contains t w → TransGen e.setup.registry.Contains w w →
      ∃ f, f.OfType ∧ (convert fun u ↦ u.describe place t).outcome e = .error f := by
  have hends := hr.builtin.unplugged.failsByType_describe (e.setup.levels place) place t
  have hcomes : (∃ d, (convert fun u ↦ u.describe place t).outcome e = .ok d) ∨
      ∃ f, f.OfType ∧ (convert fun u ↦ u.describe place t).outcome e = .error f := by
    rcases outcome_of_ends (fun u ↦ u.describe place t) hends trivial with ⟨d, hd, -⟩ | ⟨f, hf, ht⟩
    · exact .inl ⟨d, hd⟩
    · exact .inr ⟨f, ht, hf⟩
  refine ⟨e.setup.describeCall_describe, e.setup.exists_settles place t, hcomes, ?_⟩
  intro w hw hcycle
  rcases hcomes with ⟨d, hd⟩ | hfault
  · have hdescribed := he.isDescribed hd
    exact absurd hcycle (hdescribed.not_transGen_contains hr hw)
  · exact hfault

/-- Trees, which may stand in a grove. -/
def treeSchema : Schema :=
  ⟨"tree", [("branches", .list (.named "tree")),
    ("grove", .optional (.union [.named "grove", .ofKind .string]))], false⟩

/-- Groves, which are made of trees. -/
def groveSchema : Schema := ⟨"grove", [("trees", .dict (.named "tree"))], false⟩

/-- An engine with trees, groves, and oaks, which are trees and oaks, that described a type of plain
data before. -/
def groveEngine : Engine :=
  let e := start Settings.defaults Registry.defaults ⟨Settings.sharedWorker⟩ (.inMemory "")
  let e := ((declareRecord treeSchema).run e).2
  let e := ((declareRecord groveSchema).run e).2
  let e := ((declareParents "oak" ["oak", "tree"]).run e).2
  ((convert fun u ↦ u.describe .root (.list (.ofKind .string))).run e).2

theorem reachable_groveEngine : groveEngine.Reachable :=
  ((((reachable_start _ _ _ _).step (.declareRecord _ _)).step (.declareRecord _ _)).step
    (.declareParents _ _ _)).step (.converts (.call (.describe _ _) _))

theorem standard_groveEngine : groveEngine.setup.registry.Standard :=
  ((Registry.standard_defaults.declareRecord _).declareRecord _).declareParents _ _

/-- Oaks are trees, which stand in groves, which are made of trees. -/
theorem describe_settles_oak :
    ∃ f, f.OfType ∧ (convert fun u ↦ u.describe .root (.list (.named "oak"))).outcome groveEngine =
      .error f := by
  have hancestors : groveEngine.setup.registry.ancestors "oak" = ["tree"] := by
    show Registry.walk [("oak", ["oak", "tree"])] ["oak"] ["oak", "tree"] = ["tree"]
    simp [Registry.walk_cons, Registry.parentsIn, Registry.without, List.lookup_cons, Registry.walk]
  have hoak : groveEngine.setup.registry.resolve (.named "oak") = .ok .record := by
    unfold Registry.resolve
    dsimp only
    rw [hancestors]
    rfl
  have hoakSchema : groveEngine.setup.registry.schemaOf (.named "oak") = .ok treeSchema := by
    unfold Registry.schemaOf Registry.nearestSchema?
    dsimp only
    rw [hancestors]
    rfl
  have htree : groveEngine.setup.registry.resolve (.named "tree") = .ok .record := rfl
  have htreeSchema : groveEngine.setup.registry.schemaOf (.named "tree") = .ok treeSchema := rfl
  have hgrove : groveEngine.setup.registry.resolve (.named "grove") = .ok .record := rfl
  have hgroveSchema : groveEngine.setup.registry.schemaOf (.named "grove") = .ok groveSchema := rfl
  have hunion : ReflTransGen groveEngine.setup.registry.Contains
      (.optional (.union [.named "grove", .ofKind .string])) (.named "grove") :=
    .head (.part List.mem_cons_self) (.single (.part List.mem_cons_self))
  have hreach : ReflTransGen groveEngine.setup.registry.Contains (.list (.named "oak"))
      (.named "grove") :=
    .head (.part List.mem_cons_self)
      (.head (.field hoak hoakSchema (List.mem_cons_of_mem _ List.mem_cons_self)) hunion)
  have hcycle : TransGen groveEngine.setup.registry.Contains (.named "grove") (.named "grove") :=
    .head' (.field hgrove hgroveSchema List.mem_cons_self)
      (.head (.part List.mem_cons_self)
        (.head (.field htree htreeSchema (List.mem_cons_of_mem _ List.mem_cons_self)) hunion))
  exact (describe_settles reachable_groveEngine standard_groveEngine .root _).2.2.2 _ hreach hcycle

end Engine

end Interchange
