import Interchange.Proofs.Conversion.Agreement
import Interchange.Proofs.Conversion.Forgetting
import Interchange.Proofs.Conversion.Members

/-!
# Unions with members that are alike

In a union with tags no two members are described alike, since a tag has to tell them apart: such a
union is refused, and the refusal names two members that are alike.  The members of a union of one
type or none are not compared.  So that union is described as its one type with none added, however
often none stands among the members, and also where the one type is none by another name.
-/

namespace Interchange

open Session Attempt

/-- A union that is handled as one type has just that member. -/
theorem HostType.eq_singleton_of_unionForm {members : List HostType}
    (h : unionForm members = .plain) : ∃ t, members = [t] := by
  have hne : members ≠ [] := by
    rintro rfl
    cases h
  rw [unionForm_eq hne] at h
  split at h
  · next t honly =>
    split at h
    · cases h
    · next hnone =>
      have hall : members.filter (!·.isNone) = members := by
        refine List.filter_eq_self.mpr fun u hu ↦ ?_
        rw [Bool.not_eq_true, List.any_eq_false] at hnone
        simpa using hnone u hu
      exact ⟨t, hall ▸ only?_eq_some.mp honly⟩
  · cases h

/-- A union of two members or more carries tags, or is of one type or none. -/
theorem HostType.unionForm_of_two {members : List HostType} {i j : Nat} {t t' : HostType}
    (hne : i ≠ j) (hi : members[i]? = some t) (hj : members[j]? = some t') :
    unionForm members = .optional ∨ unionForm members = .tagged := by
  cases hform : unionForm members with
  | optional => exact .inl rfl
  | tagged => exact .inr rfl
  | plain =>
    obtain ⟨u, rfl⟩ := eq_singleton_of_unionForm hform
    obtain ⟨hi, -⟩ := List.getElem?_eq_some_iff.mp hi
    obtain ⟨hj, -⟩ := List.getElem?_eq_some_iff.mp hj
    rw [List.length_singleton, Nat.lt_one_iff] at hi hj
    exact absurd (hi.trans hj.symm) hne
  | void =>
    rw [unionForm_eq (List.ne_nil_of_mem (List.mem_of_getElem? hi))] at hform
    split at hform
    · split at hform <;> cases hform
    · cases hform

theorem HostType.exists_parts {members : List HostType}
    {P : HostType → Descriptor → Prop} (h : ∀ m ∈ members, ∃ d, P m d) :
    ∃ parts : List (HostType × Descriptor), members = parts.map (·.1) ∧
      ∀ part ∈ parts, P part.1 part.2 := by
  induction members with
  | nil => exact ⟨[], rfl, List.forall_mem_nil _⟩
  | cons m members ih =>
    obtain ⟨⟨d, hd⟩, hmembers⟩ := List.forall_mem_cons.mp h
    obtain ⟨parts, rfl, hparts⟩ := ih hmembers
    exact ⟨(m, d) :: parts, rfl, List.forall_mem_cons.mpr ⟨hd, hparts⟩⟩

/-! ## Members that are described alike -/

/-- The refusal of a union names two members that are described alike. -/
def Alike (parts : List (HostType × Descriptor)) (f : Fault) : Prop :=
  ∃ (i j : Nat) (t t' : HostType) (d : Descriptor), i < j ∧ parts[i]? = some (t, d) ∧
    parts[j]? = some (t', d) ∧ f = .ambiguousType d.text [t.text, t'.text]

section

variable {I : Session → Prop} {x : HostType → Conversion Descriptor} {t : HostType}
  {d : Descriptor} {f : Fault} {seen parts : List (HostType × Descriptor)}

theorem checkDistinct_eq_error (h : checkDistinct seen t d = .error f)
    (rest : List (HostType × Descriptor)) : Alike (seen ++ (t, d) :: rest) f := by
  unfold checkDistinct at h
  split at h
  · next other d' hfind =>
    obtain rfl : d' = d := by simpa using List.find?_some hfind
    obtain ⟨i, hi⟩ := List.mem_iff_getElem?.mp (List.mem_of_find?_eq_some hfind)
    obtain ⟨hlt, -⟩ := List.getElem?_eq_some_iff.mp hi
    cases h
    refine ⟨i, seen.length, other, t, d', hlt, ?_, ?_, rfl⟩
    · rw [List.getElem?_append_left hlt, hi]
    · rw [List.getElem?_append_right (Nat.le_refl _), Nat.sub_self, List.getElem?_cons_zero]
  · cases h

/-- Where all members can be described, two that are described alike are found. -/
theorem ends_describeMembers_alike (seen : List (HostType × Descriptor))
    (hx : ∀ part ∈ parts, Ends I (· = part.2) (fun _ ↦ False) (x part.1))
    (distinct : (seen.map (·.2)).Nodup) (repeated : ¬ ((seen ++ parts).map (·.2)).Nodup) :
    Ends I (fun _ ↦ False) (Alike (seen ++ parts))
      (describeMembers seen (parts.map fun part ↦ (part.1, x part.1))) := by
  induction parts generalizing seen with
  | nil =>
    rw [List.append_nil] at repeated
    exact absurd distinct repeated
  | cons part parts ih =>
    obtain ⟨hpart, hparts⟩ := List.forall_mem_cons.mp hx
    refine (hpart.mono (fun _ h ↦ h) fun _ h ↦ h.elim).bind fun d hd ↦ ?_
    subst hd
    refine .bind_ofExcept (fun f hf ↦ checkDistinct_eq_error hf parts) fun _ hnew ↦ ?_
    rw [List.append_cons] at repeated ⊢
    refine ih _ hparts ?_ repeated
    rw [List.map_append, List.map_singleton, ← List.concat_eq_append]
    exact distinct.concat (checkDistinct_eq_ok.mp hnew)

end

/-! ## Describing again -/

namespace Registry

variable {r : Registry} {base s : Session} {c : Converter} {t : HostType} {d : Descriptor}
  {levels : Nat} {place : Place} {members : List HostType} {parts : List (HostType × Descriptor)}

/-- What is described in a session is described so in every one that remembers more. -/
theorem ends_describe_behind (h : ((r.describe levels place t).run base).1 = .ok d) :
    Ends (Behind r base) (· = d) (fun _ ↦ False) (r.describe levels place t) := by
  intro s hs
  rcases indifferent_describe levels place t base s hs with ⟨path, hpath⟩ | ⟨heq, -⟩
  · cases h.symm.trans hpath
  · have hout : ((r.describe levels place t).run s).1 = .ok d := heq.symm.trans h
    rw [hout]
    obtain ⟨hcoherent, hgrows⟩ := keeps_describe levels place t s hs.coherent
    obtain ⟨ds, hds⟩ := onlyRecalls_describe (r := r) levels place t s
    refine ⟨⟨hcoherent, ?_, fun t d hd ↦ hgrows t d (hs.inside.knows t d hd)⟩, rfl⟩
    rw [hds]
    exact hs.inside.same

theorem behind_self (hs : s.Coherent r) : Behind r s s := ⟨hs, rfl, fun _ _ h ↦ h⟩

/-- A type that is not remembered is described by its converter. -/
theorem describe_of_new (resolved : r.resolve t = .ok c) (hnew : s.described? t = none)
    (levels : Nat) (place : Place) : ((r.describe levels place t).run s).1 =
      ((r.describeBy (below r.describe levels) place c t
        (t.parts.map fun part ↦ (part, r.describe levels place part))).run s).1 := by
  rw [describe_eq, describeStep, run_remembering, hnew, resolved]
  dsimp only
  rw [run_bind_of_ok (run_ofExcept _ _)]
  rcases (r.describeBy (below r.describe levels) place c t _).run s with ⟨e | d, s'⟩ <;> rfl

/-- Members that are described alike are refused in a union with tags. -/
theorem exists_alike_of_describe (hs : s.Coherent r)
    (resolved : r.resolve (.union members) = .ok .union)
    (form : HostType.unionForm members = .tagged) (types : members = parts.map (·.1))
    (hparts : ∀ part ∈ parts, ((r.describe levels place part.1).run s).1 = .ok part.2)
    (repeated : ¬ (parts.map (·.2)).Nodup) (hnew : s.described? (.union members) = none) :
    ∃ f, ((r.describe levels place (.union members)).run s).1 = .error f ∧ Alike parts f := by
  subst types
  have hby : r.describeBy (below r.describe levels) place .union (.union (parts.map (·.1)))
      ((parts.map (·.1)).map fun t ↦ (t, r.describe levels place t)) =
        describeMembers [] (parts.map fun part ↦ (part.1, r.describe levels place part.1)) := by
    simp only [describeBy, form, List.map_map]
    rfl
  have hends : Ends (Behind r s) (fun _ ↦ False) (Alike parts)
      (describeMembers [] (parts.map fun part ↦ (part.1, r.describe levels place part.1))) :=
    ends_describeMembers_alike [] (fun part hp ↦ ends_describe_behind (hparts part hp))
      List.nodup_nil repeated
  rw [describe_of_new resolved hnew, HostType.parts, hby]
  rcases hrun : (describeMembers [] _).run s with ⟨f | d, s'⟩
  · exact ⟨f, rfl, (hends.of_error (behind_self hs) hrun).2⟩
  · exact (hends.of_ok (behind_self hs) hrun).2.elim

theorem not_nodup_of_isDescribed (described : ∀ part ∈ parts, r.IsDescribed part.1 part.2)
    {i j : Nat} {t t' : HostType} (hne : i ≠ j) (hi : (parts.map (·.1))[i]? = some t)
    (hj : (parts.map (·.1))[j]? = some t') (ht : r.IsDescribed t d) (ht' : r.IsDescribed t' d) :
    ¬ (parts.map (·.2)).Nodup := by
  have hdescriptor {k : Nat} {u : HostType} (hk : (parts.map (·.1))[k]? = some u)
      (hu : r.IsDescribed u d) : (parts.map (·.2))[k]? = some d := by
    rw [List.getElem?_map] at hk ⊢
    obtain ⟨part, hpart, rfl⟩ := Option.map_eq_some_iff.mp hk
    rw [hpart, Option.map_some, (described part (List.mem_of_getElem? hpart)).unique hu]
  have hi := hdescriptor hi ht
  obtain ⟨hlt, -⟩ := List.getElem?_eq_some_iff.mp hi
  intro distinct
  exact hne ((List.getElem?_inj hlt distinct).mp (hi.trans (hdescriptor hj ht').symm))

/-- The members of a union with tags are described each in its own way if the union is described. -/
theorem IsDescribed.exists_distinct (h : r.IsDescribed (.union members) d)
    (resolved : r.resolve (.union members) = .ok .union)
    (form : HostType.unionForm members = .tagged) :
    ∃ parts : List (HostType × Descriptor), members = parts.map (·.1) ∧
      (∀ part ∈ parts, r.IsDescribed part.1 part.2) ∧ (parts.map (·.2)).Nodup := by
  cases h with
  | intro _ resolved' composed described =>
    cases resolved.symm.trans resolved'
    cases composed with
    | tagged _ types distinct => exact ⟨_, types, described, distinct⟩
    | plain form' | orNone form' => cases form.symm.trans form'

/-- A union of one type or none is described as that type with none added. -/
theorem describe_orNone (hs : s.Coherent r) (resolved : r.resolve (.union members) = .ok .union)
    (form : HostType.unionForm members = .optional) (member : HostType.valued? members = some t) :
    ((r.describe levels place (.union members)).run s).1 =
      ((r.describe levels place t).run s).1.map Descriptor.orNone := by
  cases hremembered : s.described? (.union members) with
  | none =>
    rw [describe_of_new resolved hremembered]
    simp only [describeBy, HostType.parts, valued?_map, form, member, Option.map_some]
    rw [run_map]
  | some d =>
    have hd : s.known (.union members) d := hremembered
    rw [run_describe_of_known hd]
    cases hs _ _ hd with
    | intro _ resolved' composed described =>
      cases resolved.symm.trans resolved'
      cases composed with
      | plain form' | tagged form' => cases form.symm.trans form'
      | orNone form' member' =>
        cases member.symm.trans member'
        have hpart := (described _ List.mem_cons_self).isKnown
        rw [run_describe_of_known hpart]
        rfl

end Registry

/-! ## What engines say -/

namespace Engine

variable {e : Engine} {members : List HostType} {place : Place} {t t' : HostType} {d : Descriptor}

/-- What an engine says a type is described as. -/
def descriptor (e : Engine) (place : Place) (t : HostType) : Except Fault Descriptor :=
  (convert fun u ↦ u.describe place t).outcome e

/-- A union with members that are described alike is refused, unless it is a union of one type or
none, which is described as that type with none added.  If all members can be described, the refusal
names two that are described alike. -/
theorem descriptor_of_duplicates (he : e.Reachable) (hr : e.setup.registry.Standard) {i j : Nat}
    (hne : i ≠ j) (hi : members[i]? = some t) (hj : members[j]? = some t')
    (ht : e.descriptor place t = .ok d) (ht' : e.descriptor place t' = .ok d) :
    (HostType.unionForm members ≠ .optional →
      ∃ f, e.descriptor place (.union members) = .error f ∧
        ((∀ m ∈ members, ∃ d, e.descriptor place m = .ok d) →
          ∃ (i j : Nat) (m m' : HostType) (d : Descriptor), i < j ∧ members[i]? = some m ∧
            members[j]? = some m' ∧ e.descriptor place m = .ok d ∧ e.descriptor place m' = .ok d ∧
            f = .ambiguousType d.text [m.text, m'.text])) ∧
    ∀ only, HostType.unionForm members = .optional → HostType.valued? members = some only →
      e.descriptor place (.union members) = (e.descriptor place only).map Descriptor.orNone := by
  have resolved : e.setup.registry.resolve (.union members) = .ok .union :=
    hr.resolve_generic (o := .union) rfl
  have hrepeated {parts : List (HostType × Descriptor)} (types : members = parts.map (·.1))
      (described : ∀ part ∈ parts, e.setup.registry.IsDescribed part.1 part.2) :
      ¬ (parts.map (·.2)).Nodup :=
    Registry.not_nodup_of_isDescribed described hne (types ▸ hi) (types ▸ hj) (he.isDescribed ht)
      (he.isDescribed ht')
  refine ⟨fun hform ↦ ?_, fun only form member ↦ ?_⟩
  · have form := (HostType.unionForm_of_two hne hi hj).resolve_left hform
    have hrefused (d') : e.descriptor place (.union members) ≠ .ok d' := by
      intro h
      obtain ⟨parts, types, described, distinct⟩ :=
        (he.isDescribed h).exists_distinct resolved form
      exact hrepeated types described distinct
    cases hout : e.descriptor place (.union members) with
    | ok d' => exact absurd hout (hrefused d')
    | error f =>
      refine ⟨f, rfl, fun hall ↦ ?_⟩
      have hnew : e.session.described? (.union members) = none := by
        refine Option.eq_none_iff_forall_ne_some.mpr fun d' hd ↦ hrefused d' ?_
        exact congrArg Prod.fst (run_describe_of_known hd _ place)
      obtain ⟨parts, rfl, hparts⟩ := HostType.exists_parts hall
      obtain ⟨f', hf', i, j, m, m', d, hlt, hi, hj, rfl⟩ :=
        Registry.exists_alike_of_describe he.coherent resolved form rfl hparts
          (hrepeated rfl fun part hp ↦ he.isDescribed (hparts part hp)) hnew
      refine ⟨i, j, m, m', d, hlt, ?_, ?_, hparts _ (List.mem_of_getElem? hi),
        hparts _ (List.mem_of_getElem? hj), Except.error.inj (hout.symm.trans hf')⟩
      · rw [List.getElem?_map, hi]
        rfl
      · rw [List.getElem?_map, hj]
        rfl
  · exact Registry.describe_orNone he.coherent resolved form member

/-- An integer twice beside a text is refused, and beside none twice it is not. -/
theorem descriptor_of_duplicates_integers :
    (∃ f, freshEngine.descriptor .root
      (.union [.ofKind .integer, .ofKind .string, .ofKind .integer]) = .error f) ∧
    freshEngine.descriptor .root (.union [.ofKind .integer, .ofKind .none, .ofKind .none]) =
      .ok (Descriptor.primitive .integer).orNone := by
  have hinteger := @descriptor_of_duplicates freshEngine
    [.ofKind .integer, .ofKind .string, .ofKind .integer] .root _ _ _ reachable_freshEngine
    standard_freshEngine 0 2 (by decide) rfl rfl rfl rfl
  have hnone := @descriptor_of_duplicates freshEngine
    [.ofKind .integer, .ofKind .none, .ofKind .none] .root _ _ _ reachable_freshEngine
    standard_freshEngine 1 2 (by decide) rfl rfl rfl rfl
  obtain ⟨f, hf, -⟩ := hinteger.1 (by decide)
  exact ⟨⟨f, hf⟩, hnone.2 _ rfl rfl⟩

/-- None is taken twice in a union of one type or none. -/
theorem not_refuses_duplicates : ¬ ∀ (members : List HostType) (i j : Nat) (t t' : HostType)
    (d : Descriptor), i ≠ j → members[i]? = some t → members[j]? = some t' →
    freshEngine.descriptor .root t = .ok d → freshEngine.descriptor .root t' = .ok d →
    ∃ f, freshEngine.descriptor .root (.union members) = .error f := by
  intro h
  obtain ⟨f, hf⟩ := h [.ofKind .integer, .ofKind .none, .ofKind .none] 1 2 _ _ _ (by decide)
    rfl rfl rfl rfl
  cases hf

end Engine

end Interchange
