import Interchange.Proofs.Conversion.Decoding

/-!
# The member that a literal is decoded as

Where the members of a tagged union are remembered, a literal is decoded as one of them or not at
all: as the one that is described like its tag, or without a tag as the only one that it conforms
to.  No two members are described alike, so which one this is has nothing to do with the order in
which they stand.  How a union is handled, as one type, as one type or none, or with tags, has
nothing to do with the order either.
-/

namespace Interchange

open Session Attempt

/-- What stands under a tag, or the literal itself if it has none. -/
def Literal.untag : Literal → Literal
  | .union _ l => l
  | l => l

/-- The element of a list that has just one. -/
def only? {α : Type} : List α → Option α
  | [a] => some a
  | _ => none

/-- The member that a literal of a tagged union belongs to, if there is just one. -/
def memberOf? (parts : List (HostType × Descriptor)) : Literal → Option (HostType × Descriptor)
  | .union tag _ => parts.find? (·.2 = tag)
  | l => only? (parts.filter fun part ↦ l.conforms part.2)

/-- The fault of a literal that belongs to no member, or to several. -/
def Place.noMemberOf (p : Place) (union : HostType) : Literal → Fault
  | .union tag _ => .undecodable p.path union.text ("union member " ++ tag.text)
  | l => p.undecodable union.text l

/-! ## Decoding as a member -/

section

variable {α : Type} {describe : HostType → Conversion Descriptor}
  {parts : List (HostType × Descriptor)} {s : Session} {l : Literal}

/-- A tag leads to the first member that is described like it. -/
theorem run_memberDescribed_eq {otherwise : Fault} {tag : Descriptor}
    (h : ∀ part ∈ parts, (describe part.1).run s = (.ok part.2, s)) (f : HostType → α) :
    (memberDescribed otherwise tag describe (parts.map fun part ↦ (part.1, f part.1))).run s =
      match parts.find? (·.2 = tag) with
      | some part => (.ok (f part.1), s)
      | none => (.error otherwise, s) := by
  induction parts with
  | nil => rfl
  | cons part parts ih =>
    obtain ⟨hpart, hparts⟩ := List.forall_mem_cons.mp h
    rw [List.map_cons, memberDescribed, run_bind_of_ok hpart]
    by_cases htag : part.2 = tag
    · rw [if_pos htag, List.find?_cons_of_pos (by simpa using htag)]
      rfl
    · rw [if_neg htag, List.find?_cons_of_neg (by simpa using htag)]
      exact ih hparts

theorem run_membersFitting_eq (h : ∀ part ∈ parts, (describe part.1).run s = (.ok part.2, s))
    (f : HostType → α) :
    (membersFitting l describe (parts.map fun part ↦ (part.1, f part.1))).run s =
      (.ok ((parts.filter fun part ↦ l.conforms part.2).map fun part ↦ f part.1), s) := by
  have hparts : ∀ part ∈ parts, Ends (· = s) (· = part.2) (fun _ ↦ False) (describe part.1) := by
    rintro part hp _ rfl
    rw [h part hp]
    exact ⟨rfl, rfl⟩
  obtain ⟨_, _, hrun, rfl, rfl⟩ := (ends_membersFitting (l := l) hparts f).run_eq_ok rfl
  exact hrun

end

section

variable {r : Registry} {known : Knowledge} {levels : Nat} {place : Place}
  {worker : Option Delegate} {parts parts' : List (HostType × Descriptor)} {s : Session}
  {l : Literal}

/-- A literal of a tagged union is decoded as the member that it belongs to, or refused. -/
theorem Registry.Tagged.run_decode (h : r.Tagged known parts)
    (hs : ∀ part ∈ parts, s.known part.1 part.2) :
    (r.decode worker levels place (.union (parts.map (·.1))) l).run s =
      match memberOf? parts l with
      | some part => (r.decode worker levels place part.1 l.untag).run s
      | none => (.error (place.noMemberOf (.union (parts.map (·.1))) l), s) := by
  have hdescribe (part : HostType × Descriptor) (hp : part ∈ parts) :=
    run_describe_of_known (r := r) (hs part hp) levels place
  rw [decode_tagged h]
  cases l with
  | union tag l =>
    rw [decodeMember, run_bind, run_memberDescribed_eq hdescribe, memberOf?]
    cases parts.find? (·.2 = tag) <;> rfl
  | _ =>
    simp only [decodeMember, memberOf?]
    rw [run_bind_of_ok (run_membersFitting_eq hdescribe _)]
    generalize parts.filter _ = fitting
    rcases fitting with _ | ⟨part, _ | ⟨other, rest⟩⟩ <;> rfl

/-! ## The order of members -/

theorem only?_eq_some {α : Type} {as : List α} {a : α} : only? as = some a ↔ as = [a] := by
  rcases as with _ | ⟨b, _ | ⟨c, bs⟩⟩ <;> simp [only?]

theorem only?_of_perm {α : Type} {as bs : List α} (h : as.Perm bs) : only? as = only? bs := by
  ext a
  show only? as = some a ↔ only? bs = some a
  rw [only?_eq_some, only?_eq_some]
  constructor
  · rintro rfl
    exact h.singleton_eq.symm
  · rintro rfl
    exact h.eq_singleton

theorem mem_of_memberOf? {part : HostType × Descriptor} (h : memberOf? parts l = some part) :
    part ∈ parts := by
  cases l with
  | union tag l => exact List.mem_of_find?_eq_some h
  | _ =>
    have honly := only?_eq_some.mp h
    exact List.mem_of_mem_filter (honly ▸ List.mem_cons_self)

/-- Where no two members are described alike, a tag leads to the one that is described like it. -/
theorem find?_tag_eq_some {tag : Descriptor} {part : HostType × Descriptor}
    (distinct : (parts.map (·.2)).Nodup) :
    parts.find? (·.2 = tag) = some part ↔ part ∈ parts ∧ part.2 = tag := by
  constructor
  · intro h
    exact ⟨List.mem_of_find?_eq_some h, by simpa using List.find?_some h⟩
  · rintro ⟨hmem, rfl⟩
    cases hfind : parts.find? (·.2 = part.2) with
    | none => simpa using List.find?_eq_none.mp hfind part hmem
    | some other =>
      have hsnd : other.2 = part.2 := by simpa using List.find?_some hfind
      rw [List.inj_on_of_nodup_map distinct (List.mem_of_find?_eq_some hfind) hmem hsnd]

/-- What a literal belongs to has nothing to do with the order of the members. -/
theorem memberOf?_of_perm (h : parts.Perm parts') (distinct : (parts.map (·.2)).Nodup)
    (l : Literal) : memberOf? parts l = memberOf? parts' l := by
  cases l with
  | union tag l =>
    ext part
    show parts.find? (·.2 = tag) = some part ↔ parts'.find? (·.2 = tag) = some part
    rw [find?_tag_eq_some distinct, find?_tag_eq_some ((h.map _).nodup distinct), h.mem_iff]
  | _ => exact only?_of_perm (h.filter _)

end

namespace HostType

variable {members members' : List HostType}

/-- How a union is handled, by the number of its members that are no types of the absent value. -/
theorem unionForm_eq (hne : members ≠ []) :
    unionForm members = match only? (members.filter (!·.isNone)) with
      | some _ => if members.any (·.isNone) then .optional else .plain
      | none => .tagged := by
  cases members with
  | nil => exact absurd rfl hne
  | cons t members =>
    unfold unionForm
    dsimp only
    generalize (t :: members).filter (!·.isNone) = valued
    rcases valued with _ | ⟨u, _ | ⟨w, rest⟩⟩ <;> rfl

/-- How a union is handled has nothing to do with the order of its members. -/
theorem unionForm_of_perm (h : members.Perm members') : unionForm members = unionForm members' := by
  by_cases hne : members = []
  · subst hne
    rw [h.nil_eq]
  · have hne' : members' ≠ [] := fun he ↦ hne (he ▸ h).eq_nil
    have hany : members.any (·.isNone) = members'.any (·.isNone) := by
      rw [Bool.eq_iff_iff, List.any_eq_true, List.any_eq_true]
      simp only [h.mem_iff]
    rw [unionForm_eq hne, unionForm_eq hne', only?_of_perm (h.filter _), hany]

/-- If there is just one member that is no type of the absent value, it is the same in any order. -/
theorem valued?_of_perm (h : members.Perm members') (hform : unionForm members ≠ .tagged) :
    valued? members = valued? members' := by
  by_cases hne : members = []
  · subst hne
    rw [h.nil_eq]
  · rw [unionForm_eq hne] at hform
    cases honly : only? (members.filter (!·.isNone)) with
    | none => simp [honly] at hform
    | some t =>
      have honly' := (only?_of_perm (h.filter _)).symm.trans honly
      rw [valued?, valued?, ← List.head?_filter, ← List.head?_filter, only?_eq_some.mp honly,
        only?_eq_some.mp honly']

end HostType

section

variable {r : Registry} {s s' : Session} {levels : Nat} {place : Place} {worker : Option Delegate}
  {members members' : List HostType} {parts parts' : List (HostType × Descriptor)}
  {l : Literal} {v : Value} {d d' : Descriptor}

/-- Members that are remembered are what they are remembered as. -/
theorem Session.map_described (hs : ∀ part ∈ parts, s.known part.1 part.2) :
    (parts.map (·.1)).map (fun t ↦ (t, (s.described? t).getD (.primitive .none))) = parts := by
  rw [List.map_map]
  refine (List.map_congr_left fun part hp ↦ ?_).trans (List.map_id parts)
  have hpart : s.described? part.1 = some part.2 := hs part hp
  simp [hpart]

/-- Members that are remembered come with the same descriptors in any order. -/
theorem Session.perm_of_map_fst (hs : ∀ part ∈ parts, s.known part.1 part.2)
    (hs' : ∀ part ∈ parts', s.known part.1 part.2)
    (h : (parts.map (·.1)).Perm (parts'.map (·.1))) : parts.Perm parts' := by
  rw [← Session.map_described hs, ← Session.map_described hs']
  exact h.map _

namespace Registry

/-- What the members of a union that is handled by tags are described as. -/
theorem Described.exists_tagged (h : r.Described s.known (.union members) d)
    (resolved : r.resolve (.union members) = .ok .union)
    (form : HostType.unionForm members = .tagged) :
    ∃ parts, members = parts.map (·.1) ∧ r.Tagged s.known parts := by
  cases h with
  | @intro c parts _ _ _ resolved' composed described =>
    cases resolved.symm.trans resolved'
    cases composed with
    | plain form' | orNone form' => cases form.symm.trans form'
    | tagged _ types distinct =>
      subst types
      exact ⟨parts, rfl, resolved, form, distinct, fun part hp ↦ (described part hp).isKnown⟩

/-- No member of a union that is handled by tags occurs twice. -/
theorem Tagged.nodup (h : r.Tagged s.known parts) : (parts.map (·.1)).Nodup := by
  have hdistinct := h.distinct.of_map
  rw [← Session.map_described h.known] at hdistinct
  exact hdistinct.of_map

/-- What a literal of a union is decoded to has nothing to do with the order of the members. -/
theorem run_decode_union_of_perm (hresolve : ∀ members, r.resolve (.union members) = .ok .union)
    (h : r.Described s.known (.union members) d) (h' : r.Described s.known (.union members') d')
    (hperm : members.Perm members') (hok : (r.decode worker levels place (.union members) l).run s =
      (.ok v, s')) :
    (r.decode worker levels place (.union members') l).run s = (.ok v, s') := by
  have hform := HostType.unionForm_of_perm hperm
  cases form : HostType.unionForm members with
  | tagged =>
    obtain ⟨parts, rfl, htagged⟩ := h.exists_tagged (hresolve _) form
    obtain ⟨parts', rfl, htagged'⟩ := h'.exists_tagged (hresolve _) (hform.symm.trans form)
    have hparts := Session.perm_of_map_fst htagged.known htagged'.known hperm
    rw [htagged.run_decode htagged.known] at hok
    rw [htagged'.run_decode htagged'.known, ← memberOf?_of_perm hparts htagged.distinct]
    split at hok
    · exact hok
    · cases hok
  | void =>
    rw [decode_of_resolve (hresolve _)] at hok
    simp only [decodeBy, form] at hok
    cases hok
  | plain | optional =>
    have hvalued := HostType.valued?_of_perm hperm (by simp [form])
    rw [decode_of_resolve (hresolve _)] at hok ⊢
    simp only [decodeBy, HostType.parts, valued?_map, ← hform, ← hvalued, form] at hok ⊢
    cases hmember : HostType.valued? members with
    | none =>
      rw [hmember] at hok
      cases hok
    | some t =>
      rw [hmember] at hok
      exact hok

end Registry

end

end Interchange
