import Interchange.Proofs.Conversion.Agreement
import Interchange.Proofs.Conversion.Guess
import Interchange.Proofs.Conversion.Members
import Mathlib.Data.List.Perm.Subperm

/-!
# Unions as sets of members

Once two unions of the same members in different orders were described, a literal is read as the one
to a value just if it is read as the other to that value.  And what was written as a union with tags
is read the same as any union that has further members, for its tag is that of a member there too.
-/

namespace Interchange

open Session Attempt

theorem HostType.unionForm_eq_tagged_of_two_le {members : List HostType}
    (h : 2 ≤ (members.filter (!·.isNone)).length) : unionForm members = .tagged := by
  refine unionForm_eq_tagged.mpr ⟨?_, fun t ht ↦ ?_⟩
  · rintro rfl
    simp at h
  · rw [ht] at h
    simp at h

namespace Engine

open Relation

variable {e e₀ : Engine} {t : HostType} {members members' : List HostType} {place : Place}
  {v : Value} {l : Literal}

/-- An engine was asked how a type is described, and found that, since its registry last changed. -/
def HasDescribed (e : Engine) (t : HostType) : Prop :=
  ∃ (e₀ e₁ : Engine) (place : Place) (d : Descriptor), e₀.Reachable ∧
    (convert fun u ↦ u.describe place t).run e₀ = (.ok d, e₁) ∧ ReflTransGen Converts e₁ e

/-- What was described is known all the way down. -/
theorem HasDescribed.described (h : e.HasDescribed t) :
    e.Coherent ∧ ∃ d, e.setup.registry.Described e.session.known t d := by
  obtain ⟨e₀, e₁, place, d, he₀, hd, hc⟩ := h
  obtain ⟨-, hcoherent, hknown⟩ := he₀.known_of_describe hd hc
  exact ⟨hcoherent, d, hcoherent t d hknown⟩

/-- The members of a union that is handled by tags are known if the union was described. -/
theorem HasDescribed.exists_tagged (h : e.HasDescribed (.union members))
    (hr : e.setup.registry.Standard) (form : HostType.unionForm members = .tagged) :
    ∃ parts, members = parts.map (·.1) ∧ e.setup.registry.Tagged e.session.known parts := by
  obtain ⟨-, d, hd⟩ := h.described
  exact hd.exists_tagged (hr.resolve_generic (o := .union) rfl) form

/-- What is written as a union with tags carries the tag of a member. -/
theorem exists_tag_of_toLiteral (he : e.Reachable) (hr : e.setup.registry.Standard)
    (form : HostType.unionForm members = .tagged)
    (h : (convert fun u ↦ u.toLiteral place (.union members) v).outcome e = .ok l) :
    ∃ t d l', l = .union d l' ∧ t ∈ members ∧ e.setup.registry.IsDescribed t d := by
  have resolved : e.setup.registry.resolve (.union members) = .ok .union := hr.resolve_generic (o := .union) rfl
  obtain ⟨s', hl, -⟩ := run_convert_eq_ok.mp (Prod.ext h rfl)
  obtain ⟨d, s₁, hd, -, hwrites, -⟩ :=
    Setup.toLiteralBy_ok hr.builtin (fun _ ↦ Setup.keeping_delegate) he.coherent hl
  have hs₁ : s₁.Coherent e.setup.registry :=
    ((Registry.describes_describe _ _ _).within.of_run hd he.coherent).1
  cases hwrites with
  | primitive resolved' | reference resolved' => cases resolved.symm.trans resolved'
  | absent nullable | present nullable =>
    cases nullable with
    | union _ form' => cases form.symm.trans form'
  | plain plain => cases form.symm.trans plain.form
  | record declares => cases resolved.symm.trans declares.resolved
  | @tagged _ _ parts member _ _ tagged accepted written =>
    have hmem : member ∈ parts := List.mem_of_find?_eq_some accepted
    exact ⟨member.1, member.2, _, rfl, List.mem_map_of_mem hmem,
      hs₁.isDescribed (tagged.known member hmem)⟩

/-- A literal under the tag of a member is read as that member in every union that has it. -/
theorem run_toValue_of_tag {d : Descriptor} (hr : e.setup.registry.Standard)
    (hm : e.HasDescribed (.union members)) (form : HostType.unionForm members = .tagged)
    (ht : t ∈ members) (hd : e.setup.registry.IsDescribed t d) :
    (convert fun u ↦ u.toValue place (.union members) (.union d l)).run e =
      (convert fun u ↦ u.toValue place t l).run e := by
  obtain ⟨parts, rfl, htagged⟩ := hm.exists_tagged hr form
  obtain ⟨part, hpart, rfl⟩ := List.mem_map.mp ht
  have hpart' := hm.described.1.isDescribed (htagged.known part hpart)
  obtain rfl : d = part.2 := hd.unique hpart'
  have hmember : memberOf? parts (.union part.2 l) = some part :=
    (find?_tag_eq_some htagged.distinct).mpr ⟨hpart, rfl⟩
  have hrun : (e.setup.toValue place (.union (parts.map (·.1))) (.union part.2 l)).run e.session =
      (e.setup.toValue place part.1 l).run e.session := by
    show (e.setup.registry.decode _ _ _ _ _).run _ = _
    rw [htagged.run_decode htagged.known, hmember]
    rfl
  rw [run_convert, run_convert, hrun]

/-- What a literal is read to as a union has nothing to do with the order of the members, and what
was written as a union with tags is read the same when members are added. -/
theorem toValue_union (hr : e.setup.registry.Standard) (hm : e.HasDescribed (.union members))
    (hm' : e.HasDescribed (.union members')) :
    (members.Perm members' → ∀ place l v e',
      (convert fun u ↦ u.toValue place (.union members) l).run e = (.ok v, e') ↔
        (convert fun u ↦ u.toValue place (.union members') l).run e = (.ok v, e')) ∧
    (2 ≤ (members.filter (!·.isNone)).length → members ⊆ members' →
      ∀ e₀ place₀ v l, Under e.setup e₀ →
        (convert fun u ↦ u.toLiteral place₀ (.union members) v).outcome e₀ = .ok l →
        ∀ place, (convert fun u ↦ u.toValue place (.union members') l).run e =
          (convert fun u ↦ u.toValue place (.union members) l).run e) := by
  have hresolve (members : List HostType) :
      e.setup.registry.resolve (.union members) = .ok .union := hr.resolve_generic (o := .union) rfl
  constructor
  · intro hperm place l v e'
    obtain ⟨-, d, hd⟩ := hm.described
    obtain ⟨-, d', hd'⟩ := hm'.described
    rw [run_convert_eq_ok, run_convert_eq_ok]
    constructor
    · rintro ⟨s', hrun, rfl⟩
      exact ⟨s', Registry.run_decode_union_of_perm hresolve hd hd' hperm hrun, rfl⟩
    · rintro ⟨s', hrun, rfl⟩
      exact ⟨s', Registry.run_decode_union_of_perm hresolve hd' hd hperm.symm hrun, rfl⟩
  · intro hlength hsubset e₀ place₀ v l hunder hl place
    have form := HostType.unionForm_eq_tagged_of_two_le hlength
    obtain ⟨parts, hparts, htagged⟩ := hm.exists_tagged hr form
    have hnodup : members.Nodup := hparts ▸ htagged.nodup
    have hlength' : 2 ≤ (members'.filter (!·.isNone)).length :=
      Nat.le_trans hlength
        ((hnodup.filter _).subperm (List.filter_subset _ hsubset)).length_le
    obtain ⟨t, d, l, rfl, ht, hd⟩ := exists_tag_of_toLiteral hunder.reachable
      (hunder.setup_eq ▸ hr) form hl
    rw [hunder.setup_eq] at hd
    rw [run_toValue_of_tag hr hm form ht hd, run_toValue_of_tag hr hm'
      (HostType.unionForm_eq_tagged_of_two_le hlength') (hsubset ht) hd]

/-! ## Numbers and texts -/

/-- An engine that was asked for the descriptor of a type. -/
def describing (e : Engine) (t : HostType) : Engine :=
  ((convert fun u ↦ u.describe .root t).run e).2

theorem converts_describing (e : Engine) (t : HostType) : Converts e (e.describing t) :=
  .call (.describe .root t) e

theorem hasDescribed_describing {d : Descriptor} (he : e.Reachable)
    (hd : (convert fun u ↦ u.describe .root t).outcome e = .ok d) :
    (e.describing t).HasDescribed t := ⟨e, _, .root, d, he, Prod.ext hd rfl, .refl⟩

theorem HasDescribed.describing (h : e.HasDescribed t) (t' : HostType) :
    (e.describing t').HasDescribed t := by
  obtain ⟨e₀, e₁, place, d, he₀, hd, hc⟩ := h
  exact ⟨e₀, e₁, place, d, he₀, hd, hc.tail (converts_describing e t')⟩

/-- A number or a text, the other way round, and with none. -/
def numberOrText : List HostType := [.ofKind .integer, .ofKind .string]

def textOrNumber : List HostType := [.ofKind .string, .ofKind .integer]

def noneTextOrNumber : List HostType := [.ofKind .none, .ofKind .string, .ofKind .integer]

/-- An engine that was asked for all three. -/
def unionsEngine : Engine :=
  ((freshEngine.describing (.union numberOrText)).describing (.union textOrNumber)).describing
    (.union noneTextOrNumber)

/-- A number is read the same as each of them. -/
theorem toValue_union_five :
    (convert fun u ↦ u.toValue .root (.union textOrNumber) taggedFive).outcome unionsEngine =
      .ok (.scalar (.integer 5)) ∧
    (convert fun u ↦ u.toValue .root (.union noneTextOrNumber) taggedFive).run unionsEngine =
      (convert fun u ↦ u.toValue .root (.union numberOrText) taggedFive).run unionsEngine := by
  have hstart : freshEngine.Reachable := reachable_start _ _ _ _
  have hone : (freshEngine.describing (.union numberOrText)).Reachable :=
    hstart.step (.converts (converts_describing _ _))
  have htwo := hone.step (.converts (converts_describing _ (.union textOrNumber)))
  have hnumber : unionsEngine.HasDescribed (.union numberOrText) :=
    ((hasDescribed_describing hstart rfl).describing _).describing _
  have htext : unionsEngine.HasDescribed (.union textOrNumber) :=
    (hasDescribed_describing hone rfl).describing _
  have hnone : unionsEngine.HasDescribed (.union noneTextOrNumber) :=
    hasDescribed_describing htwo rfl
  have hr : unionsEngine.setup.registry.Standard := Registry.standard_defaults
  have hread : (convert fun u ↦ u.toValue .root (.union numberOrText) taggedFive).run
      unionsEngine = (.ok (.scalar (.integer 5)), unionsEngine) := rfl
  constructor
  · have hswap : numberOrText.Perm textOrNumber := .swap _ _ _
    exact outcome_of_run (((toValue_union hr hnumber htext).1 hswap _ _ _ _).mp hread)
  · refine (toValue_union hr hnumber hnone).2 (by decide) (by decide) freshEngine .root
      (.scalar (.integer 5)) taggedFive ⟨hstart, rfl⟩ rfl .root

end Engine

end Interchange
