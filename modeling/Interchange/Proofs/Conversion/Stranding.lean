import Interchange.Proofs.Conversion.Agreement
import Interchange.Proofs.Conversion.Sent

/-!
# Reading by another type

Types that are described alike read each other's literals, but for the absent value.  Where a type
is one type or none, that is written without a tag, and where a union has it for a member, with one.
A literal is stranded at a type if none stands in it without a tag where more than one member of a
union takes that, or with a tag where the type there has no member for it.  What is sent for a
descriptor is read by a type that is described so exactly when it is not stranded there.
-/

namespace Interchange

open Session Attempt

namespace Registry

variable {r : Registry} {known : Knowledge} {levels : Nat} {place : Place} {t : HostType}
  {d : Descriptor} {l : Literal} {worker : Option Delegate}

/-- A literal with none in it where a type does not read it. -/
inductive Strands (r : Registry) : HostType → Literal → Prop
  | ambiguous {parts : List (HostType × Descriptor)} {part : HostType × Descriptor}
      (tagged : r.Tagged r.IsDescribed parts) (absent : .primitive .none ∈ parts.map (·.2))
      (mem : part ∈ parts) (other : part.2 ≠ .primitive .none)
      (takes : Literal.none.conforms part.2 = true) : Strands r (.union (parts.map (·.1))) .none
  | untold {t inner : HostType} {d : Descriptor} (nullable : r.Nullable t inner)
      (described : r.IsDescribed inner d) (noMember : .primitive .none ∉ d.members) :
      Strands r t (.union (.primitive .none) .none)
  | item {t : HostType} {l : Literal} {items : List Literal}
      (resolved : r.resolve (.list t) = .ok .sequence) (mem : l ∈ items) (inside : Strands r t l) :
      Strands r (.list t) (.collection items)
  | entry {t : HostType} {e : String × Literal} {entries : List (String × Literal)}
      (resolved : r.resolve (.dict t) = .ok .mapping) (mem : e ∈ entries)
      (inside : Strands r t e.2) : Strands r (.dict t) (.mapping entries)
  | field {t : HostType} {s : Schema} {f : String × HostType} {l : Literal}
      {carried : Entries Literal} (resolved : r.resolve t = .ok .record)
      (schema : r.schemaOf t = .ok s) (mem : f ∈ s.fields)
      (found : Entries.get? f.1 carried = some l) (inside : Strands r f.2 l) :
      Strands r t (.record carried)
  | present {t inner : HostType} {l : Literal} (nullable : r.Nullable t inner)
      (valued : l.isNone = false) (inside : Strands r inner l) : Strands r t l
  | plain {members : List HostType} {t : HostType} {l : Literal} (plain : r.Plain members t)
      (inside : Strands r t l) : Strands r (.union members) l
  | member {parts : List (HostType × Descriptor)} {part : HostType × Descriptor} {l : Literal}
      (tagged : r.Tagged r.IsDescribed parts) (mem : part ∈ parts) (inside : Strands r part.1 l) :
      Strands r (.union (parts.map (·.1))) (.union part.2 l)

/-- Of plain data only none is stranded. -/
theorem Strands.eq_none_of_scalar {s : Scalar} (h : r.Strands t (.scalar s)) : s = .none := by
  generalize hl : Literal.scalar s = l at h
  induction h with
  | ambiguous =>
    cases hl
    rfl
  | present _ _ _ ih => exact ih hl
  | plain _ _ ih => exact ih hl
  | _ => cases hl

end Registry

/-! ## Reading -/

section

variable {r : Registry} {known : Knowledge} {I : Session → Prop} {E : Fault → Prop} {levels : Nat}
  {place : Place} {t : HostType} {d : Descriptor} {l : Literal} {worker : Option Delegate}

namespace Registry

/-- None is read, and what else is read as the type within. -/
theorem Nullable.ends_decode {inner : HostType} (h : r.Nullable t inner) (hd : Describable d)
    (described : r.IsDescribed inner d) (sent : Sent levels d.orNone l) (hs : ¬ r.Strands t l)
    (ih : Sent levels d l → ¬ r.Strands inner l →
      Ends I (fun _ ↦ True) E (r.decode worker levels place inner l)) :
    Ends I (fun _ ↦ True) E (r.decode worker levels place t l) := by
  rw [decode_nullable h, decodeValued]
  split
  · exact .pure trivial
  · next hl =>
    rcases sent.of_orNone hd with rfl | hsent | ⟨rfl, hmem⟩
    · exact absurd rfl hl
    · exact ih hsent fun hi ↦ hs (.present h (by simpa using hl) hi)
    · exact absurd (.untold h described hmem) hs

/-- None is read as the member that is none, if no other member takes it. -/
theorem Tagged.ends_decode_none {parts : List (HostType × Descriptor)}
    (h : r.Tagged r.IsDescribed parts) (hr : r.RecordsOnly)
    (hmembers : ∀ part ∈ parts, Ends I (· = part.2) E (r.describe levels place part.1))
    (absent : .primitive .none ∈ parts.map (·.2))
    (hs : ¬ r.Strands (.union (parts.map (·.1))) .none) :
    Ends I (fun _ ↦ True) E (r.decode worker levels place (.union (parts.map (·.1))) .none) := by
  obtain ⟨part, hp, hd⟩ := List.mem_map.mp absent
  have hsingle : parts.filter (fun part ↦ Literal.none.conforms part.2) = [part] := by
    refine h.filter_conforms hp (by rw [hd]; rfl) fun other ho htakes ↦ ?_
    -- no two members are described alike, so any other one that takes none is no type of none
    by_contra hne
    refine hs (.ambiguous h absent ho (fun hother ↦ hne ?_) htakes)
    exact List.inj_on_of_nodup_map h.distinct ho hp (hother.trans hd.symm)
  refine h.ends_decode_untagged rfl hmembers ?_ fun hmany ↦ absurd hsingle (hmany part)
  intro only honly
  cases hsingle.symm.trans honly
  have hnone := HostType.isNone_iff.mp ((hr.isNone_iff (h.known part hp)).mpr hd)
  rw [hnone, decode_of_resolve (hr.standard.resolve_ofKind .none)]
  exact .pure trivial

/-- What is sent for the descriptor of a type is read as the type if it is not stranded, wherever
describing the members of its unions goes well. -/
theorem Described.ends_decode (h : r.Described known t d) (hr : r.RecordsOnly)
    (hk : ∀ t d, known t d → ∀ levels place, Ends I (· = d) E (r.describe levels place t))
    (sent : Sent levels d l) (hs : ¬ r.Strands t l) :
    Ends I (fun _ ↦ True) E (r.decode worker levels place t l) := by
  -- on how the type is described; `sent` has a rule for each of its rules, and two for unions
  induction h generalizing levels place l with
  | @intro c parts t d isKnown resolved composed described ih =>
    have hdescribed (part : HostType × Descriptor) (hp : part ∈ parts) :
        r.IsDescribed part.1 part.2 := (described part hp).isDescribed
    cases composed with
    | jsonLines | plugin => cases hr.standard.builtin.resolve resolved
    | primitive =>
      rw [decode_of_resolve resolved]
      cases sent with
      | primitive s =>
        simp only [decodeBy, Scalar.as?_kind]
        exact .pure trivial
      | absent mem => cases mem
      | present optional => cases optional
    | reference =>
      rw [decode_of_resolve resolved]
      cases sent with
      | blob b =>
        simp only [decodeBy, if_true]
        exact .pure trivial
      | absent mem => cases mem
      | present optional => cases optional
    | list =>
      rw [decode_of_resolve resolved]
      cases sent with
      | collection room each =>
        refine Ends.map (ends_decodeItems (P := fun _ ↦ True) ?_ (fun l hl place ↦ ?_) 0)
          fun _ _ ↦ trivial
        · rintro rfl hne
          cases room hne
        · exact ih _ List.mem_cons_self (each l hl) fun h ↦ hs (.item resolved hl h)
      | absent mem => cases mem
      | present optional => cases optional
    | dict =>
      rw [decode_of_resolve resolved]
      cases sent with
      | mapping room each =>
        refine Ends.map (ends_decodeEntries (P := fun _ ↦ True) ?_ fun e he place ↦ ?_)
          fun _ _ ↦ trivial
        · rintro rfl hne
          cases room hne
        · exact ih _ List.mem_cons_self (each e he) fun h ↦ hs (.entry resolved he h)
      | absent mem => cases mem
      | present optional => cases optional
    | optional =>
      have hinner := described _ List.mem_cons_self
      exact (Nullable.optional resolved).ends_decode (hr.describable hinner) hinner.isDescribed
        sent hs (ih _ List.mem_cons_self)
    | orNone form member =>
      have hinner := described _ List.mem_cons_self
      exact (Nullable.union resolved form member).ends_decode (hr.describable hinner)
        hinner.isDescribed sent hs (ih _ List.mem_cons_self)
    | plain form member =>
      have hplain : r.Plain _ _ := ⟨resolved, form, member⟩
      rw [decode_plain hplain]
      exact ih _ List.mem_cons_self sent fun h ↦ hs (.plain hplain h)
    | tagged form types distinct =>
      subst types
      have htagged : r.Tagged r.IsDescribed parts := ⟨resolved, form, distinct, hdescribed⟩
      have hmembers (part : HostType × Descriptor) (hp : part ∈ parts) :
          Ends I (· = part.2) E (r.describe levels place part.1) :=
        hk _ _ (described part hp).isKnown levels place
      rw [Descriptor.ofMembers_of_nodup distinct] at sent
      cases sent with
      | absent mem =>
        exact htagged.ends_decode_none hr hmembers mem hs
      | present optional =>
        -- a union of types with more than one value member forks, so nothing is written untagged
        have hforks := (hr.forks_iff hdescribed).mpr form
        rw [hforks.optionalInner?_eq_none] at optional
        cases optional
      | tagged _ _ mem sent =>
        obtain ⟨part, hp, rfl⟩ := List.mem_map.mp mem
        refine htagged.ends_decode_tagged hmembers hp ?_
        exact ih part hp sent fun h ↦ hs (.member htagged hp h)
    | @record _ s fields _ schema declared types =>
      subst types
      rw [decode_of_resolve resolved]
      cases sent with
      | @record _ _ carried room complete each =>
        show Ends I _ E (.ofExcept (r.schemaOf t) >>= _)
        rw [schema]
        refine (ends_decodeFields (by simpa [declared] using room) ?_).bind
          fun _ _ ↦ .pure trivial
        intro f hf
        have hf' := hf
        rw [declared] at hf'
        obtain ⟨g, hg, rfl⟩ := List.mem_map.mp hf'
        have hmem := List.mem_map_of_mem hg (f := fun f ↦ (f.1, f.2.2))
        obtain ⟨l, hl⟩ := complete _ hmem
        refine ⟨l, hl, fun place ↦ ?_⟩
        exact ih g.2 (List.mem_map_of_mem hg) (each _ hmem l hl)
          fun h ↦ hs (.field resolved schema hf hl h)
      | absent mem => cases mem
      | present optional => cases optional

/-- None stands in the way of decoding where it is stranded. -/
theorem Strands.meets (h : r.Strands t l) : r.Meets r.Obstructed t l := by
  induction h with
  | @ambiguous parts part tagged absent mem other takes =>
    obtain ⟨none, hnone, hd⟩ := List.mem_map.mp absent
    have hne : none ≠ part := by
      rintro rfl
      exact other hd
    exact .here (.inl (.intro tagged rfl hnone mem hne (by rw [hd]; rfl) takes))
  | untold nullable described noMember => exact .here (.inr (.intro nullable described noMember))
  | item resolved mem _ ih => exact .item resolved mem ih
  | entry resolved mem _ ih => exact .entry resolved mem ih
  | field resolved schema mem found _ ih => exact .field resolved schema mem found ih
  | present nullable valued _ ih => exact .present nullable valued ih
  | plain plain _ ih => exact .plain plain ih
  | member tagged mem _ ih => exact .member tagged mem ih

end Registry

end

/-! ## Reading by engines -/

namespace Engine

variable {u : Setup} {e : Engine} {place : Place} {t g : HostType} {d : Descriptor} {v : Value}
  {l : Literal}

/-- What an engine writes for a value is sent for the descriptor of its type. -/
theorem Under.sent (he : e.Under u) (hr : u.registry.RecordsOnly)
    (ht : u.registry.DistinctFields t) (hv : v.StreamFree) (hd : u.registry.IsDescribed t d)
    (h : (convert fun u ↦ u.toLiteral place t v).outcome e = .ok l) :
    Sent (u.levels place) d l := by
  obtain ⟨he, rfl⟩ := he
  have hrun : (e.setup.toLiteral place t v).run e.session = (.ok l, _) := Prod.ext h rfl
  obtain ⟨d', s, -, ht', hwrites, hrecalls⟩ := Setup.toLiteralBy_ok hr.standard.builtin
    (fun _ ↦ Setup.keeping_delegate) he.coherent hrun
  have hknown (t : HostType) (d : Descriptor) (h : s.known t d) :
      e.setup.registry.IsDescribed t d := hrecalls.coherent.isDescribed (hrecalls.knows t d h)
  rw [hd.unique (hknown t d' ht')]
  exact hwrites.sent hr ht hv hknown

/-- What is sent for a descriptor is read as a type that is described so just if it is not stranded
there, unless there are too few levels to describe the type, which has not been described yet. -/
theorem Under.toValue_of_sent (he : e.Under u) (hr : u.registry.RecordsOnly)
    (hd : u.registry.IsDescribed g d) (sent : Sent (u.levels place) d l) :
    ((∃ v, (convert fun u ↦ u.toValue place g l).outcome e = .ok v) ↔ ¬ u.registry.Strands g l) ∨
      e.session.described? g = none ∧
        ∃ path, (convert fun u ↦ u.toValue place g l).outcome e = .error (.nestingLimit path) := by
  obtain ⟨he, rfl⟩ := he
  by_cases hs : e.setup.registry.Strands g l
  -- whatever is remembered, a stranded literal is refused
  · refine .inl ⟨?_, absurd hs⟩
    rintro ⟨v, hv⟩
    exact absurd hv (toValue_ne_ok_of_meets he.coherent hr.standard.builtin hs.meets)
  cases hg : e.session.described? g with
  | some d' =>
    -- members of a type that is remembered are remembered too, and looked up at any level
    have hknown : e.session.known g d' := hg
    obtain rfl := hd.unique (Session.Coherent.isDescribed he.coherent hknown)
    have hends : Ends (· = e.session) (fun _ ↦ True) (fun _ ↦ False)
        (e.setup.toValue place g l) := by
      refine (he.coherent g d hknown).ends_decode hr (fun t d hd levels place ↦ ?_) sent hs
      exact ends_describe_of_known hd levels place
    rcases outcome_of_ends (fun u ↦ u.toValue place g l) hends rfl with ⟨v, hv, -⟩ | ⟨_, -, hf⟩
    · exact .inl ⟨fun _ ↦ hs, fun _ ↦ ⟨v, hv⟩⟩
    · exact hf.elim
  | none =>
    have hends : Ends (Inside e.setup.registry.IsDescribed e.session) (fun _ ↦ True)
        (fun f ↦ ∃ path, f = .nestingLimit path) (e.setup.toValue place g l) := by
      refine hd.described.ends_decode hr (fun t d h levels place ↦ ?_) sent hs
      exact (h.ends_describe e.session levels place).mono (fun _ h ↦ h) fun _ h ↦ h.2
    have hinside := Session.Coherent.inside he.coherent
    rcases outcome_of_ends (fun u ↦ u.toValue place g l) hends hinside with
      ⟨v, hv, -⟩ | ⟨_, hf, path, rfl⟩
    · exact .inl ⟨fun _ ↦ hs, fun _ ↦ ⟨v, hv⟩⟩
    · exact .inr ⟨rfl, path, hf⟩

/-- The literal that one engine writes for a value of a type is read by another as what is guessed
from the type's descriptor just if it is not stranded there, unless there are too few levels to
describe the guess, which has not been described yet. -/
theorem toValue_guess {e₁ e₂ e₃ e₄ : Engine} {place₂ place₃ : Place} (h₁ : e₁.Under u)
    (h₂ : e₂.Under u) (h₃ : e₃.Under u) (h₄ : e₄.Under u) (hr : u.registry.RecordsOnly)
    (ht : u.registry.DistinctFields t) (hv : v.StreamFree)
    (hl : (convert fun u ↦ u.toLiteral place t v).outcome e₁ = .ok l)
    (hd : (convert fun u ↦ u.describe place₂ t).outcome e₂ = .ok d)
    (hg : (convert fun u ↦ u.infer place₃ d).outcome e₃ = .ok g) :
    ((∃ v, (convert fun u ↦ u.toValue place g l).outcome e₄ = .ok v) ↔ ¬ u.registry.Strands g l) ∨
      e₄.session.described? g = none ∧
        ∃ path, (convert fun u ↦ u.toValue place g l).outcome e₄ = .error (.nestingLimit path) := by
  have htype := h₂.isDescribed hd
  obtain ⟨g', hg', hguess⟩ := h₃.outcome_infer hr htype place₃
  obtain rfl := Except.ok.inj (hg.symm.trans hg')
  exact h₄.toValue_of_sent hr hguess (h₁.sent hr ht hv htype hl)

/-! ## None in a union that takes it twice -/

/-- An integer, or a text or none. -/
def mixedType : HostType := .union [.ofKind .integer, .optional (.ofKind .string)]

def mixedDescriptor : Descriptor :=
  .union [.primitive .integer, (Descriptor.primitive .string).orNone] Descriptor.defaultTagField

/-- What is guessed for the type or none. -/
def mixedGuess : HostType :=
  .union [.ofKind .integer, .optional (.ofKind .string), .ofKind .none]

def mixedEngine : Engine :=
  start Settings.defaults Registry.defaults ⟨Settings.sharedWorker⟩ (.inMemory "")

theorem under_mixedEngine : mixedEngine.Under mixedEngine.setup := ⟨reachable_start _ _ _ _, rfl⟩

theorem distinctFields_mixedType :
    mixedEngine.setup.registry.DistinctFields (.optional mixedType) := by
  let ts : List HostType := [.optional mixedType, mixedType, .ofKind .integer,
    .optional (.ofKind .string), .ofKind .string]
  have hcloses : mixedEngine.setup.registry.closes ts = true := by decide +kernel
  exact Registry.distinctFields_of_closes hcloses List.mem_cons_self

/-- A text is read under its tag. -/
theorem toValue_guess_text :
    ∃ v, (convert fun u ↦ u.toValue .root mixedGuess
      (.union (Descriptor.primitive .string).orNone (.scalar (.string "a")))).outcome mixedEngine =
        .ok v := by
  have hl : (convert fun u ↦ u.toLiteral .root (.optional mixedType)
      (.scalar (.string "a"))).outcome mixedEngine =
        .ok (.union (Descriptor.primitive .string).orNone (.scalar (.string "a"))) := rfl
  have hd : (convert fun u ↦ u.describe .root (.optional mixedType)).outcome mixedEngine =
      .ok mixedDescriptor.orNone := rfl
  have hg : (convert fun u ↦ u.infer .root mixedDescriptor.orNone).outcome mixedEngine =
      .ok mixedGuess := rfl
  have h := under_mixedEngine
  have hv : (Value.scalar (.string "a")).StreamFree := trivial
  rcases toValue_guess h h h h Registry.recordsOnly_defaults distinctFields_mixedType hv hl hd hg
    with hread | ⟨-, path, hlimit⟩
  · refine hread.mpr fun hs ↦ ?_
    generalize hguess : mixedGuess = g at hs
    generalize htext : Literal.union _ _ = l at hs
    cases hs with
    | ambiguous | item | entry | field => cases htext
    | untold => cases htext
    | present nullable =>
      cases nullable with
      | optional => cases hguess
      | union _ form =>
        cases hguess
        exact absurd form (by decide)
    | plain plain =>
      cases hguess
      exact absurd plain.form (by decide)
    | member _ _ inside =>
      obtain ⟨-, rfl⟩ := Literal.union.inj htext
      cases inside.eq_none_of_scalar
  · cases hlimit

/-- The absent value is written without a tag, and two members of the guessed union take it. -/
theorem not_toValue_guess :
    ¬ ∀ (e e₁ e₂ e₃ : Engine) (t g : HostType) (v : Value) (l : Literal) (d : Descriptor),
      e.Reachable → e.setup.registry.RecordsOnly → e.setup.registry.DistinctFields t →
      v.StreamFree → (convert fun u ↦ u.toLiteral .root t v).run e = (.ok l, e₁) →
      (convert fun u ↦ u.describe .root t).run e₁ = (.ok d, e₂) →
      (convert fun u ↦ u.infer .root d).run e₂ = (.ok g, e₃) →
      ∃ v, (convert fun u ↦ u.toValue .root g l).outcome e₃ = .ok v := by
  intro h
  obtain ⟨v, hv⟩ := h mixedEngine _ _ _ (.optional mixedType) mixedGuess .none .none
    mixedDescriptor.orNone under_mixedEngine.reachable Registry.recordsOnly_defaults
    distinctFields_mixedType trivial (Prod.ext rfl rfl) (Prod.ext rfl rfl) (Prod.ext rfl rfl)
  cases hv

end Engine

end Interchange
