import Interchange.Proofs.Conversion.Canon

/-!
# Values that are kept

A value belongs strictly to a type if it is of that very type: no integer is widened, no record is
of a subtype, and the fields that an open record does not declare hold no record with a name.  A
value of a tagged union belongs to a member; which ones may be chosen is a parameter.

A round trip keeps a value just if it belongs strictly to its type by way of the first member that
accepts it, wherever there is a tagged union.  That some member has it strictly is not enough: an
integer in a union of float and int goes by float, and comes back as a float.
-/

namespace Interchange

open Attempt

namespace Registry

/-- Which members of a tagged union a value may belong to, where so many levels are left. -/
abbrev Choice := Nat → Place → List HostType → Value → HostType → Prop

/-- Any member. -/
def someMember : Choice := fun _ _ members _ member ↦ member ∈ members

/-- The first member that accepts the value. -/
def firstMember (r : Registry) : Choice := fun levels place members v member ↦
  members.find? (fun m ↦ (r.check levels place m v).isOk) = some member

/-- A value is of a type itself, without widening or subtypes. -/
inductive Strictly (r : Registry) (choice : Choice) : Nat → Place → HostType → Value → Prop
  | scalar {levels : Nat} {place : Place} {t : HostType} {x : Scalar}
      (resolved : r.resolve t = .ok (.primitive x.kind)) :
      Strictly r choice levels place t (.scalar x)
  | blob {levels : Nat} {place : Place} {t : HostType} {name : String} {b : Blob}
      (resolved : r.resolve t = .ok (.reference name b.type.extent)) :
      Strictly r choice levels place t (.blob b)
  | list {levels : Nat} {place : Place} {t : HostType} {items : List Value}
      (resolved : r.resolve (.list t) = .ok .sequence)
      (strict : ∀ item ∈ items.zipIdx,
        Strictly r choice (levels - 1) (place.child (.index item.2)) t item.1) :
      Strictly r choice levels place (.list t) (.list items)
  | dict {levels : Nat} {place : Place} {t : HostType} {entries : List (String × Value)}
      (resolved : r.resolve (.dict t) = .ok .mapping)
      (strict : ∀ e ∈ entries, Strictly r choice (levels - 1) (place.child (.key e.1)) t e.2) :
      Strictly r choice levels place (.dict t) (.map entries)
  | absent {levels : Nat} {place : Place} {t inner : HostType} (nullable : r.Nullable t inner) :
      Strictly r choice levels place t .none
  | present {levels : Nat} {place : Place} {t inner : HostType} {v : Value}
      (nullable : r.Nullable t inner) (strict : Strictly r choice levels place inner v) :
      Strictly r choice levels place t v
  | plain {levels : Nat} {place : Place} {members : List HostType} {t : HostType} {v : Value}
      (plain : r.Plain members t) (strict : Strictly r choice levels place t v) :
      Strictly r choice levels place (.union members) v
  | tagged {levels : Nat} {place : Place} {members : List HostType} {member : HostType} {v : Value}
      (resolved : r.resolve (.union members) = .ok .union)
      (form : HostType.unionForm members = .tagged)
      (chosen : choice levels place members v member)
      (strict : Strictly r choice levels place member v) :
      Strictly r choice levels place (.union members) v
  | record {levels : Nat} {place : Place} {t : HostType} {s : Schema}
      {fields : List (String × Value)} (resolved : r.resolve t = .ok .record)
      (schema : r.schemaOf t = .ok s)
      (complete : ∀ f ∈ s.fields, ∃ field ∈ fields, field.1 = f.1)
      (closed : s.isOpen = false → ∀ field ∈ fields, (s.get? field.1).isSome)
      (declared : ∀ field ∈ fields, ∀ t, s.get? field.1 = some t →
        Strictly r choice (levels - 1) (place.child (.field field.1)) t field.2)
      (undeclared : ∀ field ∈ fields, s.get? field.1 = none → field.2.Nameless) :
      Strictly r choice levels place t (.record (some (recordName s t)) fields)

variable {r : Registry} {known : Knowledge} {choice : Choice} {levels : Nat} {place : Place}
  {t : HostType} {d : Descriptor} {v : Value} {l : Literal}

theorem Strictly.mono {choice' : Choice} (h : r.Strictly choice levels place t v)
    (hc : ∀ levels place members v m, choice levels place members v m →
      choice' levels place members v m) : r.Strictly choice' levels place t v := by
  induction h with
  | scalar resolved => exact .scalar resolved
  | blob resolved => exact .blob resolved
  | list resolved _ ih => exact .list resolved ih
  | dict resolved _ ih => exact .dict resolved ih
  | absent nullable => exact .absent nullable
  | present nullable _ ih => exact .present nullable ih
  | plain plain _ ih => exact .plain plain ih
  | tagged resolved form chosen _ ih => exact .tagged resolved form (hc _ _ _ _ _ chosen) ih
  | record resolved schema complete closed _ undeclared ih =>
    exact .record resolved schema complete closed ih undeclared

/-- The first member that accepts a value is some member. -/
theorem Strictly.someMember (h : r.Strictly r.firstMember levels place t v) :
    r.Strictly someMember levels place t v :=
  h.mono fun _ _ _ _ _ hc ↦ List.mem_of_find?_eq_some hc

/-! ## What canonical values are -/

theorem rewriteIn_eq_self {seg : Segment}
    (h : r.canon (levels - 1) (place.child seg) t v = v) :
    rewriteIn (below r.canon levels) place seg t v = v := by
  cases levels with
  | zero => rfl
  | succ levels => exact h

theorem canon_tagged {members : List HostType} {member : HostType}
    (resolved : r.resolve (.union members) = .ok .union)
    (form : HostType.unionForm members = .tagged)
    (first : r.firstMember levels place members v member) :
    r.canon levels place (.union members) v = r.canon levels place member v := by
  have hfirst : r.accepting? levels place v (members.map fun m ↦ (m, r.canon levels place m)) =
      some (member, r.canon levels place member) := by
    rw [accepting?, List.find?_map]
    exact congrArg (Option.map _) first
  rw [canon_of_resolve resolved]
  simp only [canonBy, HostType.parts, form, hfirst]

/-- The items of a list are rewritten to themselves if each is. -/
theorem map_rewriteIn_eq_self {items : List Value} {rewrite : Value × Nat → Value} :
    items.zipIdx.map rewrite = items ↔ ∀ item ∈ items.zipIdx, rewrite item = item.1 := by
  have hself : items.zipIdx.map Prod.fst = items := List.zipIdx_map_fst 0 items
  rw [← List.map_inj_left, hself]

theorem map_entries_eq_self {es : List (String × Value)} {rewrite : String × Value → Value} :
    (es.map fun e ↦ (e.1, rewrite e)) = es ↔ ∀ e ∈ es, rewrite e = e.2 := by
  constructor
  · intro h e he
    have hid : (es.map fun e ↦ (e.1, rewrite e)) = es.map id := h.trans (List.map_id es).symm
    exact congrArg Prod.snd (List.map_inj_left.mp hid e he)
  · intro h
    have hid : (es.map fun e ↦ (e.1, rewrite e)) = es.map id :=
      List.map_congr_left fun e he ↦ Prod.ext rfl (h e he)
    exact hid.trans (List.map_id es)

/-- A value that belongs strictly to a type by the first members that accept it is canonical. -/
theorem canon_of_strictly (h : r.Strictly r.firstMember levels place t v) :
    r.canon levels place t v = v := by
  induction h with
  | @scalar _ _ _ x resolved => rw [canon_of_resolve resolved, canonBy_primitive x.as?_kind]
  | blob resolved =>
    rw [canon_of_resolve resolved]
    rfl
  | list resolved _ ih =>
    rw [canon_of_resolve resolved]
    have hitems := map_rewriteIn_eq_self.mpr fun item hitem ↦ rewriteIn_eq_self (ih item hitem)
    exact congrArg Value.list hitems
  | dict resolved _ ih =>
    rw [canon_of_resolve resolved]
    have hentries := map_entries_eq_self.mpr fun e he ↦ rewriteIn_eq_self (ih e he)
    exact congrArg Value.map hentries
  | absent nullable =>
    rw [canon_nullable nullable]
    rfl
  | present nullable _ ih => rw [canon_nullable nullable, ih, ite_self]
  | plain plain _ ih => rw [canon_plain plain, ih]
  | tagged resolved form chosen _ ih => rw [canon_tagged resolved form chosen, ih]
  | @record levels place t s fields resolved schema _ _ _ undeclared ih =>
    rw [canon_of_resolve resolved]
    have hfields (f) (hf : f ∈ fields) :
        canonField (below r.canon levels) place s f.1 f.2 = f.2 := by
      unfold canonField
      cases hget : s.get? f.1 with
      | some t => exact rewriteIn_eq_self (ih f hf t hget)
      | none => exact Value.eraseNames_eq_self.mpr (undeclared f hf hget)
    simp only [canonBy, schema, map_entries_eq_self.mpr hfields]

/-- A value that is written and canonical belongs strictly to its type by the first members that
accept it. -/
theorem Writes.strictly (h : r.Writes known levels place t d v l) (hv : v.StreamFree)
    (hc : r.canon levels place t v = v) : r.Strictly r.firstMember levels place t v := by
  induction h with
  | primitive resolved read =>
    rw [canon_of_resolve resolved, canonBy_primitive read, Value.scalar.injEq] at hc
    subst hc
    rw [← Scalar.kind_of_as? read] at resolved
    exact .scalar resolved
  | reference resolved => exact .blob resolved
  | @list levels place t _ items resolved room written ih =>
    rw [canon_of_resolve resolved] at hc
    have hv := Value.streamFreeItems_iff.mp hv
    have hitems := map_rewriteIn_eq_self.mp (Value.list.inj hc)
    refine .list resolved ?_
    intro item hitem
    have hself := hitems item hitem
    rw [List.zipIdx_map] at hitem
    obtain ⟨pair, hpair, rfl⟩ := List.mem_map.mp hitem
    have hmem := List.fst_mem_of_mem_zipIdx hpair
    have hroom := room (List.ne_nil_of_mem hmem)
    rw [rewriteIn_below hroom] at hself
    exact ih pair hpair (hv _ (List.mem_map_of_mem hmem)) hself
  | stream => exact hv.elim
  | @dict levels place t _ entries resolved room written ih =>
    rw [canon_of_resolve resolved] at hc
    have hv := Value.streamFreeEntries_iff.mp hv
    have hentries := map_entries_eq_self.mp (Value.map.inj hc)
    refine .dict resolved ?_
    intro e he
    have hself := hentries e he
    obtain ⟨entry, hentry, rfl⟩ := List.mem_map.mp he
    rw [rewriteIn_below (room (List.ne_nil_of_mem hentry))] at hself
    exact ih entry hentry (hv _ he) hself
  | absent nullable => exact .absent nullable
  | present nullable isSome written ih =>
    rw [canon_nullable nullable, isSome] at hc
    exact .present nullable (ih hv hc)
  | plain plain _ ih =>
    rw [canon_plain plain] at hc
    exact .plain plain (ih hv hc)
  | @tagged levels place parts member v _ tagged accepted written ih =>
    have hfirst : r.firstMember levels place (parts.map (·.1)) v member.1 := by
      rw [firstMember, List.find?_map]
      exact congrArg (Option.map _) accepted
    rw [canon_tagged tagged.resolved tagged.form hfirst] at hc
    exact .tagged tagged.resolved tagged.form hfirst (ih hv hc)
  | @record levels place t s declared name fields declares complete closed room written _ ih =>
    have hfree := Value.streamFreeEntries_iff.mp hv
    rw [canon_of_resolve declares.resolved] at hc
    simp only [canonBy, declares.schema] at hc
    obtain ⟨rfl, hfields⟩ := Value.record.inj hc
    have hfields := map_entries_eq_self.mp hfields
    refine .record declares.resolved declares.schema (fun f hf ↦ ?_) (fun hopen field hfield ↦ ?_)
      (fun field hfield u hget ↦ ?_) fun field hfield hget ↦ ?_
    · rw [declares.fields] at hf
      obtain ⟨g, hg, rfl⟩ := List.mem_map.mp hf
      obtain ⟨field, hfield, hname⟩ := complete g hg
      exact ⟨(field.1, field.2.1), List.mem_map_of_mem hfield, hname⟩
    · obtain ⟨w, hw, rfl⟩ := List.mem_map.mp hfield
      exact closed hopen w hw
    · have hself := hfields field hfield
      simp only [canonField, hget] at hself
      obtain ⟨w, hw, rfl⟩ := List.mem_map.mp hfield
      rw [rewriteIn_below (room (List.ne_nil_of_mem hw))] at hself
      rw [Schema.get?_eq declares.fields] at hget
      obtain ⟨⟨u, d⟩, hlookup, rfl⟩ := Option.map_eq_some_iff.mp hget
      exact ih w hw u d hlookup (hfree _ hfield) hself
    · have hself := hfields field hfield
      simp only [canonField, hget] at hself
      exact Value.eraseNames_eq_self.mp hself

/-- Of the values that are written, those that belong strictly to their type by the first members
that accept them are canonical, and no others. -/
theorem Writes.canon_eq_self_iff (h : r.Writes known levels place t d v l) (hv : v.StreamFree) :
    r.canon levels place t v = v ↔ r.Strictly r.firstMember levels place t v :=
  ⟨h.strictly hv, canon_of_strictly⟩

end Registry

namespace Engine

open Relation

variable {e e₁ e₂ : Engine} {place : Place} {t : HostType} {v : Value} {l : Literal}

/-- A value without streams that was converted to a literal is converted back to itself just if it
belongs strictly to its type by way of the first member that accepts it in every tagged union. -/
theorem toValue_eq_self_iff (he : e.Reachable) (hr : e.setup.registry.Standard)
    (ht : e.setup.registry.DistinctFields t) (ho : v.Ordered) (hv : v.StreamFree)
    (h : (convert fun u ↦ u.toLiteral place t v).run e = (.ok l, e₁))
    (hc : ReflTransGen Converts e₁ e₂) :
    (convert fun u ↦ u.toValue place t l).outcome e₂ = .ok v ↔
      e.setup.registry.Strictly e.setup.registry.firstMember (e.setup.levels place) place t v := by
  obtain ⟨known, d, hwrites, hafter⟩ := writes_of_toLiteral he hr h
  obtain ⟨hsetup, hknown⟩ := hafter hc
  have hread := run_toValue_of_writes hsetup hwrites ht ho hv hknown
  rw [outcome_of_run hread, Except.ok.injEq]
  exact hwrites.canon_eq_self_iff hv

/-! ## Integers in unions with floats -/

/-- The union of two kinds of plain data. -/
def unionOf (k k' : Kind) : HostType := .union [.ofKind k, .ofKind k']

theorem distinctFields_unionOf {k k' : Kind}
    (h : pointEngine.setup.registry.closes [unionOf k k', .ofKind k, .ofKind k'] = true) :
    pointEngine.setup.registry.DistinctFields (unionOf k k') :=
  Registry.distinctFields_of_closes h List.mem_cons_self

/-- An integer is kept where int comes before float. -/
theorem toValue_eq_self_of_integer_first :
    (convert fun u ↦ u.toValue .root (unionOf .integer .float)
      (.union (.primitive .integer) (.scalar (.integer 5)))).outcome
      ((convert fun u ↦ u.toLiteral .root (unionOf .integer .float) (.scalar (.integer 5))).run
        pointEngine).2 = .ok (.scalar (.integer 5)) := by
  have hl : (convert fun u ↦
      u.toLiteral .root (unionOf .integer .float) (.scalar (.integer 5))).run pointEngine =
      (.ok (.union (.primitive .integer) (.scalar (.integer 5))), _) := Prod.ext rfl rfl
  have ho : (Value.scalar (.integer 5)).Ordered := trivial
  have hv : (Value.scalar (.integer 5)).StreamFree := trivial
  have ht : pointEngine.setup.registry.DistinctFields (unionOf .integer .float) :=
    distinctFields_unionOf (by decide +kernel)
  refine (toValue_eq_self_iff reachable_pointEngine standard_pointEngine ht ho hv hl .refl).mpr ?_
  exact .tagged rfl rfl rfl (.scalar rfl)

/-- An integer is not kept where float comes before int, though it belongs strictly to int. -/
theorem not_toValue_eq_self_of_someMember :
    ¬ ∀ (e e₁ : Engine) (t : HostType) (v : Value) (l : Literal), e.Reachable →
      e.setup.registry.Standard → e.setup.registry.DistinctFields t → v.Ordered → v.StreamFree →
      e.setup.registry.Strictly Registry.someMember (e.setup.levels .root) .root t v →
      (convert fun u ↦ u.toLiteral .root t v).run e = (.ok l, e₁) →
      (convert fun u ↦ u.toValue .root t l).outcome e₁ = .ok v := by
  intro h
  have hstrict : pointEngine.setup.registry.Strictly Registry.someMember
      (pointEngine.setup.levels .root) .root (unionOf .float .integer) (.scalar (.integer 5)) :=
    .tagged rfl rfl (List.mem_cons_of_mem _ List.mem_cons_self) (.scalar rfl)
  have ht : pointEngine.setup.registry.DistinctFields (unionOf .float .integer) :=
    distinctFields_unionOf (by decide +kernel)
  have hkept := h pointEngine _ (unionOf .float .integer) (.scalar (.integer 5))
    (.union (.primitive .float) (.scalar (.float (.ofInt 5)))) reachable_pointEngine
    standard_pointEngine ht trivial trivial hstrict
    (Prod.ext rfl rfl)
  cases hkept

end Engine

end Interchange
