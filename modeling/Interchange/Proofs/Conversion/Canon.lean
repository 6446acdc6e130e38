import Interchange.Proofs.Conversion.Conformance

/-!
# What is read back

`Registry.canon` is what a value becomes when it is encoded as a host type and decoded again: an
integer where a float is expected becomes one, a value of a tagged union goes by the first member
that accepts it, a record gets the name of its type, and the fields that an open record does not
declare lose the names of the records in them.  Everything else stays.

Decoding follows the rules of writing backwards.  A tag leads to the member that was written, since
no two members are described alike, and the descriptors that this takes are all remembered.
-/

namespace Interchange

open Session Attempt

/-! ## Canonical values -/

/-- Rewrites a value at a place, as a host type. -/
abbrev Rewriter := Place → HostType → Value → Value

/-- Rewrites a value one level further in, if there is one. -/
def rewriteIn (deeper : Option Rewriter) (place : Place) (s : Segment) (t : HostType) (v : Value) :
    Value :=
  match deeper with
  | none => v
  | some rewrite => rewrite (place.child s) t v

namespace Registry

/-- Rewrites a field of a record: as its declared type, or without names of records. -/
def canonField (deeper : Option Rewriter) (place : Place) (s : Schema) (name : String) (v : Value) :
    Value :=
  match s.get? name with
  | some t => rewriteIn deeper place (.field name) t v
  | none => v.eraseNames

/-- Rewrites a value by a converter, given how it is rewritten as the parts of its type. -/
def canonBy (r : Registry) (levels : Nat) (deeper : Option Rewriter) (place : Place)
    (c : Converter) (t : HostType) (parts : List (HostType × (Value → Value))) (v : Value) :
    Value :=
  match c, t, v with
  | .primitive .float, _, .scalar (.integer n) => .scalar (.float (.ofInt n.toInt))
  | .sequence, .list element, .list items =>
    .list (items.zipIdx.map fun item ↦ rewriteIn deeper place (.index item.2) element item.1)
  | .mapping, .dict value, .map entries =>
    .map (entries.map fun e ↦ (e.1, rewriteIn deeper place (.key e.1) value e.2))
  | .optional, .optional _, v => match parts with
    | [(_, canon)] => if v.isNone then v else canon v
    | _ => v
  | .union, .union members, v => match HostType.unionForm members, valued? parts with
    | .plain, some (_, canon) => canon v
    | .optional, some (_, canon) => if v.isNone then v else canon v
    | .tagged, _ => match r.accepting? levels place v parts with
      | some (_, canon) => canon v
      | none => v
    | _, _ => v
  | .record, t, .record name fields => match r.schemaOf t with
    | .ok s => .record (recordName s t)
        (fields.map fun f ↦ (f.1, canonField deeper place s f.1 f.2))
    | .error _ => .record name fields
  | _, _, v => v

/-- Rewrites a value, given how it is rewritten as the parts of its type. -/
def canonStep (r : Registry) (levels : Nat) (deeper : Option Rewriter) (place : Place)
    (t : HostType) (parts : List (HostType × (Value → Value))) (v : Value) : Value :=
  match r.resolve t with
  | .ok c => r.canonBy levels deeper place c t parts v
  | .error _ => v

/-- Rewrites a value where so many levels are left, given how it is rewritten one level further
in. -/
def canonWith (r : Registry) (levels : Nat) (deeper : Option Rewriter) : Rewriter :=
  fun place ↦ HostType.fold (r.canonStep levels deeper place)

/-- What a value becomes when it is encoded and decoded where so many levels are left. -/
def canon (r : Registry) : Nat → Rewriter
  | 0 => r.canonWith 0 none
  | levels + 1 => r.canonWith (levels + 1) (some (r.canon levels))

variable {r : Registry} {known : Knowledge} {levels : Nat} {place : Place} {t : HostType}
  {d : Descriptor} {v : Value} {l : Literal}

theorem canon_eq (r : Registry) (levels : Nat) (place : Place) (t : HostType) :
    r.canon levels place t = r.canonStep levels (below r.canon levels) place t
      (t.parts.map fun part ↦ (part, r.canon levels place part)) := by
  cases levels <;> exact HostType.fold_eq _ t

theorem canon_of_resolve {c : Converter} (h : r.resolve t = .ok c) :
    r.canon levels place t v = r.canonBy levels (below r.canon levels) place c t
      (t.parts.map fun part ↦ (part, r.canon levels place part)) v := by
  rw [canon_eq, canonStep, h]

theorem canon_nullable {inner : HostType} (h : r.Nullable t inner) :
    r.canon levels place t v = if v.isNone then v else r.canon levels place inner v := by
  cases h with
  | optional resolved => exact canon_of_resolve resolved
  | union resolved form member =>
    rw [canon_of_resolve resolved]
    simp only [canonBy, HostType.parts, valued?_map, form, member, Option.map_some]

theorem canon_plain {members : List HostType} (h : r.Plain members t) :
    r.canon levels place (.union members) v = r.canon levels place t v := by
  rw [canon_of_resolve h.resolved]
  simp only [canonBy, HostType.parts, valued?_map, h.form, h.member, Option.map_some]

theorem rewriteIn_below (h : 0 < levels) (s : Segment) :
    rewriteIn (below r.canon levels) place s t v = r.canon (levels - 1) (place.child s) t v := by
  cases levels with
  | zero => exact absurd h (Nat.lt_irrefl 0)
  | succ levels => rfl

theorem canonBy_primitive {deeper : Option Rewriter} {parts : List (HostType × (Value → Value))}
    {kind : Kind} {x x' : Scalar} (h : x.as? kind = some x') :
    r.canonBy levels deeper place (.primitive kind) t parts (.scalar x) = .scalar x' := by
  unfold Scalar.as? at h
  split at h
  · next hkind =>
    cases h
    subst hkind
    cases x <;> rfl
  · split at h
    · next hfloat =>
      subst hfloat
      cases x with
      | integer n =>
        cases h
        rfl
      | _ => cases h
    · cases h

end Registry

/-! ## Reading what was written -/

section

variable {r : Registry} {known : Knowledge} {levels : Nat} {place : Place} {t : HostType}
  {d : Descriptor} {v : Value} {l : Literal} {s : Session} {worker : Option Delegate}

/-- Only the absent value is written as none. -/
theorem Registry.Writes.isNone (h : r.Writes known levels place t d v l) (hl : l.isNone = true) :
    v.isNone = true := by
  induction h with
  | @primitive _ _ _ kind x x' _ read =>
    have hx' : x' = .none := by
      cases x' with
      | none => rfl
      | _ => cases hl
    subst hx'
    have hkind := Scalar.kind_of_as? read
    subst hkind
    cases x with
    | none => rfl
    | _ => cases read
  | absent => rfl
  | present _ _ _ ih => exact ih hl
  | plain _ _ ih => exact ih hl
  | _ => cases hl

/-- Decoding gives the canonical value and leaves the session as it is. -/
def ReadsBack (r : Registry) (worker : Option Delegate) (s : Session) (levels : Nat) (place : Place)
    (t : HostType) (v : Value) (l : Literal) : Prop :=
  (r.decode worker levels place t l).run s = (.ok (r.canon levels place t v), s)

/-- Where a level is left, work goes on there. -/
theorem run_enter_bind {α β : Type} (room : 0 < levels) (work : Nat → α) (seg : Segment)
    (k : α × Place → Conversion β) :
    (.ofExcept (enter (below work levels) place seg) >>= k).run s =
      (k (work (levels - 1), place.child seg)).run s := by
  rw [enter_below_eq_ok.mpr ⟨room, rfl⟩]
  rfl

theorem Registry.decode_of_resolve {c : Converter} (h : r.resolve t = .ok c) :
    r.decode worker levels place t l =
      r.decodeBy worker levels (below (r.decode worker) levels) place c t
        (t.parts.map fun part ↦ (part, r.decode worker levels place part)) l := by
  rw [decode_eq, decodeStep, h]
  rfl

namespace Registry

theorem decode_nullable {inner : HostType} (h : r.Nullable t inner) :
    r.decode worker levels place t l =
      decodeValued (r.decode worker levels place inner) l := by
  cases h with
  | optional resolved =>
    rw [decode_of_resolve resolved]
    rfl
  | union resolved form member =>
    rw [decode_of_resolve resolved]
    simp only [decodeBy, HostType.parts, valued?_map, form, member, Option.map_some]

theorem decode_plain {members : List HostType} (h : r.Plain members t) :
    r.decode worker levels place (.union members) l = r.decode worker levels place t l := by
  rw [decode_of_resolve h.resolved]
  simp only [decodeBy, HostType.parts, valued?_map, h.form, h.member, Option.map_some]

theorem decode_tagged {parts : List (HostType × Descriptor)} (h : r.Tagged known parts) :
    r.decode worker levels place (.union (parts.map (·.1))) l =
      r.decodeMember levels place (.union (parts.map (·.1)))
        (parts.map fun part ↦ (part.1, r.decode worker levels place part.1)) l := by
  rw [decode_of_resolve h.resolved]
  simp only [decodeBy, HostType.parts, h.form, List.map_map, Function.comp_def]

end Registry

/-- What a type is decoded to is what its converter gives. -/
theorem readsBack_of_resolve {c : Converter} (h : r.resolve t = .ok c)
    (hrun : (r.decodeBy worker levels (below (r.decode worker) levels) place c t
      (t.parts.map fun part ↦ (part, r.decode worker levels place part)) l).run s =
      (.ok (r.canonBy levels (below r.canon levels) place c t
        (t.parts.map fun part ↦ (part, r.canon levels place part)) v), s)) :
    ReadsBack r worker s levels place t v l := by
  rw [ReadsBack, Registry.decode_of_resolve h, Registry.canon_of_resolve h]
  exact hrun

theorem run_decodeItems {items : List (Value × Literal)} {i : Nat} (room : items ≠ [] → 0 < levels)
    (h : ∀ item ∈ items.zipIdx i, ReadsBack r worker s (levels - 1) (place.child (.index item.2)) t
      item.1.1 item.1.2) :
    (decodeItems (below (r.decode worker) levels) place t i (items.map (·.2))).run s =
      (.ok (((items.map (·.1)).zipIdx i).map fun item ↦
        rewriteIn (below r.canon levels) place (.index item.2) t item.1), s) := by
  induction items generalizing i with
  | nil => rfl
  | cons item items ih =>
    have hroom := room (List.cons_ne_nil _ _)
    rw [List.zipIdx_cons] at h
    obtain ⟨hitem, hitems⟩ := List.forall_mem_cons.mp h
    have hrest := ih (fun _ ↦ hroom) hitems
    have hhead : rewriteIn (below r.canon levels) place (.index i) t item.1 =
        r.canon (levels - 1) (place.child (.index i)) t item.1 := Registry.rewriteIn_below hroom _
    simp only [List.map_cons, List.zipIdx_cons, decodeItems]
    rw [run_enter_bind hroom, run_bind_of_ok hitem, run_bind_of_ok hrest, hhead]
    rfl

theorem run_decodeEntries {entries : List (String × Value × Literal)}
    (room : entries ≠ [] → 0 < levels)
    (h : ∀ e ∈ entries, ReadsBack r worker s (levels - 1) (place.child (.key e.1)) t e.2.1 e.2.2) :
    (decodeEntries (below (r.decode worker) levels) place t
        (entries.map fun e ↦ (e.1, e.2.2))).run s =
      (.ok ((entries.map fun e ↦ (e.1, e.2.1)).map fun e ↦
        (e.1, rewriteIn (below r.canon levels) place (.key e.1) t e.2)), s) := by
  induction entries with
  | nil => rfl
  | cons e entries ih =>
    have hroom := room (List.cons_ne_nil _ _)
    obtain ⟨he, hes⟩ := List.forall_mem_cons.mp h
    have hrest := ih (fun _ ↦ hroom) hes
    have hhead : rewriteIn (below r.canon levels) place (.key e.1) t e.2.1 =
        r.canon (levels - 1) (place.child (.key e.1)) t e.2.1 := Registry.rewriteIn_below hroom _
    simp only [List.map_cons, decodeEntries]
    rw [run_enter_bind hroom, run_bind_of_ok he, run_bind_of_ok hrest, hhead]
    rfl

/-- A tag leads to the member that is described like it. -/
theorem ends_memberDescribed {α : Type} {I : Session → Prop} {E : Fault → Prop} {otherwise : Fault}
    {describe : HostType → Conversion Descriptor} {parts : List (HostType × Descriptor)}
    {member : HostType × Descriptor}
    (h : ∀ part ∈ parts, Ends I (· = part.2) E (describe part.1))
    (distinct : (parts.map (·.2)).Nodup) (mem : member ∈ parts) (f : HostType → α) :
    Ends I (· = f member.1) E (memberDescribed otherwise member.2 describe
      (parts.map fun part ↦ (part.1, f part.1))) := by
  induction parts with
  | nil => cases mem
  | cons part parts ih =>
    obtain ⟨hpart, hparts⟩ := List.forall_mem_cons.mp h
    rw [List.map_cons, List.nodup_cons] at distinct
    refine hpart.bind ?_
    rintro _ rfl
    rcases List.mem_cons.mp mem with rfl | mem
    · rw [if_pos rfl]
      exact .pure rfl
    · have hne : part.2 ≠ member.2 := fun he ↦ distinct.1 (he ▸ List.mem_map_of_mem mem)
      rw [if_neg hne]
      exact ih hparts distinct.2 mem

/-- Where the members are known, that takes no describing. -/
theorem run_memberDescribed {α : Type} {otherwise : Fault} {parts : List (HostType × Descriptor)}
    (hdistinct : (parts.map (·.2)).Nodup) (hknown : ∀ part ∈ parts, s.known part.1 part.2)
    {member : HostType × Descriptor} (hm : member ∈ parts) (f : HostType → α) :
    (memberDescribed otherwise member.2 (r.describe levels place)
        (parts.map fun part ↦ (part.1, f part.1))).run s = (.ok (f member.1), s) := by
  have hparts (part : HostType × Descriptor) (hp : part ∈ parts) :=
    ends_describe_of_known (r := r) (hknown part hp) levels place
  have hends : Ends (· = s) (· = f member.1) (fun _ ↦ False)
      (memberDescribed otherwise member.2 (r.describe levels place) _) :=
    ends_memberDescribed hparts hdistinct hm f
  obtain ⟨_, _, hrun, rfl, rfl⟩ := hends.run_eq_ok rfl
  exact hrun

/-! ## Fields that were written -/

/-- The declared fields are decoded in turn, each from the item under its name. -/
theorem run_decodeFields {written : Entries (Value × Literal)} {fields : List (String × HostType)}
    {canon : String → Value → Value} (room : fields ≠ [] → 0 < levels)
    (h : ∀ f ∈ fields, ∃ item, Entries.get? f.1 written = some item ∧
      (r.decode worker (levels - 1) (place.child (.field f.1)) f.2 item.2).run s =
        (.ok (canon f.1 item.1), s))
    {decoded : Entries Value} (ho : decoded.Ordered) :
    ∃ es : Entries Value, es.Ordered ∧
      (∀ name, Entries.get? name es =
        if name ∈ fields.map (·.1) then (Entries.get? name written).map fun v ↦ canon name v.1
        else Entries.get? name decoded) ∧
      (decodeFields (below (r.decode worker) levels) place (written.map fun f ↦ (f.1, f.2.2))
        decoded fields).run s = (.ok es, s) := by
  induction fields generalizing decoded with
  | nil => exact ⟨decoded, ho, by simp, rfl⟩
  | cons f fields ih =>
    have hroom := room (List.cons_ne_nil _ _)
    obtain ⟨⟨item, hitem, hrun⟩, hfields⟩ := List.forall_mem_cons.mp h
    have hcarried : Entries.get? f.1 (written.map fun f ↦ (f.1, f.2.2)) = some item.2 := by
      rw [Entries.get?_map_named fun _ (v : Value × Literal) ↦ v.2, hitem]
      rfl
    obtain ⟨es, hes, hget, hrest⟩ := ih (fun _ ↦ hroom) hfields (ho.insert f.1 (canon f.1 item.1))
    refine ⟨es, hes, ?_, ?_⟩
    · intro name
      rw [hget, List.map_cons]
      by_cases hname : name = f.1
      · subst hname
        simp [Entries.get?_insert_self, hitem]
      · have hmem : name ∈ f.1 :: fields.map (·.1) ↔ name ∈ fields.map (·.1) := by simp [hname]
        simp only [hmem, Entries.get?_insert_of_ne hname]
    · rw [decodeFields, run_enter_bind hroom]
      simp only [hcarried]
      rw [run_bind_of_ok hrun, hrest]

namespace Schema

variable {schema : Schema} {carried : Entries Literal}

theorem get?_eq_none_iff {name : String} :
    schema.get? name = none ↔ name ∉ schema.fields.map (·.1) := by
  rw [get?, List.lookup_eq_none_iff]
  constructor
  · intro h hmem
    obtain ⟨f, hf, rfl⟩ := List.mem_map.mp hmem
    simpa using h f hf
  · intro h f hf
    have hne : name ≠ f.1 := fun he ↦ h (he ▸ List.mem_map_of_mem hf)
    simpa using hne

theorem ordered_addUndeclared {decoded : Entries Value} (h : decoded.Ordered) :
    (schema.addUndeclared carried decoded).Ordered := by
  unfold addUndeclared
  induction carried generalizing decoded with
  | nil => exact h
  | cons e carried ih =>
    rw [List.foldl_cons]
    refine ih ?_
    dsimp only
    split
    · exact h.insert _ _
    · exact h

/-- Undeclared fields are read by their shape if the record is open, the others stay. -/
theorem get?_addUndeclared (hc : carried.Ordered) (decoded : Entries Value) (name : String) :
    Entries.get? name (schema.addUndeclared carried decoded) =
      (if schema.isOpen && (schema.get? name).isNone then
        (Entries.get? name carried).map Literal.value else none).or
        (Entries.get? name decoded) := by
  unfold addUndeclared
  induction carried generalizing decoded with
  | nil => simp
  | cons e carried ih =>
    obtain ⟨hlt, hc⟩ := Entries.ordered_cons.mp hc
    rw [List.foldl_cons, ih hc]
    by_cases hname : name = e.1
    · subst hname
      have hnone : Entries.get? e.1 carried = none :=
        Entries.get?_eq_none_iff.mpr fun f hf he ↦ String.lt_irrefl _ (he ▸ hlt f hf)
      rw [hnone, Option.map_none, ite_self, Option.none_or, Entries.get?_cons_self, Option.map_some]
      dsimp only
      cases schema.isOpen && (schema.get? e.1).isNone with
      | true => exact Entries.get?_insert_self _ _ _
      | false => rfl
    · rw [Entries.get?_cons_of_ne hname]
      congr 1
      dsimp only
      split
      · exact Entries.get?_insert_of_ne hname
      · rfl

/-- With the fields that are not declared, there is the canonical value of each field. -/
theorem addUndeclared_eq_map {written : Entries (Value × Literal)} {es : Entries Value}
    {canon : String → Value → Value} (ordered : written.Ordered) (hes : es.Ordered)
    (closed : schema.isOpen = false → ∀ field ∈ written, (schema.get? field.1).isSome)
    (undeclared : ∀ field ∈ written, schema.get? field.1 = none →
      field.2.2.value = canon field.1 field.2.1)
    (declared : ∀ name, Entries.get? name es =
      if name ∈ schema.fields.map (·.1) then (Entries.get? name written).map fun v ↦ canon name v.1
      else none) :
    schema.addUndeclared (written.map fun f ↦ (f.1, f.2.2)) es =
      written.map fun f ↦ (f.1, canon f.1 f.2.1) := by
  -- Both sides are ordered, so it is enough to find the same under every name.
  refine Entries.eq_of_get?_eq (ordered_addUndeclared hes) (List.pairwise_map.mpr ordered) ?_
  intro name
  have hcarried : Entries.Ordered (written.map fun f ↦ (f.1, f.2.2)) :=
    List.pairwise_map.mpr ordered
  rw [get?_addUndeclared hcarried, declared,
    Entries.get?_map_named fun _ (v : Value × Literal) ↦ v.2,
    Entries.get?_map_named fun name (v : Value × Literal) ↦ canon name v.1]
  cases hget : schema.get? name with
  | some t =>
    have hmem : name ∈ schema.fields.map (·.1) := List.mem_map_of_mem (Entries.mem_of_lookup hget)
    simp [hmem]
  | none =>
    rw [if_neg (get?_eq_none_iff.mp hget)]
    cases hfound : Entries.get? name written with
    | none => simp
    | some item =>
      have hitem : (name, item) ∈ written := Entries.mem_of_get? hfound
      have hopen : schema.isOpen = true := by
        cases hopen : schema.isOpen with
        | true => rfl
        | false =>
          have hsome := closed hopen (name, item) hitem
          rw [hget] at hsome
          cases hsome
      have hvalue : item.2.value = canon name item.1 := undeclared (name, item) hitem hget
      simp [hopen, hvalue]

end Schema

/-- The fields of a record are decoded to canonical ones. -/
theorem readsBack_record {schema : Schema} {declared : List (String × HostType × Descriptor)}
    {name : Option String} {fields : List (String × Value × Literal)}
    (declares : r.Declares t schema declared) (ht : r.DistinctFields t)
    (complete : ∀ f ∈ declared, ∃ field ∈ fields, field.1 = f.1)
    (closed : schema.isOpen = false → ∀ field ∈ fields, (schema.get? field.1).isSome)
    (room : fields ≠ [] → 0 < levels) (ordered : Entries.Ordered fields)
    (read : ∀ field ∈ fields, ∀ t d, declared.lookup field.1 = some (t, d) →
      ReadsBack r worker s (levels - 1) (place.child (.field field.1)) t field.2.1 field.2.2)
    (undeclared : ∀ field ∈ fields, schema.get? field.1 = none →
      field.2.2.value = field.2.1.eraseNames) :
    ReadsBack r worker s levels place t (.record name (fields.map fun f ↦ (f.1, f.2.1)))
      (.record (fields.map fun f ↦ (f.1, f.2.2))) := by
  let canonAt (name : String) (v : Value) : Value :=
    Registry.canonField (below r.canon levels) place schema name v
  have hread : ∀ f ∈ schema.fields, ∃ item, Entries.get? f.1 fields = some item ∧
      (r.decode worker (levels - 1) (place.child (.field f.1)) f.2 item.2).run s =
        (.ok (canonAt f.1 item.1), s) := by
    intro f hf
    rw [declares.fields] at hf
    obtain ⟨g, hg, rfl⟩ := List.mem_map.mp hf
    obtain ⟨field, hfield, hname⟩ := complete g hg
    have hlookup := declares.lookup ht hg
    rw [← hname] at hlookup ⊢
    have hcanon : canonAt field.1 field.2.1 =
        r.canon (levels - 1) (place.child (.field field.1)) g.2.1 field.2.1 := by
      show Registry.canonField _ _ _ _ _ = _
      rw [Registry.canonField, Schema.get?_eq declares.fields, hlookup]
      exact Registry.rewriteIn_below (room (List.ne_nil_of_mem hfield)) _
    refine ⟨field.2, Entries.get?_of_mem ordered hfield, ?_⟩
    rw [hcanon]
    exact read field hfield _ _ hlookup
  have hroom : schema.fields ≠ [] → 0 < levels := by
    intro h
    obtain ⟨f, hf⟩ := List.exists_mem_of_ne_nil _ h
    obtain ⟨item, hitem, -⟩ := hread f hf
    exact room (List.ne_nil_of_mem (Entries.mem_of_get? hitem))
  obtain ⟨es, hes, hget, hrun⟩ := run_decodeFields hroom hread Entries.ordered_nil
  have hvalues : ∀ field ∈ fields, schema.get? field.1 = none →
      field.2.2.value = canonAt field.1 field.2.1 := by
    intro field hfield hnone
    show _ = Registry.canonField _ _ _ _ _
    rw [Registry.canonField, hnone]
    exact undeclared field hfield hnone
  have hall : schema.addUndeclared (fields.map fun f ↦ (f.1, f.2.2)) es =
      fields.map fun f ↦ (f.1, canonAt f.1 f.2.1) :=
    Schema.addUndeclared_eq_map ordered hes closed hvalues hget
  have hcanon : r.canonBy levels (below r.canon levels) place .record t
      (t.parts.map fun part ↦ (part, r.canon levels place part))
      (.record name (fields.map fun f ↦ (f.1, f.2.1))) =
      .record (Registry.recordName schema t) (fields.map fun f ↦ (f.1, canonAt f.1 f.2.1)) := by
    simp only [Registry.canonBy, declares.schema, List.map_map, Function.comp_def]
    rfl
  refine readsBack_of_resolve declares.resolved ?_
  rw [hcanon, ← hall]
  show (Attempt.ofExcept (r.schemaOf t) >>= _).run s = _
  rw [declares.schema]
  show (decodeFields _ _ _ _ _ >>= _).run s = _
  rw [run_bind_of_ok hrun]
  rfl

/-- A value that may be absent is decoded as one of the type within, if it is there. -/
theorem readsBack_nullable {inner : HostType} (h : r.Nullable t inner) (hnone : l.isNone = v.isNone)
    (hrun : v.isNone = false → ReadsBack r worker s levels place inner v l) :
    ReadsBack r worker s levels place t v l := by
  have hvalued : (Registry.decodeValued (r.decode worker levels place inner) l).run s =
      (.ok (if v.isNone then v else r.canon levels place inner v), s) := by
    rw [Registry.decodeValued, hnone]
    cases hv : v.isNone with
    | true => rw [Value.eq_none_of_isNone hv]; rfl
    | false => exact hrun hv
  rw [ReadsBack, Registry.canon_nullable h, ← hvalued, Registry.decode_nullable h]

/-- Whatever is written for a value without streams is read back as the canonical value. -/
theorem Registry.Writes.readsBack (h : r.Writes known levels place t d v l)
    (ht : r.DistinctFields t) (ho : v.Ordered) (hv : v.StreamFree)
    (hk : ∀ t d, known t d → s.known t d) : ReadsBack r worker s levels place t v l := by
  induction h with
  | primitive resolved read =>
    refine readsBack_of_resolve resolved ?_
    have hread := Scalar.kind_of_as? read
    subst hread
    rw [canonBy_primitive read]
    simp [decodeBy]
  | reference resolved =>
    refine readsBack_of_resolve resolved ?_
    simp [decodeBy, canonBy]
  | @list _ _ t _ items resolved room written ih =>
    have ht := ht.of_contains (.part List.mem_cons_self)
    have ho := Value.orderedItems_iff.mp ho
    have hv := Value.streamFreeItems_iff.mp hv
    refine readsBack_of_resolve resolved ?_
    have hitems := run_decodeItems room fun item hitem ↦ by
      have hmem : item.1.1 ∈ items.map (·.1) :=
        List.mem_map_of_mem (List.fst_mem_of_mem_zipIdx hitem)
      exact ih item hitem ht (ho _ hmem) (hv _ hmem)
    exact run_map_of_ok hitems _
  | stream => exact hv.elim
  | @dict _ _ t _ entries resolved room written ih =>
    have ht := ht.of_contains (.part List.mem_cons_self)
    have ho := Value.orderedEntries_iff.mp ho.2
    have hv := Value.streamFreeEntries_iff.mp hv
    refine readsBack_of_resolve resolved ?_
    have hentries := run_decodeEntries room fun e he ↦ by
      have hmem : (e.1, e.2.1) ∈ entries.map fun e ↦ (e.1, e.2.1) := List.mem_map_of_mem he
      exact ih e he ht (ho _ hmem) (hv _ hmem)
    exact run_map_of_ok hentries _
  | absent nullable =>
    refine readsBack_nullable nullable rfl ?_
    intro h
    cases h
  | present nullable isSome written ih =>
    refine readsBack_nullable nullable ?_ fun _ ↦ ih (ht.of_contains nullable.contains) ho hv
    rw [isSome, Bool.eq_false_iff]
    intro hl
    rw [written.isNone hl] at isSome
    cases isSome
  | plain plain _ ih =>
    rw [ReadsBack, canon_plain plain, decode_plain plain]
    exact ih (ht.of_contains plain.contains) ho hv
  | @tagged _ _ parts member _ _ tagged accepted _ ih =>
    have hmem := List.mem_of_find?_eq_some accepted
    have hmember := ih (ht.of_contains (.part (List.mem_map_of_mem hmem))) ho hv
    have hknown (part) (hpart : part ∈ parts) := hk _ _ (tagged.known part hpart)
    refine readsBack_of_resolve tagged.resolved ?_
    simp only [decodeBy, canonBy, HostType.parts, tagged.form, decodeMember, List.map_map,
      Function.comp_def]
    rw [run_bind_of_ok (run_memberDescribed tagged.distinct hknown hmem _),
      accepting?_map fun p ↦ r.canon _ _ p.1, accepted]
    exact hmember
  | @record _ _ _ schema declared _ fields declares complete closed room written undeclared ih =>
    obtain ⟨hordered, ho⟩ := ho
    have ho := Value.orderedEntries_iff.mp ho
    have hv := Value.streamFreeEntries_iff.mp hv
    have hmem {field : String × Value × Literal} (hfield : field ∈ fields) :
        (field.1, field.2.1) ∈ fields.map fun f ↦ (f.1, f.2.1) := List.mem_map_of_mem hfield
    have hnames : Entries.Ordered fields := by
      rw [Entries.Ordered, List.pairwise_map] at hordered
      exact hordered
    refine readsBack_record declares ht complete closed room hnames
      (fun field hfield t' d' hlookup ↦ ?_) fun field hfield hget ↦ ?_
    · have ht' := ht.of_contains (declares.contains (Entries.mem_of_lookup hlookup))
      exact ih field hfield t' d' hlookup ht' (ho _ (hmem hfield)) (hv _ (hmem hfield))
    · exact undeclared field hfield hget (hv _ (hmem hfield))

end

/-! ## Round trips of engines -/

namespace Engine

open Relation

variable {e e₁ e₂ : Engine} {place : Place} {t : HostType} {v : Value} {l : Literal}

/-- A literal that is produced is written by the rules, and what they refer to is known until the
registry changes. -/
theorem writes_of_toLiteral (he : e.Reachable) (hr : e.setup.registry.Standard)
    (h : (convert fun u ↦ u.toLiteral place t v).run e = (.ok l, e₁)) :
    ∃ known d, e.setup.registry.Writes known (e.setup.levels place) place t d v l ∧
      ∀ {e₂}, ReflTransGen Converts e₁ e₂ →
        e₂.setup = e.setup ∧ ∀ t d, known t d → e₂.session.known t d := by
  obtain ⟨s', hl, rfl⟩ := run_convert_eq_ok.mp h
  obtain ⟨d, s₁, -, -, hwrites, hrecalls⟩ :=
    Setup.toLiteralBy_ok hr.builtin (fun _ ↦ Setup.keeping_delegate) he.coherent hl
  refine ⟨s₁.known, d, hwrites, fun {e₂} hc ↦ ?_⟩
  obtain ⟨hsetup, hgrows⟩ := converts_grows hc
  exact ⟨hsetup, (hrecalls.grows hgrows).knows⟩

/-- What was written is converted back to the canonical value where all that the rules refer to is
known. -/
theorem run_toValue_of_writes {known : Knowledge} {d : Descriptor} (hsetup : e₂.setup = e.setup)
    (h : e.setup.registry.Writes known (e.setup.levels place) place t d v l)
    (ht : e.setup.registry.DistinctFields t) (ho : v.Ordered) (hv : v.StreamFree)
    (hk : ∀ t d, known t d → e₂.session.known t d) :
    (convert fun u ↦ u.toValue place t l).run e₂ =
      (.ok (e.setup.registry.canon (e.setup.levels place) place t v), e₂) := by
  have hread : ReadsBack e.setup.registry (some e.setup.delegate) e₂.session
      (e.setup.levels place) place t v l := h.readsBack ht ho hv hk
  refine run_convert_of_run ?_
  rw [hsetup]
  exact hread

/-- A value without streams that was converted to a literal is converted back to the canonical
value, whatever was converted in between, and this changes nothing. -/
theorem toValue_toLiteral (he : e.Reachable) (hr : e.setup.registry.Standard)
    (ht : e.setup.registry.DistinctFields t) (ho : v.Ordered) (hv : v.StreamFree)
    (h : (convert fun u ↦ u.toLiteral place t v).run e = (.ok l, e₁))
    (hc : ReflTransGen Converts e₁ e₂) :
    (convert fun u ↦ u.toValue place t l).run e₂ =
      (.ok (e.setup.registry.canon (e.setup.levels place) place t v), e₂) := by
  obtain ⟨known, d, hwrites, hafter⟩ := writes_of_toLiteral he hr h
  obtain ⟨hsetup, hknown⟩ := hafter hc
  exact run_toValue_of_writes hsetup hwrites ht ho hv hknown

/-- A point comes back with a float for a number, and its note without a name. -/
theorem toValue_toLiteral_point :
    (convert fun u ↦ u.toValue .root (.named "point") pointLiteral).outcome
      ((convert fun u ↦ u.toLiteral .root (.named "point") point).run pointEngine).2 =
    .ok (.record (some "point") [("label", .scalar (.string "a")), ("note", .record none []),
      ("x", .scalar (.float (.ofInt 3)))]) := by
  have ho : point.Ordered := by
    refine ⟨?_, trivial, ⟨Entries.ordered_nil, trivial⟩, trivial, trivial⟩
    decide +kernel
  have hv : point.StreamFree := by simp [point, Value.StreamFree, Value.StreamFreeEntries]
  have hl : (convert fun u ↦ u.toLiteral .root (.named "point") point).run pointEngine =
      (.ok pointLiteral, _) := Prod.ext rfl rfl
  have hrun := toValue_toLiteral reachable_pointEngine standard_pointEngine distinctFields_point
    ho hv hl .refl
  exact (outcome_of_run hrun).trans rfl

end Engine

end Interchange
