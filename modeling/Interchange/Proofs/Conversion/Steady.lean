import Interchange.Proofs.Conversion.Encoding
import Interchange.Proofs.Conversion.Members

/-!
# What does not depend on the session

A conversion is steady where it leaves the session as it is and comes to the same in every session
of a kind.  So are, wherever the types that are involved are remembered, encoding a value without
streams and decoding any literal, by built-in converters: neither describes a type anew, and only
streams would be taken from the session.
-/

namespace Interchange

open Session Attempt

namespace Attempt

variable {σ ε α β : Type} {I : σ → Prop} {x : Attempt σ ε α} {k : α → Attempt σ ε β} {s s' : σ}

/-- In every state of a kind, a step comes to the same and leaves the state as it is. -/
def Steady (I : σ → Prop) (x : Attempt σ ε α) : Prop := ∃ o, ∀ s, I s → x.run s = (o, s)

theorem Steady.pure (a : α) : Steady I (pure a : Attempt σ ε α) := ⟨.ok a, fun _ _ ↦ rfl⟩

theorem Steady.throw (e : ε) : Steady I (throw e : Attempt σ ε α) := ⟨.error e, fun _ _ ↦ rfl⟩

theorem Steady.ofExcept (r : Except ε α) : Steady I (.ofExcept r : Attempt σ ε α) :=
  ⟨r, fun _ _ ↦ rfl⟩

/-- What follows a step that always returns a value only has to do with that value. -/
theorem Steady.bind_of_run {a : α} (hx : ∀ s, I s → x.run s = (.ok a, s)) (ha : Steady I (k a)) :
    Steady I (x >>= k) := by
  obtain ⟨o, ha⟩ := ha
  refine ⟨o, fun s hs ↦ ?_⟩
  rw [run_bind_of_ok (hx s hs), ha s hs]

theorem Steady.bind (hx : Steady I x) (hk : ∀ a, Steady I (k a)) : Steady I (x >>= k) := by
  obtain ⟨o, hx⟩ := hx
  cases o with
  | ok a => exact .bind_of_run hx (hk a)
  | error e => exact ⟨.error e, fun s hs ↦ run_bind_of_error (hx s hs) k⟩

theorem Steady.map (hx : Steady I x) (f : α → β) : Steady I (f <$> x) := by
  rw [map_eq_pure_bind]
  exact hx.bind fun a ↦ .pure (f a)

theorem Steady.run_eq (hx : Steady I x) (hs : I s) (hs' : I s') {o : Except ε α} {s₁ : σ}
    (h : x.run s = (o, s₁)) : s₁ = s ∧ x.run s' = (o, s') := by
  obtain ⟨o', hx⟩ := hx
  cases (hx s hs).symm.trans h
  exact ⟨rfl, hx s' hs'⟩

end Attempt

section

variable {r : Registry} {known : Knowledge} {I : Session → Prop} {levels : Nat} {place : Place}
  {t : HostType} {d : Descriptor} {v : Value} {l : Literal} {worker : Option Delegate}

/-! ## Values by their shape -/

section

variable {stream stream' : Path → Nat → Conversion Literal}

/-- A value without streams is written the same, however streams are. -/
theorem literalBy_congr (hv : v.StreamFree) (path : Path) :
    literalBy stream path v = literalBy stream' path v := by
  have hitems (vs : List Value)
      (h : ∀ v ∈ vs, ∀ path, literalBy stream path v = literalBy stream' path v) (path : Path)
      (i : Nat) : literalsBy stream path i vs = literalsBy stream' path i vs := by
    induction vs generalizing i with
    | nil => rfl
    | cons v vs ih =>
      obtain ⟨hv, hvs⟩ := List.forall_mem_cons.mp h
      rw [literalsBy, literalsBy, hv, ih hvs]
  have hentries (segment : String → Segment) (es : List (String × Value))
      (h : ∀ e ∈ es, ∀ path, literalBy stream path e.2 = literalBy stream' path e.2)
      (path : Path) :
      literalEntriesBy stream path segment es = literalEntriesBy stream' path segment es := by
    induction es with
    | nil => rfl
    | cons e es ih =>
      obtain ⟨he, hes⟩ := List.forall_mem_cons.mp h
      rw [literalEntriesBy, literalEntriesBy, he, ih hes]
  induction v generalizing path with
  | list items ih =>
    have hv := Value.streamFreeItems_iff.mp hv
    rw [literalBy, literalBy, hitems items fun v hm ↦ ih v hm (hv v hm)]
  | map entries ih =>
    have hv := Value.streamFreeEntries_iff.mp hv
    rw [literalBy, literalBy, hentries .key entries fun e hm ↦ ih e hm (hv e hm)]
  | record name fields ih =>
    have hv := Value.streamFreeEntries_iff.mp hv
    rw [literalBy, literalBy, hentries .field fields fun e hm ↦ ih e hm (hv e hm)]
  | stream => exact hv.elim
  | _ => rfl

theorem steady_literalsBy {vs : List Value} {path : Path}
    (h : ∀ v ∈ vs, ∀ path, Steady I (literalBy stream path v)) (i : Nat) :
    Steady I (literalsBy stream path i vs) := by
  induction vs generalizing i with
  | nil => exact .pure _
  | cons v vs ih =>
    obtain ⟨hv, hvs⟩ := List.forall_mem_cons.mp h
    exact (hv _).bind fun _ ↦ (ih hvs _).bind fun _ ↦ .pure _

theorem steady_literalEntriesBy {segment : String → Segment} {es : List (String × Value)}
    {path : Path} (h : ∀ e ∈ es, ∀ path, Steady I (literalBy stream path e.2)) :
    Steady I (literalEntriesBy stream path segment es) := by
  induction es with
  | nil => exact .pure _
  | cons e es ih =>
    obtain ⟨he, hes⟩ := List.forall_mem_cons.mp h
    exact (he _).bind fun _ ↦ (ih hes).bind fun _ ↦ .pure _

theorem steady_literalBy (hv : v.StreamFree) (path : Path) :
    Steady I (literalBy stream path v) := by
  induction v generalizing path with
  | list items ih =>
    have hv := Value.streamFreeItems_iff.mp hv
    exact (steady_literalsBy (fun v hm ↦ ih v hm (hv v hm)) _).map _
  | map entries ih =>
    have hv := Value.streamFreeEntries_iff.mp hv
    exact (steady_literalEntriesBy fun e hm ↦ ih e hm (hv e hm)).map _
  | record name fields ih =>
    have hv := Value.streamFreeEntries_iff.mp hv
    exact (steady_literalEntriesBy fun e hm ↦ ih e hm (hv e hm)).map _
  | stream => exact hv.elim
  | foreign => exact .throw _
  | _ => exact .pure _

theorem Value.steady_literal (hv : v.StreamFree) (onWorker : Bool) (path : Path) :
    Steady I (v.literal onWorker path) := by
  have hsteady : Steady I (literalBy (literalOfStream onWorker 0) path v) :=
    steady_literalBy hv path
  obtain ⟨o, ho⟩ := hsteady
  refine ⟨o, fun s hs ↦ ?_⟩
  rw [Value.literal, run_bind_of_ok (run_get s), literalBy_congr hv path]
  exact ho s hs

end

/-! ## What is further in -/

section

variable {α β : Type}

theorem steady_enter {work : Nat → α} {seg : Segment} {k : α × Place → Conversion β}
    (h : ∀ n, levels = n + 1 → Steady I (k (work n, place.child seg))) :
    Steady I (.ofExcept (enter (below work levels) place seg) >>= k) := by
  cases levels with
  | zero => exact .throw _
  | succ levels => exact h levels rfl

end

theorem steady_encodeItems {vs : List Value}
    (h : ∀ v ∈ vs, ∀ levels place, Steady I (r.encode worker levels place t v d)) (i : Nat) :
    Steady I (encodeItems (below (r.encode worker) levels) place t d i vs) := by
  induction vs generalizing i with
  | nil => exact .pure _
  | cons v vs ih =>
    obtain ⟨hv, hvs⟩ := List.forall_mem_cons.mp h
    exact steady_enter fun n _ ↦ (hv n _).bind fun _ ↦ (ih hvs _).bind fun _ ↦ .pure _

theorem steady_encodeEntries {es : List (String × Value)}
    (h : ∀ e ∈ es, ∀ levels place, Steady I (r.encode worker levels place t e.2 d)) :
    Steady I (encodeEntries (below (r.encode worker) levels) place t d es) := by
  induction es with
  | nil => exact .pure _
  | cons e es ih =>
    obtain ⟨he, hes⟩ := List.forall_mem_cons.mp h
    exact steady_enter fun n _ ↦ (he n _).bind fun _ ↦ (ih hes).bind fun _ ↦ .pure _

theorem steady_encodeFields {s : Schema} {declared : List (String × HostType × Descriptor)}
    (hfields : s.fields = declared.map fun f ↦ (f.1, f.2.1)) {describe : Describer}
    {onWorker : Bool} {vs : List (String × Value)} (hv : ∀ e ∈ vs, e.2.StreamFree)
    (h : ∀ e ∈ vs, ∀ t d, declared.lookup e.1 = some (t, d) →
      ∀ levels place, Steady I (r.encode worker levels place t e.2 d)) :
    Steady I (encodeFields (below (r.encode worker) levels) describe onWorker place s
      (declared.map fun f ↦ (f.1, f.2.2)) vs) := by
  induction vs with
  | nil => exact .pure _
  | cons e vs ih =>
    obtain ⟨hv, hvs⟩ := List.forall_mem_cons.mp hv
    obtain ⟨he, hes⟩ := List.forall_mem_cons.mp h
    cases levels with
    | zero => exact .throw _
    | succ n =>
      rw [below, encodeFields_cons]
      refine Steady.bind ?_ fun _ ↦ (ih hvs hes).bind fun _ ↦ .pure _
      rw [encodeField, Schema.get?_eq hfields, Entries.lookup_map_snd]
      cases hf : declared.lookup e.1 with
      | some f => exact he f.1 f.2 hf n _
      | none => exact Value.steady_literal hv _ _

theorem steady_decodeItems {ls : List Literal}
    (h : ∀ l ∈ ls, ∀ levels place, Steady I (r.decode worker levels place t l)) (i : Nat) :
    Steady I (decodeItems (below (r.decode worker) levels) place t i ls) := by
  induction ls generalizing i with
  | nil => exact .pure _
  | cons l ls ih =>
    obtain ⟨hl, hls⟩ := List.forall_mem_cons.mp h
    exact steady_enter fun n _ ↦ (hl n _).bind fun _ ↦ (ih hls _).bind fun _ ↦ .pure _

theorem steady_decodeEntries {es : List (String × Literal)}
    (h : ∀ e ∈ es, ∀ levels place, Steady I (r.decode worker levels place t e.2)) :
    Steady I (decodeEntries (below (r.decode worker) levels) place t es) := by
  induction es with
  | nil => exact .pure _
  | cons e es ih =>
    obtain ⟨he, hes⟩ := List.forall_mem_cons.mp h
    exact steady_enter fun n _ ↦ (he n _).bind fun _ ↦ (ih hes).bind fun _ ↦ .pure _

theorem steady_decodeFields {carried : List (String × Literal)} {fields : List (String × HostType)}
    (h : ∀ f ∈ fields, ∀ levels place l, Steady I (r.decode worker levels place f.2 l))
    (decoded : Entries Value) :
    Steady I (decodeFields (below (r.decode worker) levels) place carried decoded fields) := by
  induction fields generalizing decoded with
  | nil => exact .pure _
  | cons f fields ih =>
    obtain ⟨hf, hfields⟩ := List.forall_mem_cons.mp h
    refine steady_enter fun n _ ↦ ?_
    cases Entries.get? f.1 carried with
    | none => exact .throw _
    | some l => exact (hf n _ l).bind fun _ ↦ ih hfields _

/-! ## Values and literals by type -/

namespace Registry

/-- Sessions that remember a type as it is known describe it the same. -/
theorem run_describe_of_recalls (h : known t d) (levels : Nat) (place : Place) (s : Session)
    (hs : s.Recalls r known) : (r.describe levels place t).run s = (.ok d, s) :=
  run_describe_of_known (hs.knows t d h) levels place

theorem steady_encodeValued {describe : Conversion Descriptor}
    {encode : Value → Descriptor → Conversion Literal}
    (hdescribe : ∀ s, I s → describe.run s = (.ok d, s)) (hencode : Steady I (encode v d)) :
    Steady I (encodeValued describe encode v) := by
  unfold encodeValued
  split
  · exact .pure _
  · exact .bind_of_run hdescribe hencode

theorem steady_decodeValued {decode : Literal → Conversion Value} (h : Steady I (decode l)) :
    Steady I (decodeValued decode l) := by
  unfold decodeValued
  split
  · exact .pure _
  · exact h

/-- A value without streams is encoded the same in all sessions that remember what is known. -/
theorem Described.steady_encode (h : r.Described known t d) (hr : r.Builtin) (hv : v.StreamFree) :
    Steady (Session.Recalls r known) (r.encode worker levels place t v d) := by
  induction h generalizing levels place v with
  | @intro c parts t d _ resolved composed described ih =>
    have hdescribe (part : HostType × Descriptor) (hp : part ∈ parts) :=
      run_describe_of_recalls (described part hp).isKnown (r := r) levels place
    rw [encode_of_resolve resolved]
    cases composed with
    | jsonLines | plugin => cases hr.resolve resolved
    | @primitive _ kind =>
      cases v with
      | scalar s =>
        simp only [encodeBy]
        cases s.as? kind with
        | none => exact .throw _
        | some s => exact .pure _
      | _ => exact .throw _
    | reference =>
      cases v with
      | blob b =>
        simp only [encodeBy]
        split
        · exact .pure _
        · exact .throw _
      | _ => exact .throw _
    | @list t d =>
      cases v with
      | list vs =>
        have hv := Value.streamFreeItems_iff.mp hv
        refine (steady_encodeItems ?_ 0).map _
        exact fun v hm _ _ ↦ ih (t, d) List.mem_cons_self (hv v hm)
      | stream => exact hv.elim
      | _ => exact .throw _
    | @dict t d =>
      cases v with
      | map es =>
        have hv := Value.streamFreeEntries_iff.mp hv
        refine (steady_encodeEntries ?_).map _
        exact fun e hm _ _ ↦ ih (t, d) List.mem_cons_self (hv e hm)
      | _ => exact .throw _
    | @optional t d =>
      exact steady_encodeValued (hdescribe (t, d) List.mem_cons_self)
        (ih (t, d) List.mem_cons_self hv)
    | @plain members t d form member =>
      simp only [encodeBy, HostType.parts, valued?_map, form, member, Option.map_some]
      exact ih (t, d) List.mem_cons_self hv
    | @orNone members t d form member =>
      simp only [encodeBy, HostType.parts, valued?_map, form, member, Option.map_some]
      exact steady_encodeValued (hdescribe (t, d) List.mem_cons_self)
        (ih (t, d) List.mem_cons_self hv)
    | tagged form types distinct =>
      subst types
      simp only [encodeBy, HostType.parts, form, List.map_map]
      rw [firstAccepting_map]
      dsimp only [Function.comp_apply]
      cases hfirst : firstAccepting (place.noMember (.union (parts.map (·.1))) v)
        (fun part ↦ r.check levels place part.1 v) parts with
      | error f => exact .throw _
      | ok part =>
        have hmem := firstAccepting_mem hfirst
        refine .bind_of_run (fun _ _ ↦ rfl) ?_
        exact .bind_of_run (hdescribe part hmem) ((ih part hmem hv).map _)
    | @record _ s fields _ schema declared types =>
      subst types
      show Steady _ (.ofExcept (r.schemaOf t) >>= _)
      rw [schema]
      show Steady _ (.ofExcept (r.fieldsFor place s v) >>= _)
      cases hcarried : r.fieldsFor place s v with
      | error f => exact .throw _
      | ok carried =>
        obtain ⟨⟨name, rfl⟩, -⟩ := fieldsFor_eq_ok hcarried
        have hv := Value.streamFreeEntries_iff.mp hv
        refine (steady_encodeFields declared hv ?_).map _
        intro e he t d hlookup levels place
        exact ih (t, d) (List.mem_map_of_mem (Entries.mem_of_lookup hlookup)) (hv e he)

/-- A literal is decoded the same in all sessions that remember what is known. -/
theorem Described.steady_decode (h : r.Described known t d) (hr : r.Builtin) :
    Steady (Session.Recalls r known) (r.decode worker levels place t l) := by
  induction h generalizing levels place l with
  | @intro c parts t d _ resolved composed described ih =>
    cases composed with
    | jsonLines | plugin => cases hr.resolve resolved
    | @primitive _ kind =>
      rw [decode_of_resolve resolved]
      cases l with
      | scalar s =>
        simp only [decodeBy]
        cases s.as? kind with
        | none => exact .throw _
        | some s => exact .pure _
      | _ => exact .throw _
    | reference =>
      rw [decode_of_resolve resolved]
      cases l with
      | blob b =>
        simp only [decodeBy]
        split
        · exact .pure _
        · exact .throw _
      | _ => exact .throw _
    | @list t d =>
      rw [decode_of_resolve resolved]
      cases l with
      | collection ls =>
        exact (steady_decodeItems (fun _ _ _ _ ↦ ih (t, d) List.mem_cons_self) 0).map _
      | _ => exact .throw _
    | @dict t d =>
      rw [decode_of_resolve resolved]
      cases l with
      | mapping es =>
        exact (steady_decodeEntries fun _ _ _ _ ↦ ih (t, d) List.mem_cons_self).map _
      | _ => exact .throw _
    | @optional t d =>
      rw [decode_nullable (.optional resolved)]
      exact steady_decodeValued (ih (t, d) List.mem_cons_self)
    | @orNone members t d form member =>
      rw [decode_nullable (.union resolved form member)]
      exact steady_decodeValued (ih (t, d) List.mem_cons_self)
    | @plain members t d form member =>
      rw [decode_plain ⟨resolved, form, member⟩]
      exact ih (t, d) List.mem_cons_self
    | tagged form types distinct =>
      subst types
      have htagged : r.Tagged known parts :=
        ⟨resolved, form, distinct, fun part hp ↦ (described part hp).isKnown⟩
      have hrun (s : Session) (hs : s.Recalls r known) :
          (r.decode worker levels place (.union (parts.map (·.1))) l).run s = _ :=
        htagged.run_decode fun part hp ↦ hs.knows _ _ (htagged.known part hp)
      cases hmember : memberOf? parts l with
      | none =>
        rw [hmember] at hrun
        exact ⟨_, hrun⟩
      | some part =>
        rw [hmember] at hrun
        obtain ⟨o, ho⟩ := ih part (mem_of_memberOf? hmember)
        exact ⟨o, fun s hs ↦ (hrun s hs).trans (ho s hs)⟩
    | @record _ s fields _ schema declared types =>
      subst types
      rw [decode_of_resolve resolved]
      show Steady _ (.ofExcept (r.schemaOf t) >>= _)
      rw [schema]
      cases l with
      | record carried =>
        refine (steady_decodeFields ?_ _).bind fun _ ↦ .pure _
        intro f hf levels place l
        rw [declared] at hf
        obtain ⟨g, hg, rfl⟩ := List.mem_map.mp hf
        exact ih g.2 (List.mem_map_of_mem hg)
      | _ => exact .throw _

end Registry

end

end Interchange
