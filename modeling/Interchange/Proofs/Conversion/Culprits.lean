import Interchange.Proofs.Conversion.Predicting
import Interchange.Proofs.Conversion.Recursion

/-!
# Where a rejected value is at fault

A fault that rejects a value carries a path and says something of what stands there: how it is
described, or which field it lacks or carries.  Following the path from the value leads to a part of
which that is true.

What checks and encodes a part knows its place, and goes one step further in with the very part that
the step leads to.  So a fault that points into the part points into the whole as well.  A union
drops the faults of members that reject the value, and says only that none takes it.
-/

namespace Interchange

open Session Attempt

/-! ## Following paths -/

namespace Value

/-- The part of a value that a step leads to. -/
def step? : Value → Segment → Option Value
  | list items, .index i => items[i]?
  | map entries, .key name => Entries.get? name entries
  | record _ fields, .field name => Entries.get? name fields
  | _, _ => Option.none

/-- The part of a value that the steps of a path lead to. -/
def at? (v : Value) (steps : Path) : Option Value := steps.foldlM step? v

theorem at?_cons (v : Value) (seg : Segment) (steps : Path) :
    v.at? (seg :: steps) = (v.step? seg).bind (·.at? steps) := List.foldlM_cons

end Value

namespace Fault

/-- What a fault says of a value at a path is true of it. -/
inductive Accuses : Fault → Path → Value → Prop
  | typeMismatch (path : Path) (expected : String) (w : Value) :
      Accuses (.typeMismatch path expected w.describe) path w
  | noMatchingMember (path : Path) (union : String) (w : Value) :
      Accuses (.noMatchingMember path union w.describe) path w
  | missingField (path : Path) (name : Option String) {field : String}
      {fields : List (String × Value)} (missing : Entries.get? field fields = none) :
      Accuses (.missingField path field) path (.record name fields)
  | unexpectedField (path : Path) (name : Option String) {field : String} {w : Value}
      {fields : List (String × Value)} (carried : Entries.get? field fields = some w) :
      Accuses (.unexpectedField path field) path (.record name fields)

/-- A fault that rejects a value at a place has a path that goes on from there to a part of which it
says what is true. -/
def PointsInto (place : Place) (v : Value) (f : Fault) : Prop :=
  f.isRejection = true → ∃ steps w, v.at? steps = some w ∧ f.Accuses (place.path ++ steps) w

variable {f : Fault} {place : Place} {v w : Value}

theorem pointsInto_of_not_isRejection (h : f.isRejection = false) : f.PointsInto place v := by
  intro hf
  cases h.symm.trans hf

theorem Accuses.pointsInto (h : f.Accuses place.path v) : f.PointsInto place v := by
  intro _
  refine ⟨[], v, rfl, ?_⟩
  rwa [List.append_nil]

/-- What points into a part points into the whole. -/
theorem PointsInto.outward {seg : Segment} (h : f.PointsInto (place.child seg) w)
    (hstep : v.step? seg = some w) : f.PointsInto place v := by
  intro hf
  obtain ⟨steps, u, hu, haccuses⟩ := h hf
  refine ⟨seg :: steps, u, ?_, ?_⟩
  · rw [Value.at?_cons, hstep]
    exact hu
  · rwa [Place.path_child, Path.child, List.append_assoc] at haccuses

/-- Faults of types do not reject values. -/
theorem OfType.isRejection_eq_false (h : f.OfType) : f.isRejection = false := by
  cases h <;> rfl

end Fault

/-! ## Outcomes and their faults -/

/-- An outcome is no fault but of a kind. -/
def Errs {α : Type} (P : Fault → Prop) (x : Except Fault α) : Prop := ∀ f, x = .error f → P f

namespace Errs

variable {α β : Type} {P : Fault → Prop} {x : Except Fault α} {f : Fault}

theorem ok (a : α) : Errs P (.ok a) := fun _ h ↦ nomatch h

theorem error (h : P f) : Errs P (.error f : Except Fault α) := by
  rintro _ ⟨⟩
  exact h

theorem bind {k : α → Except Fault β} (hx : Errs P x) (hk : ∀ a, x = .ok a → Errs P (k a)) :
    Errs P (x >>= k) := by
  cases x with
  | error f => exact .error (hx f rfl)
  | ok a => exact hk a rfl

theorem map {g : α → β} (hx : Errs P x) : Errs P (x.map g) := by
  cases x with
  | error f => exact .error (hx f rfl)
  | ok a => exact .ok _

theorem forM {as : List α} {check : α → Except Fault Unit} (h : ∀ a ∈ as, Errs P (check a)) :
    Errs P (as.forM check) := by
  induction as with
  | nil => exact .ok ()
  | cons a as ih =>
    obtain ⟨ha, has⟩ := List.forall_mem_cons.mp h
    exact ha.bind fun _ _ ↦ ih has

/-- A search among candidates drops the faults with which these reject. -/
theorem firstAccepting {as : List α} {check : α → Except Fault Unit} {otherwise : Fault}
    (hnone : P otherwise) (h : ∀ f, f.isRejection = false → P f) :
    Errs P (firstAccepting otherwise check as) := by
  induction as with
  | nil => exact .error hnone
  | cons a as ih =>
    unfold Interchange.firstAccepting
    cases check a with
    | ok => exact .ok a
    | error f =>
      dsimp only
      split
      · exact ih
      · next hf => exact .error (h f (by simpa using hf))

end Errs

/-! ## Faults of checks -/

namespace Registry

open Fault

variable {r : Registry} {levels : Nat} {place : Place} {t : HostType} {v : Value} {f : Fault}

theorem errs_mismatch {α : Type} (expected : String) :
    Errs (PointsInto place v) (.error (place.mismatch expected v) : Except Fault α) :=
  .error (Accuses.typeMismatch _ _ _).pointsInto

theorem errs_unsupported {α : Type} (t : HostType) :
    Errs (PointsInto place v) (.error (unsupported t) : Except Fault α) :=
  .error (pointsInto_of_not_isRejection rfl)

/-- What is at fault inside a value is where the step to it leads. -/
theorem errs_checkIn {seg : Segment} {w : Value} (hstep : v.step? seg = some w)
    (h : ∀ n, levels = n + 1 →
      Errs (PointsInto (place.child seg) w) (r.check n (place.child seg) t w)) :
    Errs (PointsInto place v) (r.checkIn levels place seg t w) := by
  cases levels with
  | zero => exact .error (pointsInto_of_not_isRejection rfl)
  | succ n => exact fun f hf ↦ (h n rfl f hf).outward hstep

/-- A record that does not fit a schema as a whole is itself at fault. -/
theorem errs_fieldsFor (place : Place) (s : Schema) (ho : v.Ordered) :
    Errs (PointsInto place v) (r.fieldsFor place s v) := by
  cases v with
  | record name fields =>
    simp only [fieldsFor]
    split
    · exact errs_mismatch _
    · split
      · next hmissing =>
        have hnone := List.find?_some hmissing
        exact .error
          (Accuses.missingField _ _ (Option.isNone_iff_eq_none.mp hnone)).pointsInto
      · split
        · next hextra =>
          have hcarried := Entries.get?_of_mem ho.1 (List.mem_of_find?_eq_some hextra)
          exact .error (Accuses.unexpectedField _ _ hcarried).pointsInto
        · exact .ok _
  | _ => exact errs_mismatch _

/-- A built-in converter finds the value at fault, or what is inside it. -/
theorem errs_checkBy {c : Converter} (hc : c.isBuiltin) (ho : v.Ordered)
    (hin : ∀ seg t w, v.step? seg = some w → w.Ordered →
      Errs (PointsInto place v) (r.checkIn levels place seg t w))
    (hparts : ∀ part ∈ t.parts, Errs (PointsInto place v) (r.check levels place part v)) :
    Errs (PointsInto place v) (r.checkBy (below r.check levels) place c t
      (t.parts.map fun part ↦ (part, r.check levels place part)) v) := by
  have hnullable {inner : HostType} (ht : inner ∈ t.parts) :
      Errs (PointsInto place v) (if v.isNone then .ok () else r.check levels place inner v) := by
    split
    · exact .ok ()
    · exact hparts inner ht
  cases c with
  | jsonLines | plugin => cases hc
  | primitive kind =>
    cases v with
    | scalar s =>
      simp only [checkBy]
      split
      · exact .ok ()
      · exact errs_mismatch _
    | _ => exact errs_mismatch _
  | reference name extent =>
    cases v with
    | blob b =>
      simp only [checkBy]
      split
      · exact .ok ()
      · exact errs_mismatch _
    | _ => exact errs_mismatch _
  | sequence =>
    cases t with
    | list t =>
      cases v with
      | list vs =>
        simp only [checkBy, checkItems_eq_forM]
        refine .forM fun item hitem ↦ hin _ t item.1 ?_ ?_
        · exact List.mem_zipIdx_iff_getElem?.mp hitem
        · exact Value.orderedItems_iff.mp ho _ (List.fst_mem_of_mem_zipIdx hitem)
      | stream => exact .ok ()
      | _ => exact errs_mismatch _
    | _ => exact errs_unsupported _
  | mapping =>
    cases t with
    | dict t =>
      cases v with
      | map es =>
        simp only [checkBy, checkEntries_eq_forM]
        refine .forM fun e he ↦ hin _ t e.2 ?_ ?_
        · exact Entries.get?_of_mem ho.1 he
        · exact Value.orderedEntries_iff.mp ho.2 e he
      | _ => exact errs_mismatch _
    | _ => exact errs_unsupported _
  | optional =>
    cases t with
    | optional t => exact hnullable List.mem_cons_self
    | _ => exact errs_unsupported _
  | union =>
    cases t with
    | union members =>
      simp only [checkBy, HostType.parts, valued?_map]
      cases HostType.unionForm members with
      | void => exact errs_unsupported _
      | plain =>
        cases hv : HostType.valued? members with
        | none => exact errs_unsupported _
        | some m => exact hparts m (List.mem_of_find?_eq_some hv)
      | optional =>
        cases hv : HostType.valued? members with
        | none => exact errs_unsupported _
        | some m => exact hnullable (List.mem_of_find?_eq_some hv)
      | tagged =>
        have hnone : (place.noMember (.union members) v).PointsInto place v :=
          (Accuses.noMatchingMember _ _ _).pointsInto
        exact (Errs.firstAccepting hnone fun f ↦ pointsInto_of_not_isRejection).map
    | _ => exact errs_unsupported _
  | record =>
    simp only [checkBy]
    refine .bind ?_ fun s hs ↦ (errs_fieldsFor place s ho).bind fun carried hcarried ↦ ?_
    · intro f hf
      exact pointsInto_of_not_isRejection (ofType_of_schemaOf hf).isRejection_eq_false
    · obtain ⟨⟨name, rfl⟩, -⟩ := fieldsFor_eq_ok hcarried
      rw [checkFields_eq_forM]
      refine .forM fun field _ ↦ ?_
      unfold checkField
      split
      · exact .ok ()
      · next w hw => exact hin _ _ w hw (Value.orderedEntries_iff.mp ho.2 _ (Entries.mem_of_get? hw))

/-- A check that fails points into the value. -/
theorem errs_check (hr : r.Builtin) (levels : Nat) (place : Place) (t : HostType)
    (ho : v.Ordered) : Errs (PointsInto place v) (r.check levels place t v) := by
  induction levels, t using HostType.levels_induction generalizing place v with
  | step levels t deeper ih =>
    rw [check_eq]
    refine .bind ?_ fun c hc ↦ errs_checkBy (hr.resolve hc) ho ?_ fun part hp ↦ ih part hp place ho
    · intro f hf
      exact pointsInto_of_not_isRejection (ofType_of_resolve hf).isRejection_eq_false
    · intro seg t w hstep how
      exact errs_checkIn hstep fun n hn ↦ deeper n hn t (place.child seg) how

/-! ## Faults of encoding -/

/-- Snags are no rejections. -/
theorem Snag.isRejection_eq_false (h : r.Snag levels place t v f) : f.isRejection = false := by
  cases h <;> rfl

/-- A fault in a value points into it. -/
theorem Faults.pointsInto (hr : r.Builtin) (h : r.Faults levels place t v f) (ho : v.Ordered) :
    f.PointsInto place v := by
  induction h with
  | here holds =>
    rcases holds with hsnag | hcheck
    · exact pointsInto_of_not_isRejection hsnag.isRejection_eq_false
    · exact errs_check hr _ _ _ ho _ hcheck
  | item _ mem _ ih =>
    have how := Value.orderedItems_iff.mp ho _ (List.fst_mem_of_mem_zipIdx mem)
    exact (ih how).outward (List.mem_zipIdx_iff_getElem?.mp mem)
  | entry _ mem _ ih =>
    have how := Value.orderedEntries_iff.mp ho.2 _ mem
    exact (ih how).outward (Entries.get?_of_mem ho.1 mem)
  | field _ _ _ found _ ih =>
    have how := Value.orderedEntries_iff.mp ho.2 _ (Entries.mem_of_get? found)
    exact (ih how).outward found
  | present _ _ _ ih | plain _ _ ih | member _ _ _ _ ih => exact ih ho

end Registry

/-! ## Engines -/

namespace Engine

variable {e : Engine} {t : HostType} {v : Value} {f : Fault}

/-- With the built-in converters, a fault with which a value without streams is refused a literal
points into the value. -/
theorem pointsInto_of_toLiteral (he : e.Reachable) (hr : e.setup.registry.Standard)
    (ht : e.setup.registry.DistinctFields t) (ho : v.Ordered) (hv : v.StreamFree)
    (hf : (convert fun u ↦ u.toLiteral .root t v).outcome e = .error f) : f.PointsInto .root v := by
  have hends := hr.builtin.unplugged.failsByType_describe (e.setup.levels .root) .root t
  rcases outcome_of_ends (fun u ↦ u.describe .root t) hends trivial with
    ⟨d, hd, -⟩ | ⟨f', hf', htype⟩
  · rcases he.outcome_toLiteral hr.builtin.unplugged ht ho hv rfl hd with
      ⟨l, hl, -⟩ | ⟨f', hf', hfaults | ⟨-, g, rfl⟩⟩
    · cases hl.symm.trans hf
    · cases hf'.symm.trans hf
      exact hfaults.pointsInto hr.builtin ho
    · cases hf'.symm.trans hf
      exact Fault.pointsInto_of_not_isRejection rfl
  · have hrun : (e.setup.describe .root t).run e.session =
        (.error f', ((e.setup.describe .root t).run e.session).2) := Prod.ext hf' rfl
    have hliteral : (e.setup.toLiteral .root t v).run e.session = _ := run_bind_of_error hrun _
    cases (outcome_of_run (run_convert_of_run hliteral)).symm.trans hf
    exact Fault.pointsInto_of_not_isRejection htype.isRejection_eq_false

/-- With the built-in converters, following the path of a fault with which a value without streams
is rejected leads to a part that is described as the fault says, or to a record that lacks or
carries the field. -/
theorem toLiteral_culprit (he : e.Reachable) (hr : e.setup.registry.Standard)
    (ht : e.setup.registry.DistinctFields t) (ho : v.Ordered) (hv : v.StreamFree)
    (hf : (convert fun u ↦ u.toLiteral .root t v).outcome e = .error f) :
    (∀ path expected found, f = .typeMismatch path expected found →
      ∃ w, v.at? path = some w ∧ w.describe = found) ∧
    (∀ path union found, f = .noMatchingMember path union found →
      ∃ w, v.at? path = some w ∧ w.describe = found) ∧
    (∀ path field, f = .missingField path field → ∃ name fields,
      v.at? path = some (.record name fields) ∧ Entries.get? field fields = none) ∧
    ∀ path field, f = .unexpectedField path field → ∃ name fields,
      v.at? path = some (.record name fields) ∧ (Entries.get? field fields).isSome := by
  have hpoints := pointsInto_of_toLiteral he hr ht ho hv hf
  refine ⟨?_, ?_, ?_, ?_⟩
  · rintro path expected found rfl
    obtain ⟨steps, w, hw, haccuses⟩ := hpoints rfl
    cases haccuses
    exact ⟨w, hw, rfl⟩
  · rintro path union found rfl
    obtain ⟨steps, w, hw, haccuses⟩ := hpoints rfl
    cases haccuses
    exact ⟨w, hw, rfl⟩
  · rintro path field rfl
    obtain ⟨steps, w, hw, haccuses⟩ := hpoints rfl
    cases haccuses with
    | missingField _ name missing => exact ⟨name, _, hw, missing⟩
  · rintro path field rfl
    obtain ⟨steps, w, hw, haccuses⟩ := hpoints rfl
    cases haccuses with
    | unexpectedField _ name carried => exact ⟨name, _, hw, by rw [carried]; rfl⟩

/-- Maps of points, where a point has a truth value for its label. -/
def mislabelled : Value :=
  .list [.map [], .map [("p", .record (some "point") [("label", .scalar (.boolean true)),
    ("x", .scalar (.integer 3))])]]

/-- The truth value is found at fault, where it stands. -/
theorem toLiteral_culprit_label :
    (convert fun u ↦ u.toLiteral .root (.list (.dict (.named "point"))) mislabelled).outcome
      pointEngine = .error (.noMatchingMember [.index 1, .key "p", .field "label"]
        (HostType.union [.ofKind .integer, .ofKind .string]).text "bool") ∧
    ∃ w, mislabelled.at? [.index 1, .key "p", .field "label"] = some w ∧ w.describe = "bool" := by
  have hf : (convert fun u ↦ u.toLiteral .root (.list (.dict (.named "point")))
      mislabelled).outcome pointEngine =
      .error (.noMatchingMember [.index 1, .key "p", .field "label"]
        (HostType.union [.ofKind .integer, .ofKind .string]).text "bool") := rfl
  have hcloses : pointEngine.setup.registry.closes [.list (.dict (.named "point")),
      .dict (.named "point"), .named "point", .ofKind .float,
      .union [.ofKind .integer, .ofKind .string], .ofKind .integer, .ofKind .string] = true := by
    decide +kernel
  have ht := Registry.distinctFields_of_closes hcloses List.mem_cons_self
  have ho : mislabelled.Ordered := by
    refine ⟨⟨Entries.ordered_nil, trivial⟩, ⟨List.pairwise_singleton _ _, ⟨?_, trivial, trivial,
      trivial⟩, trivial⟩, trivial⟩
    decide +kernel
  have hv : mislabelled.StreamFree :=
    ⟨trivial, ⟨⟨trivial, trivial, trivial⟩, trivial⟩, trivial⟩
  obtain ⟨-, hmember, -, -⟩ :=
    toLiteral_culprit reachable_pointEngine standard_pointEngine ht ho hv hf
  exact ⟨hf, hmember _ _ _ rfl⟩

end Engine

end Interchange
