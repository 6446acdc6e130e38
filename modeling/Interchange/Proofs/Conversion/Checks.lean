import Interchange.Proofs.Conversion.Writes

/-!
# What a check comes to

A check goes through the items of a value, each in turn, so it passes just if it passes for each of
them.  What is inside a list, a map or a record is checked one level further in, and fails if there
is none.
-/

namespace Interchange

/-! ## Checks of lists -/

section

variable {α : Type} {f : α → Except Fault Unit} {as : List α}

theorem forM_eq_ok : as.forM f = .ok () ↔ ∀ a ∈ as, f a = .ok () := by
  induction as with
  | nil => exact ⟨fun _ ↦ List.forall_mem_nil _, fun _ ↦ rfl⟩
  | cons a as ih =>
    show (f a >>= fun _ ↦ as.forM f) = .ok () ↔ _
    rw [List.forall_mem_cons, ← ih]
    cases f a <;> simp

theorem firstAccepting_map {β : Type} {otherwise : Fault} (g : β → α) (bs : List β) :
    firstAccepting otherwise f (bs.map g) =
      g <$> firstAccepting otherwise (fun b ↦ f (g b)) bs := by
  induction bs with
  | nil => rfl
  | cons b bs ih =>
    simp only [List.map_cons, firstAccepting, ih]
    cases f (g b) with
    | ok _ => rfl
    | error e =>
      dsimp only
      split <;> rfl

end

/-! ## Checks by type -/

namespace Registry

variable {r : Registry} {known : Knowledge} {levels : Nat} {place : Place} {seg : Segment}
  {t : HostType} {v : Value}

/-- Checks a value one level further in, if there is one. -/
def checkIn (r : Registry) : Nat → Place → Segment → HostType → Value → Except Fault Unit
  | 0, place, seg, _, _ => .error (.nestingLimit (place.path.child seg))
  | levels + 1, place, seg, t, v => r.check levels (place.child seg) t v

theorem enter_check : (do
    let entered ← enter (below r.check levels) place seg
    entered.1 entered.2 t v) = r.checkIn levels place seg t v := by
  cases levels <;> rfl

theorem checkIn_eq_ok : r.checkIn levels place seg t v = .ok () ↔
    ∃ n, levels = n + 1 ∧ r.check n (place.child seg) t v = .ok () := by
  cases levels <;> simp [checkIn]

theorem checkItems_eq_forM (i : Nat) (vs : List Value) :
    checkItems (below r.check levels) place t i vs =
      (vs.zipIdx i).forM fun item ↦ r.checkIn levels place (.index item.2) t item.1 := by
  induction vs generalizing i with
  | nil => rfl
  | cons v vs ih =>
    show _ = (r.checkIn levels place (.index i) t v >>= fun _ ↦ _)
    rw [checkItems, ih, ← enter_check, bind_assoc]

theorem checkEntries_eq_forM (es : List (String × Value)) :
    checkEntries (below r.check levels) place t es =
      es.forM fun e ↦ r.checkIn levels place (.key e.1) t e.2 := by
  induction es with
  | nil => rfl
  | cons e es ih =>
    show _ = (r.checkIn levels place (.key e.1) t e.2 >>= fun _ ↦ _)
    rw [checkEntries, ih, ← enter_check, bind_assoc]

/-- Checks what a record carries under the name of a field. -/
def checkField (r : Registry) (levels : Nat) (place : Place) (carried : List (String × Value))
    (f : String × HostType) : Except Fault Unit :=
  match Entries.get? f.1 carried with
  | none => .ok ()
  | some v => r.checkIn levels place (.field f.1) f.2 v

theorem checkFields_eq_forM (carried : List (String × Value)) (fields : List (String × HostType)) :
    checkFields (below r.check levels) place carried fields =
      fields.forM (r.checkField levels place carried) := by
  induction fields with
  | nil => rfl
  | cons f fields ih =>
    show _ = (r.checkField levels place carried f >>= fun _ ↦ _)
    rw [checkFields, checkField]
    cases Entries.get? f.1 carried with
    | none => exact ih
    | some v =>
      dsimp only
      rw [ih, ← enter_check, bind_assoc]

theorem check_of_resolve {c : Converter} (h : r.resolve t = .ok c) :
    r.check levels place t v = r.checkBy (below r.check levels) place c t
      (t.parts.map fun part ↦ (part, r.check levels place part)) v := by
  rw [check_eq, checkStep, h]
  rfl

theorem check_list (h : r.resolve (.list t) = .ok .sequence) (vs : List Value) :
    r.check levels place (.list t) (.list vs) =
      vs.zipIdx.forM fun item ↦ r.checkIn levels place (.index item.2) t item.1 := by
  rw [check_of_resolve h]
  exact checkItems_eq_forM 0 vs

theorem check_dict (h : r.resolve (.dict t) = .ok .mapping) (es : List (String × Value)) :
    r.check levels place (.dict t) (.map es) =
      es.forM fun e ↦ r.checkIn levels place (.key e.1) t e.2 := by
  rw [check_of_resolve h]
  exact checkEntries_eq_forM es

theorem check_record {s : Schema} (h : r.resolve t = .ok .record) (hs : r.schemaOf t = .ok s) :
    r.check levels place t v = (do
      let fields ← r.fieldsFor place s v
      s.fields.forM (r.checkField levels place fields)) := by
  simp only [check_of_resolve h, checkBy, hs, ok_bind, checkFields_eq_forM]

theorem check_nullable {inner : HostType} (h : r.Nullable t inner) :
    r.check levels place t v = if v.isNone then .ok () else r.check levels place inner v := by
  cases h with
  | optional resolved =>
    rw [check_of_resolve resolved]
    rfl
  | union resolved form member =>
    rw [check_of_resolve resolved]
    simp only [checkBy, HostType.parts, valued?_map, form, member, Option.map_some]

theorem check_plain {members : List HostType} (h : r.Plain members t) :
    r.check levels place (.union members) v = r.check levels place t v := by
  rw [check_of_resolve h.resolved]
  simp only [checkBy, HostType.parts, valued?_map, h.form, h.member, Option.map_some]

theorem check_tagged {parts : List (HostType × Descriptor)} (h : r.Tagged known parts) :
    r.check levels place (.union (parts.map (·.1))) v =
      (firstAccepting (place.noMember (.union (parts.map (·.1))) v)
        (fun part ↦ r.check levels place part.1 v) parts).map fun _ ↦ () := by
  rw [check_of_resolve h.resolved]
  simp only [checkBy, HostType.parts, h.form, List.map_map]
  rw [firstAccepting_map]
  dsimp only [Function.comp_apply]
  cases firstAccepting _ _ parts <;> rfl

end Registry

end Interchange
