import Interchange.Proofs.Conversion.Culprits
import Interchange.Proofs.Json.Value

/-!
# Values that JSON lacks

The parts of a value are the values in it, itself first, in the order of lists and of keys, each
with the steps that lead to it.  JSON has no value for times, spans, bytes, references, streams,
foreign values and floats that are not finite.  A value has a JSON value if no part of it is one of
these, and otherwise the first part that is one is at fault.
-/

namespace Interchange

namespace Value

/-! ## Parts -/

/-- A part of what a step leads to, as a part of the value that the step is from. -/
def behind (seg : Segment) (part : Path × Value) : Path × Value := (seg :: part.1, part.2)

mutual

/-- The values in a value, itself first, with the steps that lead to them. -/
def parts : Value → List (Path × Value)
  | list items => ([], list items) :: itemParts 0 items
  | map entries => ([], map entries) :: entryParts .key entries
  | record name fields => ([], record name fields) :: entryParts .field fields
  | v => [([], v)]

/-- The parts of the items of a list from a position on. -/
def itemParts (position : Nat) : List Value → List (Path × Value)
  | [] => []
  | v :: vs => (parts v).map (behind (.index position)) ++ itemParts (position + 1) vs

/-- The parts of entries, given how the path goes on to an entry. -/
def entryParts (step : String → Segment) : List (String × Value) → List (Path × Value)
  | [] => []
  | (name, v) :: es => (parts v).map (behind (step name)) ++ entryParts step es

end

variable {v w : Value} {seg : Segment} {steps : Path} {items : List Value}
  {entries : List (String × Value)}

theorem mem_map_behind_iff {t : Segment} : (steps, w) ∈ v.parts.map (behind t) ↔
    ∃ inner, steps = t :: inner ∧ (inner, w) ∈ v.parts := by
  constructor
  · intro h
    obtain ⟨part, hpart, heq⟩ := List.mem_map.mp h
    cases heq
    exact ⟨part.1, rfl, hpart⟩
  · rintro ⟨inner, rfl, hpart⟩
    exact List.mem_map.mpr ⟨_, hpart, rfl⟩

theorem mem_itemParts_iff {position : Nat} : (steps, w) ∈ itemParts position items ↔
    ∃ i v inner, items[i]? = some v ∧ steps = .index (position + i) :: inner ∧
      (inner, w) ∈ v.parts := by
  induction items generalizing position with
  | nil => simp [itemParts]
  | cons v vs ih =>
    rw [itemParts, List.mem_append, mem_map_behind_iff, ih]
    constructor
    · rintro (⟨inner, rfl, hpart⟩ | ⟨i, u, inner, hi, rfl, hpart⟩)
      · exact ⟨0, v, inner, rfl, rfl, hpart⟩
      · exact ⟨i + 1, u, inner, hi, by rw [Nat.add_right_comm, Nat.add_assoc], hpart⟩
    · rintro ⟨_ | i, u, inner, hi, rfl, hpart⟩
      · cases hi
        exact .inl ⟨inner, rfl, hpart⟩
      · exact .inr ⟨i, u, inner, hi, by rw [Nat.add_right_comm, Nat.add_assoc], hpart⟩

theorem mem_entryParts_iff {step : String → Segment} : (steps, w) ∈ entryParts step entries ↔
    ∃ e ∈ entries, ∃ inner, steps = step e.1 :: inner ∧ (inner, w) ∈ e.2.parts := by
  induction entries with
  | nil => simp [entryParts]
  | cons e es ih =>
    rw [entryParts, List.mem_append, mem_map_behind_iff, ih]
    simp only [List.mem_cons, exists_eq_or_imp]

/-- The first step to a part other than the value itself leads to a value of which it is a part. -/
theorem mem_parts_iff (ho : v.Ordered) : (steps, w) ∈ v.parts ↔ (steps = [] ∧ w = v) ∨
    ∃ seg u inner, v.step? seg = some u ∧ steps = seg :: inner ∧ (inner, w) ∈ u.parts := by
  have hnone (hstep : ∀ seg, v.step? seg = Option.none) (hparts : v.parts = [([], v)]) :
      (steps, w) ∈ v.parts ↔ (steps = [] ∧ w = v) ∨
        ∃ seg u inner, v.step? seg = some u ∧ steps = seg :: inner ∧ (inner, w) ∈ u.parts := by
    simp [hparts, hstep]
  cases v with
  | scalar | blob | stream | foreign => exact hnone (fun _ ↦ rfl) rfl
  | list items =>
    rw [parts, List.mem_cons, Prod.mk.injEq, mem_itemParts_iff]
    refine or_congr_right ?_
    constructor
    · rintro ⟨i, u, inner, hi, rfl, hpart⟩
      exact ⟨.index (0 + i), u, inner, by rwa [Nat.zero_add], rfl, hpart⟩
    · rintro ⟨_ | i | _, u, inner, hi, rfl, hpart⟩
      · cases hi
      · exact ⟨i, u, inner, hi, by rw [Nat.zero_add], hpart⟩
      · cases hi
  | map entries =>
    rw [parts, List.mem_cons, Prod.mk.injEq, mem_entryParts_iff]
    refine or_congr_right ?_
    constructor
    · rintro ⟨e, he, inner, rfl, hpart⟩
      exact ⟨.key e.1, e.2, inner, Entries.get?_of_mem ho.1 he, rfl, hpart⟩
    · rintro ⟨_ | _ | name, u, inner, hu, rfl, hpart⟩
      · cases hu
      · cases hu
      · exact ⟨(name, u), Entries.mem_of_get? hu, inner, rfl, hpart⟩
  | record name fields =>
    rw [parts, List.mem_cons, Prod.mk.injEq, mem_entryParts_iff]
    refine or_congr_right ?_
    constructor
    · rintro ⟨e, he, inner, rfl, hpart⟩
      exact ⟨.field e.1, e.2, inner, Entries.get?_of_mem ho.1 he, rfl, hpart⟩
    · rintro ⟨name | _ | _, u, inner, hu, rfl, hpart⟩
      · exact ⟨(name, u), Entries.mem_of_get? hu, inner, rfl, hpart⟩
      · cases hu
      · cases hu

theorem ordered_of_step? (ho : v.Ordered) (h : v.step? seg = some w) : w.Ordered := by
  cases v with
  | list items =>
    cases seg with
    | index i => exact orderedItems_iff.mp ho w (List.mem_of_getElem? h)
    | field | key => cases h
  | map entries =>
    cases seg with
    | key name => exact orderedEntries_iff.mp ho.2 _ (Entries.mem_of_get? h)
    | field | index => cases h
  | record name fields =>
    cases seg with
    | field name => exact orderedEntries_iff.mp ho.2 _ (Entries.mem_of_get? h)
    | key | index => cases h
  | _ => cases seg <;> cases h

/-- The parts of a value are what paths lead to. -/
theorem mem_parts_iff_at? (ho : v.Ordered) : (steps, w) ∈ v.parts ↔ v.at? steps = some w := by
  induction steps generalizing v with
  | nil =>
    rw [mem_parts_iff ho]
    simp [at?, eq_comm]
  | cons seg steps ih =>
    rw [mem_parts_iff ho, at?_cons, Option.bind_eq_some_iff]
    constructor
    · rintro (⟨⟨⟩, -⟩ | ⟨_, u, _, hu, ⟨⟩, hpart⟩)
      exact ⟨u, hu, (ih (ordered_of_step? ho hu)).mp hpart⟩
    · rintro ⟨u, hu, hpart⟩
      exact .inr ⟨seg, u, steps, hu, rfl, (ih (ordered_of_step? ho hu)).mpr hpart⟩

/-! ## The first part that JSON lacks -/

/-- Whether JSON has no value for a value, whatever is inside it. -/
def lacksJson : Value → Bool
  | scalar (.datetime _) | scalar (.duration _) | scalar (.binary _) => true
  | scalar (.float x) => !x.isFinite
  | blob _ | stream _ | foreign _ _ _ => true
  | _ => false

/-- The first of some parts that JSON lacks. -/
def firstLacking? (parts : List (Path × Value)) : Option (Path × Value) :=
  parts.find? (·.2.lacksJson)

theorem firstLacking?_eq_none_iff {ps : List (Path × Value)} :
    firstLacking? ps = Option.none ↔ ∀ part ∈ ps, part.2.lacksJson = false := by
  simp [firstLacking?]

/-- A result blames a part, if there is one to blame, and is a value otherwise. -/
def Blames {α : Type} (path : Path) (x : Except Fault α) : Option (Path × Value) → Prop
  | Option.none => ∃ a, x = .ok a
  | some part => x = .error (.typeMismatch (path ++ part.1) "JSON value" part.2.describe)

section

variable {α β : Type} {path : Path} {ps qs : List (Path × Value)} {x : Except Fault α}

theorem blames_bind {k : α → Except Fault β} (hx : Blames path x (firstLacking? ps))
    (hk : ∀ a, Blames path (k a) (firstLacking? qs)) :
    Blames path (x >>= k) (firstLacking? (ps ++ qs)) := by
  unfold firstLacking? at hx ⊢
  rw [List.find?_append]
  cases hps : ps.find? (·.2.lacksJson) with
  | none =>
    rw [hps] at hx
    obtain ⟨a, rfl⟩ := hx
    exact hk a
  | some part =>
    rw [hps] at hx
    cases (hx : x = _)
    rfl

theorem blames_map (hx : Blames path x (firstLacking? ps)) (f : α → β) :
    Blames path (x >>= fun a ↦ .ok (f a)) (firstLacking? ps) := by
  have h : Blames path (x >>= fun a ↦ .ok (f a)) (firstLacking? (ps ++ [])) :=
    blames_bind hx fun a ↦ ⟨f a, rfl⟩
  rwa [List.append_nil] at h

/-- What is to blame further in is to blame in the whole. -/
theorem Blames.outward (hx : Blames (path.child seg) x (firstLacking? ps)) :
    Blames path x (firstLacking? (ps.map (behind seg))) := by
  have hsame : (fun part : Path × Value ↦ part.2.lacksJson) ∘ behind seg =
      fun part ↦ part.2.lacksJson := rfl
  unfold firstLacking? at hx ⊢
  rw [List.find?_map, hsame]
  cases hps : ps.find? (·.2.lacksJson) with
  | none =>
    rw [hps] at hx
    exact hx
  | some part =>
    rw [hps] at hx
    cases (hx : x = _)
    rw [Path.child, List.append_assoc]
    rfl

/-- A value that JSON lacks is itself to blame. -/
theorem blames_self (h : v.lacksJson = true) (hx : x = .error (noJson path v)) :
    Blames path x (firstLacking? (([], v) :: ps)) := by
  have hfirst : firstLacking? (([], v) :: ps) = some ([], v) := List.find?_cons_of_pos h
  rw [hfirst, hx, Blames, List.append_nil]
  rfl

/-- A value that JSON does not lack is not to blame; what is inside it may be. -/
theorem blames_within (h : v.lacksJson = false) (hx : Blames path x (firstLacking? ps)) :
    Blames path x (firstLacking? (([], v) :: ps)) := by
  have hfirst : firstLacking? (([], v) :: ps) = firstLacking? ps :=
    List.find?_cons_of_neg (Bool.eq_false_iff.mp h)
  rwa [hfirst]

end

/-! ## JSON values -/

variable {path : Path}

theorem blames_scalar (path : Path) (s : Scalar) :
    Blames path ((scalar s).toJson path) (firstLacking? (scalar s).parts) := by
  cases s with
  | none | boolean | integer | string => exact ⟨_, rfl⟩
  | datetime | duration | binary => exact blames_self rfl rfl
  | float x =>
    cases hx : x.isFinite with
    | true =>
      refine blames_within (by simp [lacksJson, hx]) ⟨.float x, ?_⟩
      rw [toJson, Scalar.toJsonValue?, if_pos hx]
    | false =>
      refine blames_self (by simp [lacksJson, hx]) ?_
      rw [toJson, Scalar.toJsonValue?, if_neg (by simp [hx])]

theorem blames_items
    (h : ∀ v ∈ items, ∀ path, Blames path (v.toJson path) (firstLacking? v.parts))
    (position : Nat) :
    Blames path (itemsToJson path position items) (firstLacking? (itemParts position items)) := by
  induction items generalizing position with
  | nil => exact ⟨[], rfl⟩
  | cons v vs ih =>
    obtain ⟨hv, hvs⟩ := List.forall_mem_cons.mp h
    exact blames_bind (hv _).outward fun j ↦ blames_map (ih hvs (position + 1)) (j :: ·)

theorem blames_entries
    (h : ∀ e ∈ entries, ∀ path, Blames path (e.2.toJson path) (firstLacking? e.2.parts))
    (step : String → Segment) :
    Blames path (entriesToJson path step entries) (firstLacking? (entryParts step entries)) := by
  induction entries with
  | nil => exact ⟨[], rfl⟩
  | cons e es ih =>
    obtain ⟨he, hes⟩ := List.forall_mem_cons.mp h
    exact blames_bind (he _).outward fun j ↦ blames_map (ih hes) ((e.1, j) :: ·)

/-- Of the parts of a value the first that JSON lacks is to blame, if there is one. -/
theorem blames_toJson (v : Value) (path : Path) :
    Blames path (v.toJson path) (firstLacking? v.parts) := by
  induction v generalizing path with
  | scalar s => exact blames_scalar path s
  | list items ih => exact blames_within rfl (blames_map (blames_items ih 0) Json.array)
  | map entries ih => exact blames_within rfl (blames_map (blames_entries ih .key) Json.object)
  | record name fields ih =>
    exact blames_within rfl (blames_map (blames_entries ih .field) Json.object)
  | blob | stream | foreign => exact blames_self rfl rfl

/-- A value has a JSON value just if JSON lacks none of its parts, and is read back from it with
maps for its records.  Otherwise the first part that JSON lacks, in the order of lists and of keys,
is found at fault where it stands. -/
theorem toJson_of_parts (v : Value) (path : Path) :
    ((∃ j, v.toJson path = .ok j) ↔ ∀ part ∈ v.parts, part.2.lacksJson = false) ∧
    (∀ j, v.toJson path = .ok j → ofJson j = v.unnamed) ∧
    (∀ e, v.toJson path = .error e ↔ ∃ steps w, firstLacking? v.parts = some (steps, w) ∧
      e = .typeMismatch (path ++ steps) "JSON value" w.describe) ∧
    (v.Ordered → ∀ steps w, (steps, w) ∈ v.parts ↔ v.at? steps = some w) := by
  have hblames := v.blames_toJson path
  refine ⟨?_, fun j hj ↦ (isJson_toJson hj).ofJson, ?_, fun ho _ _ ↦ mem_parts_iff_at? ho⟩
  · rw [← firstLacking?_eq_none_iff]
    cases hfirst : firstLacking? v.parts with
    | none =>
      rw [hfirst] at hblames
      exact iff_of_true hblames rfl
    | some part =>
      rw [hfirst] at hblames
      refine iff_of_false ?_ nofun
      rintro ⟨j, hj⟩
      cases hj.symm.trans hblames
  · intro e
    cases hfirst : firstLacking? v.parts with
    | none =>
      rw [hfirst] at hblames
      obtain ⟨j, hj⟩ := hblames
      simp [hj]
    | some part =>
      rw [hfirst] at hblames
      rw [(hblames : v.toJson path = _)]
      constructor
      · rintro ⟨⟩
        exact ⟨part.1, part.2, rfl, rfl⟩
      · rintro ⟨steps, w, ⟨⟩, rfl⟩
        rfl

/-- A record with a list of an integer and bytes, and a span after it. -/
def attachment : Value := record (some "Attachment") [
  ("content", list [scalar (.integer 1), scalar (.binary [0, 1])]),
  ("delay", scalar (.duration ⟨0, by decide⟩))]

/-- The bytes are at fault, not the list around them nor the span after them.  They are a part of
the record, which its path leads to. -/
theorem toJson_of_parts_attachment :
    attachment.Ordered ∧
    attachment.toJson .root =
      .error (.typeMismatch [.field "content", .index 1] "JSON value" "bytes") ∧
    ([.field "content", .index 1], scalar (.binary [0, 1])) ∈ attachment.parts ∧
    ([.field "delay", .index 0], scalar (.binary [0, 1])) ∉ attachment.parts := by
  have ho : attachment.Ordered := by
    refine ⟨?_, ⟨trivial, trivial, trivial⟩, trivial, trivial⟩
    decide +kernel
  obtain ⟨-, -, herror, hparts⟩ := toJson_of_parts attachment .root
  refine ⟨ho, (herror _).mpr ⟨_, _, rfl, rfl⟩, (hparts ho _ _).mpr rfl, ?_⟩
  rw [hparts ho]
  rintro ⟨⟩

end Value

end Interchange
