import Interchange.Json.Value
import Interchange.Proofs.Attempt
import Interchange.Proofs.Induction
import Interchange.Proofs.Json.Reading

/-!
# Host values through JSON values

A host value that has a JSON value is read back from it with maps in place of its records; all else
stays.  The JSON value nests as deep as the host value, and if there are no floats in it, it is all
in its text.
-/

namespace Interchange

namespace Value

mutual

/-- The value with a map of its fields for each record in it. -/
def unnamed : Value → Value
  | list items => list (unnamedItems items)
  | map entries => map (unnamedEntries entries)
  | record _ fields => map (unnamedEntries fields)
  | v => v

def unnamedItems : List Value → List Value
  | [] => []
  | v :: vs => unnamed v :: unnamedItems vs

def unnamedEntries : List (String × Value) → List (String × Value)
  | [] => []
  | (name, v) :: es => (name, unnamed v) :: unnamedEntries es

end

mutual

/-- How deep lists, maps and records nest in a value, itself included. -/
def depth : Value → Nat
  | list items => itemsDepth items + 1
  | map entries => entriesDepth entries + 1
  | record _ fields => entriesDepth fields + 1
  | _ => 0

def itemsDepth : List Value → Nat
  | [] => 0
  | v :: vs => max (depth v) (itemsDepth vs)

def entriesDepth : List (String × Value) → Nat
  | [] => 0
  | (_, v) :: es => max (depth v) (entriesDepth es)

end

mutual

/-- Whether there are no floats in a value. -/
def FloatFree : Value → Prop
  | scalar (.float _) => False
  | list items => FloatFreeItems items
  | map entries => FloatFreeEntries entries
  | record _ fields => FloatFreeEntries fields
  | _ => True

def FloatFreeItems : List Value → Prop
  | [] => True
  | v :: vs => FloatFree v ∧ FloatFreeItems vs

def FloatFreeEntries : List (String × Value) → Prop
  | [] => True
  | (_, v) :: es => FloatFree v ∧ FloatFreeEntries es

end

/-- A JSON value stands for a host value: it is read as it, nests as deep, and is all in its text if
there are no floats and what is named stands in order. -/
structure IsJson (v : Value) (j : Json) : Prop where
  ofJson : Value.ofJson j = v.unnamed
  depth : j.depth = v.depth
  exact : v.FloatFree → v.Ordered → j.Exact

theorem isJson_scalar {s : Scalar} {j : Json} (h : s.toJsonValue? = some j) :
    IsJson (.scalar s) j := by
  cases s with
  | none =>
    cases h
    exact ⟨rfl, rfl, fun _ _ ↦ .null⟩
  | boolean b =>
    cases h
    exact ⟨rfl, rfl, fun _ _ ↦ .bool b⟩
  | integer i =>
    cases h
    have hle : Int64.minValue.toInt ≤ i.toInt := i.le_toInt
    have hlt : i.toInt < 2 ^ 63 := i.toInt_lt
    refine ⟨?_, rfl, fun _ _ ↦ .integer hle ?_⟩
    · have hrange : Int64.minValue.toInt ≤ i.toInt ∧ i.toInt ≤ Int64.maxValue.toInt :=
        ⟨hle, Int.le_of_lt_add_one hlt⟩
      rw [Value.ofJson, if_pos hrange, Int64.ofInt_toInt]
      rfl
    · have hsize : (UInt64.size : Int) = 2 ^ 64 := rfl
      omega
  | float x =>
    rw [Scalar.toJsonValue?] at h
    split at h
    · cases h
      refine ⟨rfl, rfl, ?_⟩
      rintro ⟨⟩
    · cases h
  | string s =>
    cases h
    exact ⟨rfl, rfl, fun _ _ ↦ .string s⟩
  | datetime | duration | binary => cases h

variable {path : Path}

theorem isJson_items {vs : List Value} {js : List Json} {i : Nat}
    (ih : ∀ v ∈ vs, ∀ path j, v.toJson path = .ok j → IsJson v j)
    (h : itemsToJson path i vs = .ok js) : IsJson (.list vs) (.array js) := by
  induction vs generalizing i js with
  | nil =>
    cases h
    refine ⟨rfl, rfl, fun _ _ ↦ .array ?_⟩
    rintro j ⟨⟩
  | cons v vs ihs =>
    obtain ⟨hv, hvs⟩ := List.forall_mem_cons.mp ih
    obtain ⟨j, hj, h⟩ := bind_eq_ok.mp h
    obtain ⟨js, hjs, h⟩ := bind_eq_ok.mp h
    cases h
    have hfirst := hv _ j hj
    have hothers := ihs hvs hjs
    refine ⟨?_, ?_, ?_⟩
    · have hitems := Value.list.inj hothers.ofJson
      show Value.list (Value.ofJson j :: ofJsonItems js) = .list (v.unnamed :: unnamedItems vs)
      rw [hfirst.ofJson, hitems]
    · have hitems := Nat.succ.inj hothers.depth
      show max j.depth (Json.itemsDepth js) + 1 = max v.depth (itemsDepth vs) + 1
      rw [hfirst.depth, hitems]
    · rintro ⟨hfree, hfrees⟩ ⟨ordered, ordereds⟩
      cases hothers.exact hfrees ordereds with
      | array hexact =>
        exact .array (List.forall_mem_cons.mpr ⟨hfirst.exact hfree ordered, hexact⟩)

/-- Entries have the JSON members of their names, in the same order. -/
theorem isJson_entries {step : String → Segment} {es : List (String × Value)}
    {ms : List (String × Json)} (ih : ∀ e ∈ es, ∀ path j, e.2.toJson path = .ok j → IsJson e.2 j)
    (h : entriesToJson path step es = .ok ms) :
    ofJsonMembers ms = unnamedEntries es ∧ Json.membersDepth ms = entriesDepth es ∧
      ms.map (·.1) = es.map (·.1) ∧
      (FloatFreeEntries es → OrderedEntries es → ∀ m ∈ ms, m.2.Exact) := by
  induction es generalizing ms with
  | nil =>
    cases h
    exact ⟨rfl, rfl, rfl, fun _ _ m hm ↦ nomatch hm⟩
  | cons e es ihs =>
    obtain ⟨name, v⟩ := e
    obtain ⟨hv, hes⟩ := List.forall_mem_cons.mp ih
    obtain ⟨j, hj, h⟩ := bind_eq_ok.mp h
    obtain ⟨ms, hms, h⟩ := bind_eq_ok.mp h
    cases h
    have hfirst := hv _ j hj
    obtain ⟨hvalues, hdepth, hnames, hexact⟩ := ihs hes hms
    refine ⟨?_, ?_, congrArg (name :: ·) hnames, ?_⟩
    · rw [ofJsonMembers, unnamedEntries, hfirst.ofJson, hvalues]
    · rw [Json.membersDepth, entriesDepth, hfirst.depth, hdepth]
    · rintro ⟨hfree, hfrees⟩ ⟨ordered, ordereds⟩
      exact List.forall_mem_cons.mpr ⟨hfirst.exact hfree ordered, hexact hfrees ordereds⟩

theorem ordered_of_names {α β : Type} {es : Entries α} {fs : Entries β}
    (h : fs.map (·.1) = es.map (·.1)) (ordered : Entries.Ordered es) : Entries.Ordered fs := by
  have hnames : (fs.map (·.1)).Pairwise (· < ·) := h ▸ List.pairwise_map.mpr ordered
  exact List.pairwise_map.mp hnames

theorem isJson_map {step : String → Segment} {es : List (String × Value)}
    {ms : List (String × Json)} (ih : ∀ e ∈ es, ∀ path j, e.2.toJson path = .ok j → IsJson e.2 j)
    (h : entriesToJson path step es = .ok ms) : IsJson (.map es) (.object ms) := by
  obtain ⟨hvalues, hdepth, hnames, hexact⟩ := isJson_entries ih h
  refine ⟨?_, ?_, fun hfree ordered ↦ .object ?_ (hexact hfree ordered.2)⟩
  · rw [ofJson, unnamed, hvalues]
  · rw [Json.depth, depth, hdepth]
  · exact ordered_of_names hnames ordered.1

/-- The JSON value of a host value stands for it. -/
theorem isJson_toJson {v : Value} {j : Json} (h : v.toJson path = .ok j) : IsJson v j := by
  induction v generalizing path j with
  | scalar s =>
    rw [toJson] at h
    split at h
    · next hs =>
      cases h
      exact isJson_scalar hs
    · cases h
  | list items ih =>
    obtain ⟨js, hjs, h⟩ := bind_eq_ok.mp h
    cases h
    exact isJson_items (fun v hv path j ↦ ih v hv) hjs
  | map entries ih =>
    obtain ⟨ms, hms, h⟩ := bind_eq_ok.mp h
    cases h
    exact isJson_map (fun e he path j ↦ ih e he) hms
  | record name fields ih =>
    obtain ⟨ms, hms, h⟩ := bind_eq_ok.mp h
    cases h
    have hfields := isJson_map (fun e he path j ↦ ih e he) hms
    exact ⟨hfields.ofJson, hfields.depth, hfields.exact⟩
  | blob | stream | foreign => cases h

/-- What a value without floats is written as is read as the value, unless it nests too deep. -/
theorem ofText?_of_toJson {v : Value} {j : Json} (h : v.toJson path = .ok j) (hfree : v.FloatFree)
    (ordered : v.Ordered) : (Json.ofText? j.text).map ofJson =
      if v.depth ≤ Json.maxDepth then some v.unnamed else Option.none := by
  have hj := isJson_toJson h
  rw [(hj.exact hfree ordered).ofText?_text, hj.depth]
  split
  · rw [Option.map_some, hj.ofJson]
  · rfl

end Value

end Interchange
