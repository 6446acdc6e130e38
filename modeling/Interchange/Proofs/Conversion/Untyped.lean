import Interchange.Conversion.Untyped
import Interchange.Proofs.Attempt
import Interchange.Proofs.Induction

/-!
# Values that are written by their shape

A value that is written by its shape and read back is the same, but for the names of the records in
it.  Streams are left out: they are written as lists.  What is not written at all are foreign values
and all that they stand in.
-/

namespace Interchange

open Attempt

namespace Value

theorem eq_none_of_isNone {v : Value} (h : v.isNone = true) : v = .none := by
  unfold isNone at h
  split at h
  · rfl
  · cases h

/-! ## Predicates on nested values -/

theorem orderedItems_iff {vs : List Value} : OrderedItems vs ↔ ∀ v ∈ vs, v.Ordered := by
  induction vs with
  | nil => simp [OrderedItems]
  | cons v vs ih => simp [OrderedItems, ih]

theorem orderedEntries_iff {es : List (String × Value)} :
    OrderedEntries es ↔ ∀ e ∈ es, e.2.Ordered := by
  induction es with
  | nil => simp [OrderedEntries]
  | cons e es ih => simp [OrderedEntries, ih]

theorem streamFreeItems_iff {vs : List Value} :
    StreamFreeItems vs ↔ ∀ v ∈ vs, v.StreamFree := by
  induction vs with
  | nil => simp [StreamFreeItems]
  | cons v vs ih => simp [StreamFreeItems, ih]

theorem streamFreeEntries_iff {es : List (String × Value)} :
    StreamFreeEntries es ↔ ∀ e ∈ es, e.2.StreamFree := by
  induction es with
  | nil => simp [StreamFreeEntries]
  | cons e es ih => simp [StreamFreeEntries, ih]

/-! ## Names of records -/

mutual

/-- A value without the names of the records in it. -/
def eraseNames : Value → Value
  | list items => list (eraseNamesItems items)
  | map entries => map (eraseNamesEntries entries)
  | record _ fields => record Option.none (eraseNamesEntries fields)
  | v => v

def eraseNamesItems : List Value → List Value
  | [] => []
  | v :: vs => eraseNames v :: eraseNamesItems vs

def eraseNamesEntries : List (String × Value) → List (String × Value)
  | [] => []
  | (name, v) :: es => (name, eraseNames v) :: eraseNamesEntries es

end

mutual

/-- Whether no record in a value has a name. -/
def Nameless : Value → Prop
  | list items => NamelessItems items
  | map entries => NamelessEntries entries
  | record name fields => name = Option.none ∧ NamelessEntries fields
  | _ => True

def NamelessItems : List Value → Prop
  | [] => True
  | v :: vs => Nameless v ∧ NamelessItems vs

def NamelessEntries : List (String × Value) → Prop
  | [] => True
  | (_, v) :: es => Nameless v ∧ NamelessEntries es

end

theorem eraseNamesItems_eq_self {vs : List Value}
    (h : ∀ v ∈ vs, v.eraseNames = v ↔ v.Nameless) :
    eraseNamesItems vs = vs ↔ NamelessItems vs := by
  induction vs with
  | nil => simp [eraseNamesItems, NamelessItems]
  | cons v vs ih =>
    obtain ⟨hv, hvs⟩ := List.forall_mem_cons.mp h
    rw [eraseNamesItems, NamelessItems, List.cons.injEq, hv, ih hvs]

theorem eraseNamesEntries_eq_self {es : List (String × Value)}
    (h : ∀ e ∈ es, e.2.eraseNames = e.2 ↔ e.2.Nameless) :
    eraseNamesEntries es = es ↔ NamelessEntries es := by
  induction es with
  | nil => simp [eraseNamesEntries, NamelessEntries]
  | cons e es ih =>
    obtain ⟨he, hes⟩ := List.forall_mem_cons.mp h
    obtain ⟨name, v⟩ := e
    simp [eraseNamesEntries, NamelessEntries, he, ih hes]

/-- Erasing names changes just the values that have a record with a name. -/
theorem eraseNames_eq_self {v : Value} : v.eraseNames = v ↔ v.Nameless := by
  induction v with
  | list items ih =>
    rw [eraseNames, Nameless, list.injEq, eraseNamesItems_eq_self ih]
  | map entries ih =>
    rw [eraseNames, Nameless, map.injEq, eraseNamesEntries_eq_self ih]
  | record name fields ih =>
    rw [eraseNames, Nameless, record.injEq, eraseNamesEntries_eq_self ih, eq_comm]
  | _ => simp [eraseNames, Nameless]

/-! ## Foreign values -/

mutual

/-- The keys of the foreign values in a value. -/
def foreignKeys : Value → List String
  | scalar _ | blob _ | stream _ => []
  | list items => itemKeys items
  | map entries => entryKeys entries
  | record _ fields => entryKeys fields
  | foreign key _ _ => [key]

def itemKeys : List Value → List String
  | [] => []
  | v :: vs => foreignKeys v ++ itemKeys vs

def entryKeys : List (String × Value) → List String
  | [] => []
  | (_, v) :: es => foreignKeys v ++ entryKeys es

end

theorem itemKeys_eq_nil {vs : List Value} : itemKeys vs = [] ↔ ∀ v ∈ vs, v.foreignKeys = [] := by
  induction vs with
  | nil => simp [itemKeys]
  | cons v vs ih => simp [itemKeys, ih]

theorem entryKeys_eq_nil {es : List (String × Value)} :
    entryKeys es = [] ↔ ∀ e ∈ es, e.2.foreignKeys = [] := by
  induction es with
  | nil => simp [entryKeys]
  | cons e es ih => simp [entryKeys, ih]

end Value

/-! ## Writing and reading -/

section

variable {stream : Path → Nat → Conversion Literal} {path : Path} {s s' : Session}

/-- Each value is read back from its literal without the names of records. -/
abbrev IsReadNameless (stream : Path → Nat → Conversion Literal) (v : Value) : Prop :=
  ∀ {path l s s'}, (literalBy stream path v).run s = (.ok l, s') → l.value = v.eraseNames

theorem literalsBy_values {vs : List Value} {ls : List Literal} {i : Nat}
    (hvs : ∀ v ∈ vs, IsReadNameless stream v)
    (h : (literalsBy stream path i vs).run s = (.ok ls, s')) :
    Literal.values ls = Value.eraseNamesItems vs := by
  induction vs generalizing i s ls with
  | nil =>
    cases h
    rfl
  | cons v vs ih =>
    obtain ⟨hv, hvs⟩ := List.forall_mem_cons.mp hvs
    obtain ⟨l, s₁, hl, h⟩ := run_bind_eq_ok.mp h
    obtain ⟨ls, s₂, hls, h⟩ := run_bind_eq_ok.mp h
    cases h
    rw [Literal.values, Value.eraseNamesItems, hv hl, ih hvs hls]

theorem literalEntriesBy_values {segment : String → Segment} {es : List (String × Value)}
    {ls : List (String × Literal)} (hes : ∀ e ∈ es, IsReadNameless stream e.2)
    (h : (literalEntriesBy stream path segment es).run s = (.ok ls, s')) :
    Literal.entryValues ls = Value.eraseNamesEntries es := by
  induction es generalizing s ls with
  | nil =>
    cases h
    rfl
  | cons e es ih =>
    obtain ⟨he, hes⟩ := List.forall_mem_cons.mp hes
    obtain ⟨l, s₁, hl, h⟩ := run_bind_eq_ok.mp h
    obtain ⟨ls, s₂, hls, h⟩ := run_bind_eq_ok.mp h
    cases h
    rw [Literal.entryValues, Value.eraseNamesEntries, he hl, ih hes hls]

theorem literalBy_value {v : Value} {l : Literal} (hv : v.StreamFree)
    (h : (literalBy stream path v).run s = (.ok l, s')) : l.value = v.eraseNames := by
  induction v generalizing path l s s' with
  | scalar | blob =>
    cases h
    rfl
  | list items ih =>
    have hv := Value.streamFreeItems_iff.mp hv
    obtain ⟨ls, hls, rfl⟩ := run_map_eq_ok.mp h
    have hitems := literalsBy_values (fun v hm _ _ _ _ ↦ ih v hm (hv v hm)) hls
    rw [Literal.value, Value.eraseNames, hitems]
  | map entries ih =>
    have hv := Value.streamFreeEntries_iff.mp hv
    obtain ⟨ls, hls, rfl⟩ := run_map_eq_ok.mp h
    rw [Literal.value, Value.eraseNames,
      literalEntriesBy_values (fun e hm _ _ _ _ ↦ ih e hm (hv e hm)) hls]
  | record name fields ih =>
    have hv := Value.streamFreeEntries_iff.mp hv
    obtain ⟨ls, hls, rfl⟩ := run_map_eq_ok.mp h
    rw [Literal.value, Value.eraseNames,
      literalEntriesBy_values (fun e hm _ _ _ _ ↦ ih e hm (hv e hm)) hls]
  | stream => exact hv.elim
  | foreign => cases h

/-- A value without streams is read back from the literal of its shape without the names of
records. -/
theorem Value.literal_value {onWorker : Bool} {v : Value} {l : Literal} (hv : v.StreamFree)
    (h : (v.literal onWorker path).run s = (.ok l, s')) : l.value = v.eraseNames :=
  literalBy_value hv h

end

/-! ## What is written -/

section

variable {I : Session → Prop} {stream : Path → Nat → Conversion Literal}

/-- A value is written if there is no foreign value among those, and otherwise it is refused for the
first of them. -/
abbrev WrittenButFor {α : Type} (I : Session → Prop) (keys : List String) (x : Conversion α) :
    Prop :=
  Ends I (fun _ ↦ keys = []) (fun f ↦ ∃ key, keys.head? = some key ∧ f = .unsupportedType key) x

theorem WrittenButFor.cons {α β γ : Type} {keys keys' : List String} {x : Conversion α}
    {y : Conversion β} (hx : WrittenButFor I keys x) (hy : WrittenButFor I keys' y)
    (f : α → β → γ) :
    WrittenButFor I (keys ++ keys') (do return f (← x) (← y)) := by
  have hleft (e : Fault) : (∃ key, keys.head? = some key ∧ e = .unsupportedType key) →
      ∃ key, (keys ++ keys').head? = some key ∧ e = .unsupportedType key := by
    rintro ⟨key, hkey, he⟩
    exact ⟨key, by rw [List.head?_append, hkey, Option.some_or], he⟩
  refine (hx.mono (fun _ h ↦ h) hleft).bind fun a hkeys ↦ ?_
  -- what comes second is only written once nothing foreign was found in the first
  rw [hkeys, List.nil_append]
  exact hy.bind fun b hkeys' ↦ .pure hkeys'

theorem ends_literalsBy {vs : List Value} (path : Path)
    (h : ∀ v ∈ vs, ∀ path, WrittenButFor I v.foreignKeys (literalBy stream path v)) (i : Nat) :
    WrittenButFor I (Value.itemKeys vs) (literalsBy stream path i vs) := by
  induction vs generalizing i with
  | nil => exact .pure rfl
  | cons v vs ih =>
    obtain ⟨hv, hvs⟩ := List.forall_mem_cons.mp h
    exact (hv _).cons (ih hvs (i + 1)) List.cons

theorem ends_literalEntriesBy {es : List (String × Value)} (path : Path)
    (segment : String → Segment)
    (h : ∀ e ∈ es, ∀ path, WrittenButFor I e.2.foreignKeys (literalBy stream path e.2)) :
    WrittenButFor I (Value.entryKeys es) (literalEntriesBy stream path segment es) := by
  induction es with
  | nil => exact .pure rfl
  | cons e es ih =>
    obtain ⟨he, hes⟩ := List.forall_mem_cons.mp h
    exact (he _).cons (ih hes) fun l ls ↦ (e.1, l) :: ls

/-- A value without streams is written by its shape unless there is a foreign value in it. -/
theorem ends_literalBy {v : Value} (hv : v.StreamFree) (path : Path) :
    WrittenButFor I v.foreignKeys (literalBy stream path v) := by
  induction v generalizing path with
  | scalar | blob => exact .pure rfl
  | list items ih =>
    have hv := Value.streamFreeItems_iff.mp hv
    exact (ends_literalsBy path (fun v hm ↦ ih v hm (hv v hm)) 0).map fun _ h ↦ h
  | map entries ih =>
    have hv := Value.streamFreeEntries_iff.mp hv
    exact (ends_literalEntriesBy path .key fun e hm ↦ ih e hm (hv e hm)).map fun _ h ↦ h
  | record name fields ih =>
    have hv := Value.streamFreeEntries_iff.mp hv
    exact (ends_literalEntriesBy path .field fun e hm ↦ ih e hm (hv e hm)).map fun _ h ↦ h
  | stream => exact hv.elim
  | foreign key => exact .throw ⟨key, rfl, rfl⟩

theorem Value.ends_literal {v : Value} (hv : v.StreamFree) (onWorker : Bool) (path : Path) :
    WrittenButFor I v.foreignKeys (v.literal onWorker path) := by
  intro s hs
  exact ends_literalBy hv path s hs

end

end Interchange
