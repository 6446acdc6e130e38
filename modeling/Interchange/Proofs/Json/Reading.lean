import Interchange.Proofs.Entries
import Interchange.Proofs.Json.Document

/-!
# Reading values back

A value is read back from its text if the text tells it exactly and it nests no deeper than is read;
deeper values have a text as well, and that is refused.  What a text does not tell are floats beyond
their digits, and the order in which an object held its members.
-/

namespace Interchange.Json

/-- A value that is all in its text: there are no floats in it, 64 bits hold its integers, and the
members of its objects are ordered. -/
inductive Exact : Json → Prop
  | null : Exact .null
  | bool (b : Bool) : Exact (.bool b)
  | integer {i : Int} (hle : Int64.minValue.toInt ≤ i) (hlt : i < UInt64.size) :
    Exact (.integer i)
  | string (s : String) : Exact (.string s)
  | array {items : List Json} (h : ∀ j ∈ items, Exact j) : Exact (.array items)
  | object {members : List (String × Json)} (ordered : Entries.Ordered members)
    (h : ∀ m ∈ members, Exact m.2) : Exact (.object members)

mutual

/-- How deep containers nest in a value, itself included. -/
def depth : Json → Nat
  | array items => itemsDepth items + 1
  | object members => membersDepth members + 1
  | null | bool _ | integer _ | float _ | string _ => 0

def itemsDepth : List Json → Nat
  | [] => 0
  | j :: js => max (depth j) (itemsDepth js)

def membersDepth : List (String × Json) → Nat
  | [] => 0
  | (_, j) :: ms => max (depth j) (membersDepth ms)

end

/-- A value is read from its document by so many levels of containers if it has no more. -/
def ReadWithin (j : Json) : Prop :=
  ∀ levels, ofDocument? levels j.document = if j.depth ≤ levels then some j else none

variable {items : List Json} {members : List (String × Json)}

theorem ofItems?_itemDocuments (h : ∀ j ∈ items, ReadWithin j) (levels : Nat) :
    ofItems? levels (itemDocuments items) =
      if itemsDepth items ≤ levels then some items else none := by
  induction items with
  | nil => rfl
  | cons j js ih =>
    obtain ⟨hj, hjs⟩ := List.forall_mem_cons.mp h
    rw [itemDocuments, ofItems?, hj levels, ih hjs, itemsDepth]
    by_cases hdepth : j.depth ≤ levels
    · by_cases hothers : itemsDepth js ≤ levels
      · rw [if_pos hdepth, if_pos hothers, if_pos (Nat.max_le.mpr ⟨hdepth, hothers⟩)]
        rfl
      · rw [if_pos hdepth, if_neg hothers, if_neg fun h ↦ hothers (Nat.max_le.mp h).2]
        rfl
    · rw [if_neg hdepth, if_neg fun h ↦ hdepth (Nat.max_le.mp h).1]
      rfl

/-- Members in their order are put one after the other. -/
theorem ofMembers?_memberDocuments (h : ∀ m ∈ members, ReadWithin m.2) (levels : Nat)
    {es : Entries Json} (ordered : Entries.Ordered (es ++ members)) :
    ofMembers? levels (memberDocuments members) es =
      if membersDepth members ≤ levels then some (es ++ members) else none := by
  induction members generalizing es with
  | nil => simp [memberDocuments, ofMembers?, membersDepth]
  | cons m ms ih =>
    obtain ⟨name, j⟩ := m
    obtain ⟨hj, hms⟩ : ReadWithin j ∧ ∀ m ∈ ms, ReadWithin m.2 := List.forall_mem_cons.mp h
    have hlt : ∀ e ∈ es, e.1 < name := fun e he ↦
      (List.pairwise_append.mp ordered).2.2 e he (name, j) List.mem_cons_self
    rw [memberDocuments, ofMembers?, hj levels, membersDepth]
    by_cases hdepth : j.depth ≤ levels
    · have hothers : ofMembers? levels (memberDocuments ms) (es ++ [(name, j)]) = _ :=
        ih hms (by simpa using ordered)
      rw [if_pos hdepth]
      show ofMembers? levels (memberDocuments ms) (Entries.insert name j es) = _
      rw [Entries.insert_of_forall_lt hlt, hothers]
      simp only [Nat.max_le, hdepth, true_and, List.append_assoc, List.singleton_append]
    · rw [if_neg hdepth, if_neg fun h ↦ hdepth (Nat.max_le.mp h).1]
      rfl

theorem readWithin_array (h : ∀ j ∈ items, ReadWithin j) : ReadWithin (.array items) := by
  intro levels
  rw [document, depth]
  cases levels with
  | zero => rfl
  | succ levels =>
    rw [ofDocument?, ofItems?_itemDocuments h]
    simp only [Nat.succ_le_succ_iff]
    split <;> rfl

theorem readWithin_object (h : ∀ m ∈ members, ReadWithin m.2)
    (ordered : Entries.Ordered members) : ReadWithin (.object members) := by
  intro levels
  rw [document, depth]
  cases levels with
  | zero => rfl
  | succ levels =>
    have hmembers : ofMembers? levels (memberDocuments members) [] = _ :=
      ofMembers?_memberDocuments h levels ordered
    rw [ofDocument?, hmembers]
    simp only [Nat.succ_le_succ_iff, List.nil_append]
    split <;> rfl

/-- What is all in its text is read from its document, if it does not nest too deep. -/
theorem Exact.readWithin {j : Json} (h : j.Exact) : ReadWithin j := by
  induction h with
  | null | bool | string =>
    intro levels
    cases levels <;> rfl
  | integer hle hlt =>
    intro levels
    have hread := Numeral.toInt?_ofInt hle hlt
    rw [document, ofDocument?, ofNumeral?, hread]
    rfl
  | array _ ih => exact readWithin_array ih
  | object ordered _ ih => exact readWithin_object ih ordered

/-- What is all in its text is read back from it, if it does not nest too deep. -/
theorem Exact.ofText?_text {j : Json} (h : j.Exact) :
    ofText? j.text = if j.depth ≤ maxDepth then some j else none := by
  rw [ofText?, Document.ofText?_text]
  exact h.readWithin maxDepth

end Interchange.Json
