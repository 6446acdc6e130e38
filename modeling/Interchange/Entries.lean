/-!
# Entries

Named items in ascending order of their names, one item a name.  Names are ordered by their
characters' code points, which is also the order of their UTF-8 bytes.
-/

namespace Interchange

/-- Named items; `Entries.Ordered` says that the names ascend. -/
abbrev Entries (α : Type) := List (String × α)

namespace Entries

variable {α β : Type}

/-- Each name is below every later one, so no name occurs twice. -/
def Ordered (es : Entries α) : Prop := es.Pairwise (·.1 < ·.1)

instance (es : Entries α) : Decidable es.Ordered :=
  inferInstanceAs (Decidable (es.Pairwise _))

@[simp] theorem ordered_nil : Ordered ([] : Entries α) := List.Pairwise.nil

/-- The item under a name. -/
def get? (name : String) : Entries α → Option α
  | [] => none
  | (n, a) :: es => if name = n then some a else get? name es

@[simp] theorem get?_nil (name : String) : get? name ([] : Entries α) = none := rfl

@[simp] theorem get?_cons_self (name : String) (a : α) (es : Entries α) :
    get? name ((name, a) :: es) = some a := if_pos rfl

/-- Puts an item at its name's place, instead of one that was there. -/
def insert (name : String) (a : α) : Entries α → Entries α
  | [] => [(name, a)]
  | (n, b) :: es =>
    if name < n then (name, a) :: (n, b) :: es
    else if name = n then (name, a) :: es
    else (n, b) :: insert name a es

@[simp] theorem insert_nil (name : String) (a : α) : insert name a [] = [(name, a)] := rfl

/-- The item just put is the one found. -/
theorem get?_insert_self (name : String) (a : α) (es : Entries α) :
    get? name (insert name a es) = some a := by
  induction es with
  | nil => simp
  | cons e es ih =>
    obtain ⟨n, b⟩ := e
    unfold insert
    split
    · simp
    · split
      · simp
      · next h => simp [get?, h, ih]

/-- Entries under names in any order; of two items under one name the later one stays. -/
def ofList (pairs : List (String × α)) : Entries α :=
  pairs.foldl (fun es p ↦ insert p.1 p.2 es) []

@[simp] theorem ofList_nil : ofList ([] : List (String × α)) = [] := rfl

/-- The names in order. -/
def names (es : Entries α) : List String := es.map Prod.fst

/-- The same names over other items. -/
def mapItems (f : α → β) (es : Entries α) : Entries β := es.map fun e ↦ (e.1, f e.2)

@[simp] theorem names_mapItems (f : α → β) (es : Entries α) :
    (mapItems f es).names = es.names := by simp [names, mapItems]

end Entries

end Interchange
