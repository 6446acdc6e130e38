import Interchange.Json.Descriptor
import Interchange.Proofs.Induction
import Interchange.Proofs.Json.Reading

/-!
# Descriptors read back

A descriptor is read back from its JSON form, with the repeated members of its unions.  How deep its
reader may go decides, and nothing else: a form that nests deeper is refused.
-/

namespace Interchange

open Json (Document)

namespace Json

variable {α : Type} {j : Json} {a : α} {levels : Nat}

/-- A reader that may go so many containers deep takes a JSON form as what it is the form of, if the
containers are no deeper. -/
def Reads (read : Nat → Document → Option α) (levels : Nat) (j : Json) (a : α) : Prop :=
  read levels j.document = if j.depth ≤ levels then some a else none

theorem Reads.map {β : Type} {read : Nat → Document → Option α} (h : Reads read levels j a)
    (f : α → β) : Reads (fun n d ↦ f <$> read n d) levels j (f a) := by
  rw [Reads, h]
  split <;> rfl

/-- What is read in two parts is read if both are. -/
theorem bind_ite_ite {β γ : Type} {p q : Prop} [Decidable p] [Decidable q] (a : α) (b : β)
    (f : α → β → γ) : ((if p then some a else none).bind fun a ↦
      (if q then some b else none).bind fun b ↦ some (f a b)) =
        if p ∧ q then some (f a b) else none := by
  by_cases hp : p
  · rw [if_pos hp, Option.bind_some]
    by_cases hq : q
    · rw [if_pos hq, if_pos ⟨hp, hq⟩, Option.bind_some]
    · rw [if_neg hq, if_neg fun h ↦ hq h.2, Option.bind_none]
  · rw [if_neg hp, Option.bind_none, if_neg fun h ↦ hp h.1]

/-- Items are read one by one. -/
theorem mapM_itemDocuments {β : Type} {read : Nat → Document → Option β} {f : α → Json} {g : α → β}
    {items : List α} (h : ∀ a ∈ items, Reads read levels (f a) (g a)) :
    (itemDocuments (items.map f)).mapM (read levels) =
      if itemsDepth (items.map f) ≤ levels then some (items.map g) else none := by
  induction items with
  | nil => rfl
  | cons a as ih =>
    obtain ⟨ha, has⟩ := List.forall_mem_cons.mp h
    rw [List.map_cons, itemDocuments, List.mapM_cons, ih has, ha, itemsDepth]
    simp only [bind, pure, bind_ite_ite, Nat.max_le, List.map_cons]

/-- So are members that are told by their names. -/
theorem mapM_memberDocuments {β : Type} {read : Nat → Document → Option β} {f : α → Json}
    {g : α → β} {entries : List (String × α)}
    (h : ∀ e ∈ entries, Reads read levels (f e.2) (g e.2)) :
    ((memberDocuments (entries.map fun e ↦ (e.1, f e.2))).mapM fun m ↦ do
        return (← m.1, ← read levels m.2)) =
      if membersDepth (entries.map fun e ↦ (e.1, f e.2)) ≤ levels then
        some (entries.map fun e ↦ (e.1, g e.2))
      else none := by
  induction entries with
  | nil => rfl
  | cons e es ih =>
    obtain ⟨he, hes⟩ := List.forall_mem_cons.mp h
    have hread : read levels (f e.2).document = _ := he
    rw [List.map_cons, memberDocuments, List.mapM_cons, ih hes, membersDepth]
    simp only [bind, pure, Option.bind_some, hread, Option.bind_assoc, bind_ite_ite, Nat.max_le,
      List.map_cons]

theorem depth_choice (name : String) (content : Json) :
    (choice name content).depth = content.depth + 1 := by
  rw [choice, depth, membersDepth, membersDepth, Nat.max_zero]

/-- A choice is read by what is read under its name, one container less deep. -/
theorem reads_choice {read : Nat → Document → Option α} (inner : Nat → Document → Option α)
    {name : String}
    (hzero : read 0 (choice name j).document = none)
    (hsucc : ∀ n, read (n + 1) (choice name j).document = inner n j.document)
    (h : ∀ n < levels, Reads inner n j a) : Reads read levels (choice name j) a := by
  cases levels with
  | zero =>
    rw [Reads, hzero, if_neg]
    rw [depth_choice]
    exact Nat.not_succ_le_zero _
  | succ n =>
    rw [Reads, hsucc, h n (Nat.lt_succ_self n), depth_choice]
    simp only [Nat.succ_le_succ_iff]

/-- What is read from the document that a text writes. -/
theorem Reads.ofText?_bind {read : Nat → Document → Option α} (h : Reads read levels j a) :
    (Document.ofText? j.text).bind (read levels) =
      if j.depth ≤ levels then some a else none := by
  rw [Document.ofText?_text]
  exact h

/-- A choice without content is its name. -/
theorem Document.unitChoice?_string (levels : Nat) (s : Option String) :
    unitChoice? levels (.string s) = s := by
  cases levels <;> rfl

end Json

open Json (Reads)

variable {levels : Nat}

theorem Extent.ofDocument?_name (levels : Nat) (e : Extent) :
    ofDocument? levels (Json.document (.string e.name)) = some e := by
  rw [ofDocument?, Json.document, Document.unitChoice?_string]
  exact Extent.ofName?_name e

namespace Descriptor

theorem membersToJson_eq_map (ds : List Descriptor) : membersToJson ds = ds.map toJson := by
  induction ds with
  | nil => rfl
  | cons d ds ih => rw [membersToJson, ih, List.map_cons]

/-- The JSON form of a field. -/
def fieldToJson (f : String × Descriptor) : Json :=
  .object [("name", .string f.1), ("ty", f.2.toJson)]

theorem fieldsToJson_eq_map (fields : List (String × Descriptor)) :
    fieldsToJson fields = fields.map fieldToJson := by
  induction fields with
  | nil => rfl
  | cons f fields ih => rw [fieldsToJson, ih, List.map_cons, fieldToJson]

theorem reads_blobType (type : BlobType) (levels : Nat) : Reads blobTypeOfDocument? levels
    (.object [("format", .string type.format), ("dimensionality", .string type.extent.name)])
    type := by
  cases levels with
  | zero => rfl
  | succ levels =>
    show (Extent.ofDocument? levels _).bind _ = _
    rw [Extent.ofDocument?_name]
    exact (if_pos (Nat.succ_le_succ (Nat.zero_le levels))).symm

variable {read : Nat → Document → Option Descriptor}

theorem reads_union {members : List Descriptor} (tagField : String)
    (h : ∀ n ≤ levels, ∀ d ∈ members, Reads read n d.toJson d) :
    Reads (unionOfDocument? read) levels
      (.object [("members", .array (membersToJson members)), ("tag_field", .string tagField)])
      (union members tagField) := by
  match levels with
  | 0 | 1 => rfl
  | n + 2 =>
    show ((Json.itemDocuments (membersToJson members)).mapM (read n)).bind _ = _
    rw [membersToJson_eq_map, Json.mapM_itemDocuments (h n (Nat.le_add_right n 2)), List.map_id']
    simp only [Json.depth, Json.membersDepth, Nat.max_zero, Nat.succ_le_succ_iff]
    split <;> rfl

theorem reads_field {f : String × Descriptor} (h : ∀ n ≤ levels, Reads read n f.2.toJson f.2) :
    Reads (fieldOfDocument? read) levels (fieldToJson f) f := by
  cases levels with
  | zero => rfl
  | succ n =>
    show (read n f.2.toJson.document).bind _ = _
    rw [h n (Nat.le_succ n)]
    simp only [fieldToJson, Json.depth, Json.membersDepth, Nat.max_zero, Nat.zero_max,
      Nat.succ_le_succ_iff]
    split <;> rfl

theorem reads_record {fields : List (String × Descriptor)}
    (h : ∀ n ≤ levels, ∀ f ∈ fields, Reads read n f.2.toJson f.2) :
    Reads (recordOfDocument? read) levels
      (.object [("fields", .array (fieldsToJson fields))]) (record fields) := by
  match levels with
  | 0 | 1 => rfl
  | n + 2 =>
    have hreads : ∀ f ∈ fields, Reads (fieldOfDocument? read) n (fieldToJson f) f :=
      fun f hf ↦ reads_field fun m hm ↦ h m (Nat.le_trans hm (Nat.le_add_right n 2)) f hf
    show record <$> (Json.itemDocuments (fieldsToJson fields)).mapM (fieldOfDocument? read n) = _
    rw [fieldsToJson_eq_map, Json.mapM_itemDocuments hreads, List.map_id']
    simp only [Json.depth, Json.membersDepth, Nat.max_zero, Nat.succ_le_succ_iff]
    split <;> rfl

/-- A shape is read by what is read under its name, one container less deep and with one shape
less. -/
theorem reads_shape (inner : (Nat → Document → Option Descriptor) → Nat → Document →
      Option Descriptor) {name : String} {j : Json} {d : Descriptor}
    (hname : ∀ read n, shapeOfDocument? read (n + 1) (Json.choice name j).document =
      inner read n j.document)
    (h : ∀ {shapes n}, n ≤ shapes → Reads (inner (shapesOfDocument? shapes)) n j d)
    {shapes : Nat} (hle : levels ≤ shapes) :
    Reads (shapesOfDocument? shapes) levels (Json.choice name j) d := by
  cases shapes with
  | zero =>
    obtain rfl := Nat.le_zero.mp hle
    exact Json.reads_choice (fun _ _ ↦ none) rfl (fun n ↦ rfl) fun n hn ↦
      absurd hn (Nat.not_lt_zero n)
  | succ shapes =>
    exact Json.reads_choice _ rfl (hname _) fun n hn ↦
      h (Nat.le_of_lt_succ (Nat.lt_of_lt_of_le hn hle))

/-- A descriptor is read back from its form by as many shapes as containers. -/
theorem reads_shapes (d : Descriptor) {shapes levels : Nat} (h : levels ≤ shapes) :
    Reads (shapesOfDocument? shapes) levels d.toJson d := by
  -- a shape takes one of each, lists and structures take containers only: shapes do not run out
  induction d generalizing shapes levels with
  | primitive kind =>
    refine reads_shape (fun _ n d ↦ (d.unitChoice? n).bind fun name ↦
      primitive <$> Kind.ofName? name) (fun read n ↦ rfl) (fun {_ n} _ ↦ ?_) h
    show ((Document.unitChoice? n (.string kind.name)).bind _) = some (primitive kind)
    rw [Document.unitChoice?_string, Option.bind_some, Kind.ofName?_name]
    rfl
  | collection d ih =>
    exact reads_shape (fun read n d ↦ collection <$> read n d) (fun read n ↦ rfl)
      (fun h ↦ (ih h).map collection) h
  | mapping d ih =>
    exact reads_shape (fun read n d ↦ mapping <$> read n d) (fun read n ↦ rfl)
      (fun h ↦ (ih h).map mapping) h
  | union members tagField ih =>
    exact reads_shape unionOfDocument? (fun read n ↦ rfl) (fun hn ↦ reads_union tagField
      fun m hm d hd ↦ ih d hd (Nat.le_trans hm hn)) h
  | blob type =>
    exact reads_shape (fun _ n d ↦ blob <$> blobTypeOfDocument? n d) (fun read n ↦ rfl)
      (fun _ ↦ (reads_blobType type _).map blob) h
  | record fields ih =>
    exact reads_shape recordOfDocument? (fun read n ↦ rfl) (fun hn ↦ reads_record
      fun m hm f hf ↦ ih f hf (Nat.le_trans hm hn)) h

/-- A descriptor is read back from its JSON form, if it nests no deeper than may be. -/
theorem reads_ofDocument? (d : Descriptor) (levels : Nat) :
    Reads ofDocument? levels d.toJson d := reads_shapes d (Nat.le_refl levels)

end Descriptor

end Interchange
