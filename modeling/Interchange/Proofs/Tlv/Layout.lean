import Interchange.Proofs.Induction
import Interchange.Proofs.Tlv.Writing
import Interchange.Tlv.Literal

/-!
# The layout of the byte form

The bytes of a descriptor and of a literal, written down by recursion on the data alone: no limit of
nesting, no writer and nothing that can fail.  Beside them stand the measures that decide whether
they are written, which are the depth of nesting and the length of the outermost body.
-/

namespace Interchange

open Tlv Tlv.Writer

theorem length_le_flatMap {α β : Type} {as : List α} {a : α} (h : a ∈ as) (f : α → List β) :
    (f a).length ≤ (as.flatMap f).length := by
  obtain ⟨s, t, rfl⟩ := List.append_of_mem h
  simp
  omega

/-! ## Descriptors -/

namespace Descriptor

/-- The entries of a blob type. -/
def blobEntryBytes (type : BlobType) : List UInt8 :=
  variantItem "format" (strItem type.format) ++
    variantItem "dimensionality" (strItem type.extent.name)

mutual

/-- What stands inside the variant of a descriptor. -/
def payload : Descriptor → List UInt8
  | primitive kind => strItem kind.name
  | collection d | mapping d => variantItem d.shape d.payload
  | union members tagField => sized .map <|
    variantItem "members" (sized .list (memberBytes members)) ++
      variantItem "tag_field" (strItem tagField)
  | blob type => sized .map (blobEntryBytes type)
  | record fields => sized .list (fieldBytes fields)

def memberBytes : List Descriptor → List UInt8
  | [] => []
  | d :: ds => variantItem d.shape d.payload ++ memberBytes ds

def fieldBytes : List (String × Descriptor) → List UInt8
  | [] => []
  | (name, d) :: fields => variantItem name (variantItem d.shape d.payload) ++ fieldBytes fields

end

/-- The bytes of a descriptor. -/
def layout (d : Descriptor) : List UInt8 := variantItem d.shape d.payload

theorem payload_collection (d : Descriptor) : (collection d).payload = d.layout := rfl

theorem payload_mapping (d : Descriptor) : (mapping d).payload = d.layout := rfl

theorem memberBytes_eq_flatMap (ds : List Descriptor) : memberBytes ds = ds.flatMap layout := by
  induction ds with
  | nil => rfl
  | cons d ds ih => rw [memberBytes, ih]; rfl

theorem fieldBytes_eq_flatMap (fields : List (String × Descriptor)) :
    fieldBytes fields = fields.flatMap fun f ↦ variantItem f.1 f.2.layout := by
  induction fields with
  | nil => rfl
  | cons f fields ih => rw [fieldBytes, ih]; rfl

theorem length_layout_le_of_mem {ds : List Descriptor} {d : Descriptor} (h : d ∈ ds) :
    d.layout.length ≤ (memberBytes ds).length := by
  rw [memberBytes_eq_flatMap]
  exact length_le_flatMap h layout

theorem length_layout_le_of_mem_fields {fields : List (String × Descriptor)}
    {f : String × Descriptor} (h : f ∈ fields) :
    (variantItem f.1 f.2.layout).length ≤ (fieldBytes fields).length := by
  rw [fieldBytes_eq_flatMap]
  exact length_le_flatMap h fun f ↦ variantItem f.1 f.2.layout

/-- The number of levels below a descriptor. -/
def depth (d : Descriptor) : Nat :=
  d.fold fun _ parts ↦ parts.foldr (fun part n ↦ max (part.2 + 1) n) 0

@[simp] theorem depth_primitive (kind : Kind) : (primitive kind).depth = 0 := rfl

@[simp] theorem depth_blob (type : BlobType) : (blob type).depth = 0 := rfl

@[simp] theorem depth_collection (d : Descriptor) : (collection d).depth = d.depth + 1 := rfl

@[simp] theorem depth_mapping (d : Descriptor) : (mapping d).depth = d.depth + 1 := rfl

theorem depth_le_iff {d : Descriptor} {n : Nat} :
    d.depth ≤ n ↔ ∀ part ∈ d.parts, part.depth + 1 ≤ n := by
  rw [depth, fold_eq]
  induction d.parts with
  | nil => simp
  | cons part parts ih =>
    rw [List.map_cons, List.foldr_cons, Nat.max_le, ih, List.forall_mem_cons]
    rfl

theorem lt_depth_iff {d : Descriptor} {n : Nat} :
    n < d.depth ↔ ∃ part ∈ d.parts, n < part.depth + 1 := by
  rw [← Nat.not_le, depth_le_iff]
  simp

/-- No union in a descriptor repeats a member. -/
def Distinct (d : Descriptor) : Prop :=
  d.fold fun d parts ↦ (∀ members tagField, d = union members tagField → members.Nodup) ∧
    ∀ part ∈ parts, part.2

theorem distinct_iff {d : Descriptor} : d.Distinct ↔
    (∀ members tagField, d = union members tagField → members.Nodup) ∧
      ∀ part ∈ d.parts, part.Distinct := by
  rw [Distinct, fold_eq]
  simp [Distinct]

end Descriptor

/-! ## Literals -/

namespace Literal

/-- The bytes of plain data. -/
def scalarBytes : Scalar → List UInt8
  | .none => [Tag.unit.byte]
  | .integer v => s64Item v
  | .float v => Tag.f64.byte :: littleEndian 8 v.bits.toNat
  | .string v => strItem v
  | .boolean v => [(if v then Tag.true else Tag.false).byte]
  | .datetime v => sized .map <|
    variantItem "seconds" (s64Item (.ofInt v.seconds)) ++
      variantItem "nanos" (Tag.u32.byte :: littleEndian 4 (UInt32.ofNat v.nanos).toNat)
  | .duration v => sized .map <|
    variantItem "seconds" (s64Item (.ofInt v.seconds)) ++
      variantItem "nanos" (s64Item (.ofInt v.nanos))
  | .binary v => sized .bytes v

mutual

/-- What stands inside the variant of a literal. -/
def payload : Literal → List UInt8
  | scalar s => scalarBytes s
  | blob b => sized .map (variantItem "uri" (strItem b.uri) ++ Descriptor.blobEntryBytes b.type)
  | collection items => sized .list (itemBytes items)
  | mapping entries => sized .map (entryBytes entries)
  | record fields => sized .map (entryBytes fields)
  | union type value => sized .map <|
    variantItem "type" type.layout ++ variantItem "value" (variantItem value.shape value.payload)

def itemBytes : List Literal → List UInt8
  | [] => []
  | l :: ls => variantItem l.shape l.payload ++ itemBytes ls

def entryBytes : List (String × Literal) → List UInt8
  | [] => []
  | (name, l) :: es => variantItem name (variantItem l.shape l.payload) ++ entryBytes es

end

/-- The bytes of a literal. -/
def layout (l : Literal) : List UInt8 := variantItem l.shape l.payload

theorem payload_union (type : Descriptor) (l : Literal) : (union type l).payload =
    sized .map (variantItem "type" type.layout ++ variantItem "value" l.layout) := rfl

theorem itemBytes_eq_flatMap (ls : List Literal) : itemBytes ls = ls.flatMap layout := by
  induction ls with
  | nil => rfl
  | cons l ls ih => rw [itemBytes, ih]; rfl

theorem entryBytes_eq_flatMap (es : List (String × Literal)) :
    entryBytes es = es.flatMap fun e ↦ variantItem e.1 e.2.layout := by
  induction es with
  | nil => rfl
  | cons e es ih => rw [entryBytes, ih]; rfl

theorem length_layout_le_of_mem {ls : List Literal} {l : Literal} (h : l ∈ ls) :
    l.layout.length ≤ (itemBytes ls).length := by
  rw [itemBytes_eq_flatMap]
  exact length_le_flatMap h layout

theorem length_layout_le_of_mem_entries {es : List (String × Literal)} {e : String × Literal}
    (h : e ∈ es) : (variantItem e.1 e.2.layout).length ≤ (entryBytes es).length := by
  rw [entryBytes_eq_flatMap]
  exact length_le_flatMap h fun e ↦ variantItem e.1 e.2.layout

mutual

/-- The number of levels below a literal.  The descriptor and the value of a union literal both
stand one level further in. -/
def depth : Literal → Nat
  | scalar _ | blob _ => 0
  | collection items => itemsDepth items
  | mapping entries => entriesDepth entries
  | record fields => entriesDepth fields
  | union type value => max type.depth value.depth + 1

def itemsDepth : List Literal → Nat
  | [] => 0
  | l :: ls => max (l.depth + 1) (itemsDepth ls)

def entriesDepth : List (String × Literal) → Nat
  | [] => 0
  | (_, l) :: es => max (l.depth + 1) (entriesDepth es)

end

theorem itemsDepth_le_iff {ls : List Literal} {n : Nat} :
    itemsDepth ls ≤ n ↔ ∀ l ∈ ls, l.depth + 1 ≤ n := by
  induction ls with
  | nil => simp [itemsDepth]
  | cons l ls ih => simp only [itemsDepth, Nat.max_le, ih, List.forall_mem_cons]

theorem entriesDepth_le_iff {es : List (String × Literal)} {n : Nat} :
    entriesDepth es ≤ n ↔ ∀ e ∈ es, e.2.depth + 1 ≤ n := by
  induction es with
  | nil => simp [entriesDepth]
  | cons e es ih => simp only [entriesDepth, Nat.max_le, ih, List.forall_mem_cons]

theorem lt_itemsDepth_iff {ls : List Literal} {n : Nat} :
    n < itemsDepth ls ↔ ∃ l ∈ ls, n < l.depth + 1 := by
  rw [← Nat.not_le, itemsDepth_le_iff]
  simp

theorem lt_entriesDepth_iff {es : List (String × Literal)} {n : Nat} :
    n < entriesDepth es ↔ ∃ e ∈ es, n < e.2.depth + 1 := by
  rw [← Nat.not_le, entriesDepth_le_iff]
  simp

mutual

/-- No union in the descriptor of a union literal repeats a member. -/
def Distinct : Literal → Prop
  | scalar _ | blob _ => True
  | collection items => DistinctItems items
  | mapping entries => DistinctEntries entries
  | record fields => DistinctEntries fields
  | union type value => type.Distinct ∧ value.Distinct

def DistinctItems : List Literal → Prop
  | [] => True
  | l :: ls => l.Distinct ∧ DistinctItems ls

def DistinctEntries : List (String × Literal) → Prop
  | [] => True
  | (_, l) :: es => l.Distinct ∧ DistinctEntries es

end

theorem distinctItems_iff {ls : List Literal} : DistinctItems ls ↔ ∀ l ∈ ls, l.Distinct := by
  induction ls with
  | nil => simp [DistinctItems]
  | cons l ls ih => simp [DistinctItems, ih]

theorem distinctEntries_iff {es : List (String × Literal)} :
    DistinctEntries es ↔ ∀ e ∈ es, e.2.Distinct := by
  induction es with
  | nil => simp [DistinctEntries]
  | cons e es ih => simp only [DistinctEntries, ih, List.forall_mem_cons]

theorem orderedItems_iff {ls : List Literal} : OrderedItems ls ↔ ∀ l ∈ ls, l.Ordered := by
  induction ls with
  | nil => simp [OrderedItems]
  | cons l ls ih => simp [OrderedItems, ih]

theorem orderedEntries_iff {es : List (String × Literal)} :
    OrderedEntries es ↔ ∀ e ∈ es, e.2.Ordered := by
  induction es with
  | nil => simp [OrderedEntries]
  | cons e es ih => simp only [OrderedEntries, ih, List.forall_mem_cons]

end Literal

end Interchange
