import Interchange.Json.Literal
import Interchange.Proofs.Json.Descriptor
import Interchange.Proofs.Time.Rfc3339
import Interchange.Proofs.Tlv.Layout

/-!
# Literals read back

A literal without floats is read back from its JSON form: each kind of plain data from its own, and
what holds other literals from theirs.  An irregular time has settled by then, since its text is
that of the time into which it settles.  A form that nests too deep for its reader is refused.
-/

namespace Interchange

open Json (Document Reads)

variable {levels : Nat}

namespace Literal

/-! ## Literals without floats -/

/-- Whether there are no floats in a literal. -/
def FloatFree (l : Literal) : Prop := ∀ s ∈ l.scalars, s.kind ≠ .float

end Literal

/-! ## Plain data -/

namespace Scalar

/-- An integer within bounds is read back, if 64 bits hold what is within the bounds. -/
theorem intBetween?_integer {low high i : Int} (hlow : low ≤ i) (hhigh : i ≤ high)
    (hmin : Int64.minValue.toInt ≤ low) (hmax : high < UInt64.size) :
    intBetween? low high (Json.integer i).document = some i := by
  have hread : Document.int? (Json.integer i).document = some i :=
    Json.Numeral.toInt?_ofInt (Int.le_trans hmin hlow) (Int.lt_of_le_of_lt hhigh hmax)
  rw [intBetween?, hread]
  exact if_pos ⟨hlow, hhigh⟩

theorem int64?_integer {i : Int} (hmin : Int64.minValue.toInt ≤ i)
    (hmax : i ≤ Int64.maxValue.toInt) : int64? (Json.integer i).document = some i :=
  intBetween?_integer hmin hmax (Int.le_refl _) (by decide)

theorem reads_integer (v : Int64) : Reads (ofDocument? .integer) levels (integer v).toJson
    (integer v) := by
  have hread := int64?_integer v.le_toInt (Int.le_of_lt_add_one v.toInt_lt)
  show (int64? (Json.integer v.toInt).document).bind _ = _
  rw [hread, Option.bind_some, Int64.ofInt_toInt]
  rfl

theorem reads_datetime (v : Timestamp) : Reads (ofDocument? .datetime) levels (datetime v).toJson
    (datetime v.settled) := by
  have hread (s : String) : ofDocument? .datetime levels (Json.string s).document =
      datetime <$> Rfc3339.read? s.toList := rfl
  rw [Reads, toJson, hread, String.toList_ofList, Rfc3339.read?_write, Json.depth,
    if_pos (Nat.zero_le levels)]
  rfl

theorem reads_duration (v : Span) : Reads (ofDocument? .duration) levels (duration v).toJson
    (duration v) := by
  cases levels with
  | zero => rfl
  | succ n =>
    have hmin : Int64.minValue.toInt = -9223372036854775808 := rfl
    have hmax : Int64.maxValue.toInt = 9223372036854775807 := rfl
    have hmin' : Int32.minValue.toInt = -2147483648 := rfl
    have hmax' : Int32.maxValue.toInt = 2147483647 := rfl
    have hseconds := v.natAbs_seconds_le
    have hnanos := v.natAbs_nanos_lt
    have hread : int64? (Json.integer v.seconds).document = some v.seconds :=
      int64?_integer (by omega) (by omega)
    have hread' : intBetween? Int32.minValue.toInt Int32.maxValue.toInt
        (Json.integer v.nanos).document = some v.nanos :=
      intBetween?_integer (by omega) (by omega) (by decide) (by decide)
    show (int64? (Json.integer v.seconds).document).bind _ = _
    rw [hread, Option.bind_some]
    show (intBetween? _ _ (Json.integer v.nanos).document).bind _ = _
    rw [hread', Option.bind_some, Span.ofParts?_parts]
    rfl

/-- A byte that a document writes. -/
theorem reads_byte (b : UInt8) (levels : Nat) :
    Reads (fun _ d ↦ do return UInt8.ofNat (← intBetween? 0 255 d).toNat) levels
      (Json.integer b.toNat) b := by
  have hlt : b.toNat < 256 := b.toNat_lt
  have hread := intBetween?_integer (i := b.toNat) (Int.natCast_nonneg _)
    (show (b.toNat : Int) ≤ 255 by omega) (by decide) (by decide)
  show (intBetween? 0 255 _).bind _ = some b
  rw [hread, Option.bind_some, Int.toNat_natCast, UInt8.ofNat_toNat]
  rfl

theorem reads_binary (v : List UInt8) : Reads (ofDocument? .binary) levels (binary v).toJson
    (binary v) := by
  cases levels with
  | zero => rfl
  | succ n =>
    have hbytes := Json.mapM_itemDocuments fun b (_ : b ∈ v) ↦ reads_byte b n
    rw [List.map_id'] at hbytes
    show Option.bind (List.mapM _ (Json.itemDocuments (v.map fun b ↦ Json.integer b.toNat))) _ = _
    rw [hbytes]
    simp only [toJson, Json.depth, Nat.succ_le_succ_iff]
    split <;> rfl

/-- Plain data is read back as its kind, and settled; none has no content to be read, and what a
float is written as may read as another. -/
theorem reads_ofDocument? {s : Scalar} (hnone : s ≠ none) (hfloat : s.kind ≠ .float)
    (levels : Nat) : Reads (ofDocument? s.kind) levels s.toJson s.settled := by
  cases s with
  | none => exact absurd rfl hnone
  | float => exact absurd rfl hfloat
  | integer v => exact reads_integer v
  | string v => rfl
  | boolean v => rfl
  | datetime v => exact reads_datetime v
  | duration v => exact reads_duration v
  | binary v => exact reads_binary v

end Scalar

namespace Literal

/-! ## Literals -/

theorem itemsToJson_eq_map (ls : List Literal) : itemsToJson ls = ls.map toJson := by
  induction ls with
  | nil => rfl
  | cons l ls ih => rw [itemsToJson, ih, List.map_cons]

theorem entriesToJson_eq_map (es : List (String × Literal)) :
    entriesToJson es = es.map fun e ↦ (e.1, e.2.toJson) := by
  induction es with
  | nil => rfl
  | cons e es ih => rw [entriesToJson, ih, List.map_cons]

theorem reads_scalar {s : Scalar} (hfloat : s.kind ≠ .float) (levels : Nat) :
    Reads ofDocument? levels (scalar s).toJson (scalar s).settled := by
  -- none is a choice without content, all else stands under its kind
  by_cases hnone : s = .none
  · subst hnone
    cases levels <;> rfl
  · have hjson : (scalar s).toJson =
        Json.choice "scalar" (Json.choice "primitive" (Json.choice s.kind.name s.toJson)) := by
      cases s with
      | none => exact absurd rfl hnone
      | _ => rfl
    rw [hjson]
    match levels with
    | 0 | 1 | 2 => rfl
    | n + 3 =>
      show ((Kind.ofName? s.kind.name).bind fun kind ↦
        scalar <$> Scalar.ofDocument? kind n s.toJson.document) = _
      rw [Kind.ofName?_name, Option.bind_some, Scalar.reads_ofDocument? hnone hfloat n]
      simp only [Json.depth_choice, Nat.succ_le_succ_iff]
      split <;> rfl

theorem reads_blob (b : Blob) (levels : Nat) :
    Reads ofDocument? levels (blob b).toJson (blob b) := by
  match levels with
  | 0 | 1 | 2 => rfl
  | n + 3 =>
    show (Extent.ofDocument? n _).bind _ = _
    rw [Extent.ofDocument?_name]
    exact (if_pos (Nat.le_add_left 3 n)).symm

theorem reads_collection {items : List Literal}
    (h : ∀ l ∈ items, ∀ levels, Reads ofDocument? levels l.toJson l.settled) (levels : Nat) :
    Reads ofDocument? levels (collection items).toJson (collection items).settled := by
  match levels with
  | 0 | 1 => rfl
  | n + 2 =>
    show collection <$> (Json.itemDocuments (itemsToJson items)).mapM (ofDocument? n) = _
    rw [itemsToJson_eq_map, Json.mapM_itemDocuments fun l hl ↦ h l hl n]
    simp only [toJson, itemsToJson_eq_map, Json.depth_choice, Json.depth, Nat.succ_le_succ_iff,
      settled_collection]
    split <;> rfl

/-- Named literals are read back in their order, given what stands around them. -/
theorem reads_entries {wrap : Entries Literal → Literal} {name : String}
    {entries : List (String × Literal)}
    (hsettled : (wrap entries).settled = wrap (entries.map fun e ↦ (e.1, e.2.settled)))
    (hjson : (wrap entries).toJson = Json.choice name (.object (entriesToJson entries)))
    (hone : ∀ ms, ofDocument? 1 (.object [(some name, .object ms)]) = Option.none)
    (hread : ∀ n ms, ofDocument? (n + 2) (.object [(some name, .object ms)]) =
      Option.bind (ms.mapM fun m ↦ do return (← m.1, ← ofDocument? n m.2))
        fun pairs ↦ some (wrap (Entries.ofList pairs)))
    (ordered : Entries.Ordered entries)
    (h : ∀ e ∈ entries, ∀ levels, Reads ofDocument? levels e.2.toJson e.2.settled)
    (levels : Nat) : Reads ofDocument? levels (wrap entries).toJson (wrap entries).settled := by
  have ordered' : Entries.Ordered (entries.map fun e ↦ (e.1, e.2.settled)) :=
    List.pairwise_map.mpr ordered
  rw [hjson, hsettled]
  match levels with
  | 0 => rfl
  | 1 => exact hone _
  | n + 2 =>
    show ofDocument? (n + 2) (.object [(some name, .object (Json.memberDocuments _))]) = _
    rw [hread, entriesToJson_eq_map, Json.mapM_memberDocuments fun e he ↦ h e he n]
    simp only [Json.depth_choice, Json.depth, Nat.succ_le_succ_iff]
    split
    · rw [Option.bind_some, Entries.ofList_of_ordered ordered']
    · rfl

theorem reads_union {type : Descriptor} {value : Literal}
    (h : ∀ levels, Reads ofDocument? levels value.toJson value.settled) (levels : Nat) :
    Reads ofDocument? levels (union type value).toJson (union type value).settled := by
  match levels with
  | 0 | 1 => rfl
  | n + 2 =>
    show (Descriptor.ofDocument? n type.toJson.document).bind (fun type ↦
      (ofDocument? n value.toJson.document).bind fun value ↦ some (union type value)) =
        if _ then some (union type value.settled) else _
    rw [type.reads_ofDocument? n, h n]
    simp only [toJson, Json.depth_choice, Json.depth, Json.membersDepth, Nat.max_zero,
      Nat.succ_le_succ_iff, Nat.max_le, Json.bind_ite_ite]

/-- A literal without floats is read back from its JSON form, with its times settled, if it nests no
deeper than may be. -/
theorem reads_ofDocument? {l : Literal} (hfree : l.FloatFree) (ordered : l.Ordered)
    (levels : Nat) : Reads ofDocument? levels l.toJson l.settled := by
  induction l generalizing levels with
  | scalar s => exact reads_scalar (hfree s List.mem_cons_self) levels
  | blob b => exact reads_blob b levels
  | collection items ih =>
    exact reads_collection (fun l hl ↦ ih l hl (forall_itemScalars.mp hfree l hl)
      (orderedItems_iff.mp ordered l hl)) levels
  | mapping entries ih =>
    exact reads_entries (settled_mapping entries) rfl (fun _ ↦ rfl) (fun _ _ ↦ rfl) ordered.1
      (fun e he ↦ ih e he (forall_entryScalars.mp hfree e he)
        (orderedEntries_iff.mp ordered.2 e he)) levels
  | record fields ih =>
    exact reads_entries (settled_record fields) rfl (fun _ ↦ rfl) (fun _ _ ↦ rfl) ordered.1
      (fun f hf ↦ ih f hf (forall_entryScalars.mp hfree f hf)
        (orderedEntries_iff.mp ordered.2 f hf)) levels
  | union type value ih => exact reads_union (ih hfree ordered) levels

end Literal

/-- Descriptors are read back from their JSON text, and so are literals without floats, with their
times settled, if no more containers nest in it than may be.  A text that nests deeper is refused.
So a literal comes back as it was if it is regular, and as another one if it is not. -/
theorem ofJsonText?_text (d : Descriptor) {l : Literal} (hfree : l.FloatFree)
    (ordered : l.Ordered) :
    Descriptor.ofJsonText? d.toJson.text =
      (if d.toJson.depth ≤ Json.maxDepth then some d else none) ∧
    Literal.ofJsonText? l.toJson.text =
      (if l.toJson.depth ≤ Json.maxDepth then some l.settled else none) ∧
    (l.settled = l ↔ l.Regular) := by
  refine ⟨?_, ?_, Literal.settled_eq_self_iff⟩
  · exact (d.reads_ofDocument? Json.maxDepth).ofText?_bind
  · exact (Literal.reads_ofDocument? hfree ordered Json.maxDepth).ofText?_bind

/-- A leap second, a year before zero and one of five digits, a span below zero, bytes and a key
that has to be escaped, under a union with repeated members. -/
theorem ofJsonText?_text_times :
    let times : List Literal := [.scalar (.datetime ⟨1483228799, 1500000000, by decide, by decide⟩),
      .scalar (.datetime ⟨-62198755200, 0, by decide, by decide⟩),
      .scalar (.datetime ⟨253402300800, 1, by decide, by decide⟩)]
    let type : Descriptor :=
      .union [.record [("times", .collection (.primitive .datetime))], .mapping (.primitive .none),
        .mapping (.primitive .none)] "kind"
    let l : Literal := .union type (.record [("\n\"é😀",
      .scalar (.duration ⟨-1500000000, by decide⟩)), ("bytes", .scalar (.binary [0, 255])),
      ("times", .collection times)])
    Descriptor.ofJsonText? type.toJson.text = some type ∧ l.FloatFree ∧ l.Ordered ∧ l.Regular ∧
      Literal.ofJsonText? l.toJson.text = some l := by
  intro times type l
  have hfree : l.FloatFree := by
    unfold Literal.FloatFree
    decide +kernel
  have ordered : l.Ordered := by
    refine ⟨?_, trivial, trivial, ⟨trivial, trivial, trivial, trivial⟩, trivial⟩
    decide +kernel
  have hregular : l.Regular := by decide +kernel
  obtain ⟨htype, hl, hsettled⟩ := ofJsonText?_text type hfree ordered
  refine ⟨htype.trans (if_pos (by decide)), hfree, ordered, hregular, ?_⟩
  rw [hl, if_pos (by decide), hsettled.mpr hregular]

/-- A time may come back as another one: a stray leap second is read as the second that comes
next. -/
theorem ofJsonText?_text_strayLeapSecond :
    Literal.strayLeapSecond.FloatFree ∧ Literal.strayLeapSecond.Ordered ∧
    Literal.strayLeapSecond.toJson.depth ≤ Json.maxDepth ∧
    Literal.ofJsonText? Literal.strayLeapSecond.toJson.text =
      some (.scalar (.datetime ⟨1700000001, 500000000, by decide, by decide⟩)) ∧
    Literal.ofJsonText? Literal.strayLeapSecond.toJson.text ≠ some Literal.strayLeapSecond := by
  have hfree : Literal.strayLeapSecond.FloatFree := by
    unfold Literal.FloatFree
    decide
  have hread : Literal.ofJsonText? Literal.strayLeapSecond.toJson.text =
      some Literal.strayLeapSecond.settled :=
    (Literal.reads_ofDocument? hfree trivial Json.maxDepth).ofText?_bind.trans (if_pos (by decide))
  refine ⟨hfree, trivial, by decide, hread, ?_⟩
  rw [hread, ne_eq, Option.some_inj, Literal.settled_eq_self_iff]
  decide

end Interchange
