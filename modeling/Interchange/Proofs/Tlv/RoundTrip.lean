import Interchange.Proofs.Entries
import Interchange.Proofs.Time.Regular
import Interchange.Proofs.Time.Span
import Interchange.Proofs.Tlv.Literal
import Interchange.Proofs.Tlv.Norm
import Interchange.Proofs.Tlv.Reading

/-!
# The byte form read back

A reader of enough levels reads the layout of a descriptor or of a literal as its normal form, but
refuses a literal with an irregular time as out of range.  With what writing does, which puts the
layout whatever the times or stops at the limit of nesting, this is the round trip of the byte form.
-/

namespace Interchange

open Tlv Tlv.Writer Tlv.Reader

section

variable {α β ε : Type} {as : List α} {b : β}

/-- A fold of steps that do not fail is a fold of what they return. -/
theorem foldlM_ok {step : β → α → Except ε β} {f : β → α → β}
    (h : ∀ b, ∀ a ∈ as, step b a = .ok (f b a)) : as.foldlM step b = .ok (as.foldl f b) := by
  induction as generalizing b with
  | nil => rfl
  | cons a as ih =>
    rw [List.foldlM_cons, h b a List.mem_cons_self, List.foldl_cons]
    exact ih fun b c hc ↦ h b c (List.mem_cons_of_mem a hc)

/-- A fold of steps that return where a condition holds and fail alike where it does not. -/
theorem foldlM_ite {p : α → Prop} [DecidablePred p] {step : β → α → Except ε β} {f : β → α → β}
    {e : ε} (h : ∀ b, ∀ a ∈ as, step b a = if p a then .ok (f b a) else .error e) :
    (as.foldlM step b : Except ε β) = if ∀ a ∈ as, p a then .ok (as.foldl f b) else .error e := by
  induction as generalizing b with
  | nil => exact (if_pos fun a ha ↦ nomatch ha).symm
  | cons a as ih =>
    have hrest := ih (b := f b a) fun b c hc ↦ h b c (List.mem_cons_of_mem a hc)
    rw [List.foldlM_cons, h b a List.mem_cons_self]
    by_cases ha : p a
    · rw [if_pos ha, ok_bind, hrest, List.foldl_cons]
      simp only [List.forall_mem_cons, ha, true_and]
    · rw [if_neg ha, error_bind, if_neg]
      intro hall
      exact ha (hall a List.mem_cons_self)

theorem foldl_append_singleton (f : α → β) (bs : List β) (as : List α) :
    as.foldl (fun bs a ↦ bs ++ [f a]) bs = bs ++ as.map f := by
  induction as generalizing bs with
  | nil => simp
  | cons a as ih => simp [ih]

/-- Going through a list collects what its items are read as. -/
theorem foldItems_collect {g : α → List UInt8} {f : α → β}
    {read : List UInt8 → Except Tlv.Fault β}
    (hitem : ∀ a ∈ as, Reads nextItem (g a) (some (g a)))
    (hread : ∀ a ∈ as, read (g a) = .ok (f a)) :
    foldItems (fun bs item ↦ do .ok (bs ++ [← read item])) [] (as.flatMap g) =
      .ok (as.map f) := by
  have hstep (bs : List β) (a : α) (ha : a ∈ as) :
      (do .ok (bs ++ [← read (g a)])) = (.ok (bs ++ [f a]) : Except Tlv.Fault _) := by
    rw [hread a ha, ok_bind]
  rw [foldItems_flatMap hitem, foldlM_ok hstep, foldl_append_singleton, List.nil_append]

end

/-! ## Descriptors -/

namespace Descriptor

section

variable (found : BlobEntries)

theorem BlobEntries.add_uri {uri : String} (h : (strItem uri).length < lengthLimit + 5) :
    found.add "uri" (strItem uri) = .ok { found with uri := some uri } := by
  simp [BlobEntries.add, outcome_str h]

theorem BlobEntries.add_format {format : String} (h : (strItem format).length < lengthLimit + 5) :
    found.add "format" (strItem format) = .ok { found with format := some format } := by
  simp [BlobEntries.add, outcome_str h]

theorem BlobEntries.add_extent {extent : Extent}
    (h : (strItem extent.name).length < lengthLimit + 5) :
    found.add "dimensionality" (strItem extent.name) =
      .ok { found with extent := some extent } := by
  simp [BlobEntries.add, outcome_str h]

end

/-- The type of a blob is read back from its entries. -/
theorem readBlobType_blobEntryBytes {type : BlobType}
    (h : (blobEntryBytes type).length < lengthLimit) :
    readBlobType (blobEntryBytes type) = .ok (none, type) := by
  have hlen := h
  simp only [blobEntryBytes, List.length_append, length_variantItem] at hlen
  rw [readBlobType, blobEntryBytes, foldEntries_pair h, BlobEntries.add_format _ (by omega),
    ok_bind, BlobEntries.add_extent _ (by omega)]
  rfl

/-- The type of a blob reference is read back from its entries, with the URI before them. -/
theorem readBlobType_uri {uri : String} {type : BlobType}
    (h : (variantItem "uri" (strItem uri) ++ blobEntryBytes type).length < lengthLimit) :
    readBlobType (variantItem "uri" (strItem uri) ++ blobEntryBytes type) =
      .ok (some uri, type) := by
  have hlen := h
  simp only [blobEntryBytes, List.length_append, length_variantItem] at hlen
  have hbytes : variantItem "uri" (strItem uri) ++ blobEntryBytes type =
      [("uri", strItem uri), ("format", strItem type.format),
        ("dimensionality", strItem type.extent.name)].flatMap fun e ↦ variantItem e.1 e.2 := by
    simp [blobEntryBytes]
  rw [hbytes] at h
  rw [readBlobType, hbytes, foldEntries_entries _ h, List.foldlM_cons,
    BlobEntries.add_uri _ (by omega), ok_bind, List.foldlM_cons,
    BlobEntries.add_format _ (by omega), ok_bind, List.foldlM_cons,
    BlobEntries.add_extent _ (by omega), ok_bind]
  rfl

/-- Members in a row are read one after another. -/
theorem foldItems_memberBytes {read : List UInt8 → Except Tlv.Fault Descriptor}
    {members : List Descriptor} (hread : ∀ d ∈ members, read d.layout = .ok d.norm)
    (h : (memberBytes members).length < lengthLimit) :
    foldItems (fun ds item ↦ do .ok (ds ++ [← read item])) [] (memberBytes members) =
      .ok (members.map norm) := by
  rw [memberBytes_eq_flatMap]
  refine foldItems_collect (fun d hd ↦ .nextItem ?_) hread
  have := length_layout_le_of_mem hd
  rw [← layout]
  omega

/-- Fields in a row are read one after another, whatever their names. -/
theorem foldItems_fieldBytes {read : List UInt8 → Except Tlv.Fault Descriptor}
    {fields : List (String × Descriptor)} (hread : ∀ f ∈ fields, read f.2.layout = .ok f.2.norm)
    (h : (fieldBytes fields).length < lengthLimit) :
    foldItems (fun fields item ↦ do
      let entry ← Reader.variant.outcome item
      let d ← read entry.2
      .ok (fields ++ [(entry.1, d)])) [] (fieldBytes fields) =
        .ok (fields.map fun f ↦ (f.1, f.2.norm)) := by
  have hlen {f} (hf : f ∈ fields) : (variantItem f.1 f.2.layout).length < lengthLimit + 5 := by
    have := length_layout_le_of_mem_fields hf
    omega
  rw [fieldBytes_eq_flatMap, foldItems_flatMap fun f hf ↦ .nextItem (hlen hf)]
  rw [foldlM_ok (f := fun fs f ↦ fs ++ [(f.1, f.2.norm)]) fun fs f hf ↦ ?_,
    foldl_append_singleton, List.nil_append]
  simp [(Reads.variant (hlen hf)).outcome, hread f hf]

/-- The layout of a descriptor is read as its normal form by a reader of more levels than lie below
the descriptor. -/
theorem readLevels_layout {d : Descriptor} {levels : Nat} (hd : d.depth < levels)
    (hl : d.layout.length < lengthLimit + 5) : Reads (readLevels levels) d.layout d.norm := by
  induction d using Descriptor.parts_induction generalizing levels with
  | step d ih =>
    obtain ⟨levels, rfl⟩ := Nat.exists_eq_add_of_le' (Nat.zero_lt_of_lt hd)
    have hd : ∀ part ∈ d.parts, part.depth < levels := depth_le_iff.mp (Nat.le_of_lt_succ hd)
    have hread (part : Descriptor) (hp : part ∈ d.parts)
        (hl : part.layout.length < lengthLimit + 5) :
        (readLevels levels).outcome part.layout = .ok part.norm :=
      (ih part hp (hd part hp) hl).outcome
    refine (Reads.variant hl).bind_nil (.ofExcept ?_)
    rw [layout, length_variantItem] at hl
    cases d with
    | primitive kind =>
      rw [payload] at hl
      simp [shape, payload, norm, outcome_str (s := kind.name) (by omega)]
    | collection d =>
      rw [payload_collection] at hl
      simp [shape, payload_collection, norm, hread d (by simp [parts]) (by omega)]
    | mapping d =>
      rw [payload_mapping] at hl
      simp [shape, payload_mapping, norm, hread d (by simp [parts]) (by omega)]
    | union members tagField =>
      simp only [payload, length_sized, List.length_append, length_variantItem] at hl
      have hmembers : foldItems _ [] (memberBytes members) = _ :=
        foldItems_memberBytes (fun d hd ↦ hread d hd (by
          have := length_layout_le_of_mem hd
          omega)) (by omega)
      have hlist : Reader.list.outcome (sized .list (memberBytes members)) = _ :=
        outcome_list (by omega)
      have hentries : (variantItem "members" (sized .list (memberBytes members)) ++
          variantItem "tag_field" (strItem tagField)).length < lengthLimit := by
        simp only [List.length_append, length_variantItem, length_sized]
        omega
      simp only [shape, payload, outcome_map hentries, foldEntries_pair hentries, ok_bind,
        UnionEntries.add, hlist, hmembers, outcome_str (s := tagField) (by omega),
        UnionEntries.union, required, norm_union, pure_eq_ok]
    | blob type =>
      rw [payload, length_sized] at hl
      have hmap : Reader.map.outcome (sized .map (blobEntryBytes type)) = _ :=
        outcome_map (by omega)
      have htype : readBlobType (blobEntryBytes type) = _ := readBlobType_blobEntryBytes (by omega)
      simp only [shape, payload, norm, hmap, htype, ok_bind, pure_eq_ok]
    | record fields =>
      rw [payload, length_sized] at hl
      have hfields : foldItems _ [] (fieldBytes fields) = _ :=
        foldItems_fieldBytes (fun f hf ↦ hread f.2 (List.mem_map_of_mem hf) (by
          have := length_layout_le_of_mem_fields hf
          rw [length_variantItem] at this
          omega)) (by omega)
      have hlist : Reader.list.outcome (sized .list (fieldBytes fields)) = _ :=
        outcome_list (by omega)
      simp only [shape, payload, norm_record, hlist, hfields, ok_bind, pure_eq_ok]

/-- Whether the body of a descriptor's variant, in which every string and body within stands, has a
length that four bytes hold. -/
def Fits (d : Descriptor) : Prop := (strItem d.shape ++ d.payload).length < lengthLimit

instance (d : Descriptor) : Decidable d.Fits := inferInstanceAs (Decidable (_ < _))

/-- A descriptor within the limit of nesting is written, and what is written reads back as its
normal form, which is the descriptor itself if no union repeats a member, and leaves whatever
follows unread.  A descriptor beyond the limit is refused. -/
theorem read_toBytes_norm {d : Descriptor} (hl : d.Fits) :
    (d.depth ≤ maxDepth → ∃ bytes, d.toBytes = .ok bytes ∧
      ∀ rest, (read 0).run (bytes ++ rest) = (.ok d.norm, rest)) ∧
    (d.Distinct → d.norm = d) ∧
    (maxDepth < d.depth → d.toBytes = .error .nestingLimit) := by
  have hl : d.layout.length < lengthLimit + 5 := by
    rw [layout, variantItem, length_sized]
    exact Nat.add_lt_add_right hl 5
  refine ⟨fun hd ↦ ⟨d.layout, ?_, ?_⟩, norm_of_distinct, fun hd ↦ ?_⟩
  · exact (write_appends (by omega) hl : Appends .root (d.write 0) 1 d.layout).bytesOf
  · exact readLevels_layout (Nat.lt_succ_of_le hd) hl
  · exact (write_refuses (by omega) hl : Refuses .root (d.write 0) _).bytesOf

/-- A union of which two members are equal once the first of them repeats no member, beside a
record with two fields of one name and a union of another tag field. -/
def repetitive : Descriptor := .union [
  .union [.primitive .string, .primitive .string] "kind",
  .union [.primitive .string] "kind",
  .record [("at", .primitive .integer), ("at", .primitive .integer)],
  .union [.primitive .string] "tag"] "which"

/-- Collections of collections so many levels deep. -/
def nested : Nat → Descriptor
  | 0 => .primitive .integer
  | levels + 1 => .collection (nested levels)

theorem read_toBytes_norm_repetitive :
    (∃ bytes, repetitive.toBytes = .ok bytes ∧ ∀ rest, (read 0).run (bytes ++ rest) =
      (.ok (.union [
        .union [.primitive .string] "kind",
        .record [("at", .primitive .integer), ("at", .primitive .integer)],
        .union [.primitive .string] "tag"] "which"), rest)) ∧
    (nested 64).norm = nested 64 ∧
    (nested 65).toBytes = .error .nestingLimit := by
  refine ⟨?_, ?_, ?_⟩
  · exact (read_toBytes_norm (by decide +kernel)).1 (by decide +kernel)
  · exact (read_toBytes_norm (by decide +kernel)).2.1 (norm_eq_self_iff.mp (by decide +kernel))
  · exact (read_toBytes_norm (by decide +kernel)).2.2 (by decide +kernel)

end Descriptor

/-! ## Times -/

theorem Timestamp.toInt_seconds (t : Timestamp) : (Int64.ofInt t.seconds).toInt = t.seconds := by
  have := t.inRange
  exact Int64.toInt_ofInt_of_le (by omega) (by omega)

theorem Timestamp.toNat_nanos (t : Timestamp) : (UInt32.ofNat t.nanos).toNat = t.nanos := by
  have := t.nanos_lt
  exact UInt32.toNat_ofNat_of_lt (by simp [UInt32.size]; omega)

/-! ## Literals -/

namespace Literal

/-- Seconds and nanoseconds are read back from their entries. -/
theorem readTime_entries {α : Type} {readNanos : Reader α} {seconds : Int64} {nanos : α}
    {item : List UInt8} (hread : Reads readNanos item nanos)
    (h : (variantItem "seconds" (s64Item seconds) ++ variantItem "nanos" item).length <
      lengthLimit) :
    readTime readNanos (variantItem "seconds" (s64Item seconds) ++ variantItem "nanos" item) =
      .ok (seconds, nanos) := by
  rw [readTime, foldEntries_pair h]
  simp only [TimeEntries.add, (Reads.s64 seconds).outcome, hread.outcome, ok_bind, pure_eq_ok,
    Descriptor.required]

/-- Plain data is read back from its bytes, unless it is an irregular timestamp. -/
theorem readScalar_scalarBytes {s : Scalar} (h : (scalarBytes s).length < lengthLimit + 5) :
    readScalar (scalarBytes s) s.kind = if s.Regular then .ok s else .error .outOfRange := by
  cases s with
  | none =>
    simp only [Scalar.kind, readScalar, scalarBytes, Reads.unit.outcome, ok_bind, pure_eq_ok]
    exact (if_pos trivial).symm
  | integer v =>
    simp only [Scalar.kind, readScalar, scalarBytes, (Reads.s64 v).outcome, map_ok]
    exact (if_pos trivial).symm
  | float v =>
    simp only [Scalar.kind, readScalar, scalarBytes, (Reads.f64 v).outcome, map_ok]
    exact (if_pos trivial).symm
  | string v =>
    simp only [Scalar.kind, readScalar, scalarBytes, outcome_str h, map_ok]
    exact (if_pos trivial).symm
  | boolean v =>
    simp only [Scalar.kind, readScalar, scalarBytes, (Reads.bool v).outcome, map_ok]
    exact (if_pos trivial).symm
  | datetime v =>
    rw [scalarBytes, length_sized] at h
    have hentries := Nat.lt_of_add_lt_add_right h
    simp only [Scalar.kind, readScalar, scalarBytes, outcome_map hentries,
      readTime_entries (Reads.u32 _) hentries, ok_bind]
    rw [v.toInt_seconds, v.toNat_nanos, Timestamp.ofParts?_parts]
    show Scalar.datetime <$> inRange (if v.Regular then _ else _) = if v.Regular then _ else _
    split <;> rfl
  | duration v =>
    rw [scalarBytes, length_sized] at h
    have hentries := Nat.lt_of_add_lt_add_right h
    simp only [Scalar.kind, readScalar, scalarBytes, outcome_map hentries,
      readTime_entries (Reads.s64 _) hentries, ok_bind]
    rw [v.toInt_seconds, v.toInt_nanos, Span.ofParts?_parts]
    exact (if_pos trivial).symm
  | binary v =>
    rw [scalarBytes, length_sized] at h
    have hbytes : Reads Reader.bytes (sized .bytes v) v := .bytes (by omega)
    simp only [Scalar.kind, readScalar, scalarBytes, hbytes.outcome, map_ok]
    exact (if_pos trivial).symm

/-- What the layout of a literal is read as: its normal form, unless a time in it is irregular. -/
def reread (l : Literal) : Except Tlv.Fault Literal :=
  if l.Regular then .ok l.norm else .error .outOfRange

theorem bind_reread {α : Type} (l : Literal) (f : Literal → α) :
    (do .ok (f (← l.reread))) = if l.Regular then .ok (f l.norm) else .error .outOfRange := by
  rw [reread]
  split <;> rfl

/-- What is made of parts that are read if they are regular is read if it is. -/
theorem map_ite_eq_reread {α : Type} {p : Prop} [Decidable p] {f : α → Literal} {a : α}
    {l : Literal} (hl : l.Regular ↔ p) (hnorm : l.norm = f a) :
    f <$> (if p then .ok a else .error .outOfRange) = l.reread := by
  rw [reread, hnorm]
  simp only [hl]
  split <;> rfl

/-- Items in a row are read one after another. -/
theorem foldItems_itemBytes {read : List UInt8 → Except Tlv.Fault Literal} {items : List Literal}
    (hread : ∀ l ∈ items, read l.layout = l.reread) (h : (itemBytes items).length < lengthLimit) :
    foldItems (fun ls item ↦ do .ok (ls ++ [← read item])) [] (itemBytes items) =
      if ∀ l ∈ items, l.Regular then .ok (normItems items) else .error .outOfRange := by
  have hitem (l : Literal) (hl : l ∈ items) : Reads nextItem l.layout (some l.layout) := by
    have := length_layout_le_of_mem hl
    refine .nextItem ?_
    rw [← layout]
    omega
  have hstep (ls : List Literal) (l : Literal) (hl : l ∈ items) :
      (do .ok (ls ++ [← read l.layout])) =
        if l.Regular then .ok (ls ++ [l.norm]) else (.error .outOfRange : Except Tlv.Fault _) := by
    rw [hread l hl]
    exact l.bind_reread fun l ↦ ls ++ [l]
  rw [itemBytes_eq_flatMap, foldItems_flatMap hitem, foldlM_ite hstep, foldl_append_singleton,
    List.nil_append, normItems_eq_map]

/-- Entries in a row are read one after another, each put at its place among those before it. -/
theorem foldEntries_entryBytes {read : List UInt8 → Except Tlv.Fault Literal}
    {entries : Entries Literal} (hread : ∀ e ∈ entries, read e.2.layout = e.2.reread)
    (h : (entryBytes entries).length < lengthLimit) :
    foldEntries (fun es name item ↦ do .ok (Entries.insert name (← read item) es)) []
      (entryBytes entries) = if ∀ e ∈ entries, e.2.Regular then
        .ok (Entries.ofList (normEntries entries)) else .error .outOfRange := by
  have hentry (e : String × Literal) (he : e ∈ entries) :
      Reads nextEntry (variantItem e.1 e.2.layout) (some (e.1, e.2.layout)) := by
    have := length_layout_le_of_mem_entries he
    exact .nextEntry (by omega)
  have hstep (es : Entries Literal) (e : String × Literal) (he : e ∈ entries) :
      (do .ok (Entries.insert e.1 (← read e.2.layout) es)) =
        if e.2.Regular then .ok (Entries.insert e.1 e.2.norm es)
        else (.error .outOfRange : Except Tlv.Fault _) := by
    rw [hread e he]
    exact e.2.bind_reread fun l ↦ Entries.insert e.1 l es
  rw [entryBytes_eq_flatMap, foldEntries_flatMap hentry, foldlM_ite hstep, normEntries_eq_map,
    Entries.ofList, List.foldl_map]

/-- That a reader of more levels than lie below a literal reads its layout, and only refuses it for
an irregular time. -/
def IsReread (l : Literal) : Prop :=
  ∀ {levels}, l.depth < levels → l.layout.length < lengthLimit + 5 →
    Yields (readLevels levels) l.layout l.reread

/-- The body of a mapping or of a record is read entry by entry. -/
theorem readEntries_readLevels {levels : Nat} {entries : Entries Literal}
    (h : ∀ e ∈ entries, e.2.IsReread) (hd : entriesDepth entries ≤ levels)
    (hl : (entryBytes entries).length < lengthLimit) :
    (do
      let body ← Reader.map.outcome (sized .map (entryBytes entries))
      foldEntries (fun es name item ↦ do
        .ok (Entries.insert name (← (readLevels levels).outcome item) es)) [] body) =
      if ∀ e ∈ entries, e.2.Regular then .ok (Entries.ofList (normEntries entries))
      else .error .outOfRange := by
  have hmap : Reader.map.outcome (sized .map (entryBytes entries)) = _ := outcome_map hl
  rw [hmap, ok_bind]
  refine foldEntries_entryBytes (fun e he ↦ ?_) hl
  have hdep := entriesDepth_le_iff.mp hd e he
  have hlen := length_layout_le_of_mem_entries he
  rw [length_variantItem] at hlen
  exact (h e he hdep (by omega)).outcome

theorem foldItems_readLevels {levels : Nat} {items : List Literal}
    (h : ∀ l ∈ items, l.IsReread) (hd : itemsDepth items ≤ levels)
    (hl : (itemBytes items).length < lengthLimit) :
    foldItems (fun ls item ↦ do .ok (ls ++ [← (readLevels levels).outcome item])) []
      (itemBytes items) =
        if ∀ l ∈ items, l.Regular then .ok (normItems items) else .error .outOfRange := by
  refine foldItems_itemBytes (fun l hmem ↦ ?_) hl
  have hdep := itemsDepth_le_iff.mp hd l hmem
  have hlen := length_layout_le_of_mem hmem
  exact (h l hmem hdep (by omega)).outcome

theorem isReread (l : Literal) : l.IsReread := by
  intro levels hd hl
  induction l generalizing levels with
  | scalar s =>
    obtain ⟨levels, rfl⟩ := Nat.exists_eq_add_of_le' (Nat.zero_lt_of_lt hd)
    refine (Reads.variant hl).bind_yields (congrArg Attempt.ofExcept ?_)
    rw [layout, length_variantItem, payload] at hl
    have hscalar : readScalar (scalarBytes s) s.kind = _ := readScalar_scalarBytes (by omega)
    have hmap : scalar <$> readScalar (scalarBytes s) s.kind = (scalar s).reread := by
      rw [hscalar]
      exact map_ite_eq_reread regular_scalar rfl
    simp only [shape, payload]
    generalize s.kind = kind at hmap
    cases kind <;> exact hmap
  | blob b =>
    obtain ⟨levels, rfl⟩ := Nat.exists_eq_add_of_le' (Nat.zero_lt_of_lt hd)
    refine (Reads.variant hl).bind_yields (congrArg Attempt.ofExcept ?_)
    rw [layout, length_variantItem, payload, length_sized] at hl
    have hentries : (variantItem "uri" (strItem b.uri) ++
        Descriptor.blobEntryBytes b.type).length < lengthLimit := by omega
    simp only [shape, payload, outcome_map hentries, Descriptor.readBlobType_uri hentries, ok_bind,
      Descriptor.required, pure_eq_ok]
    exact (if_pos (regular_blob b)).symm
  | collection items ih =>
    obtain ⟨levels, rfl⟩ := Nat.exists_eq_add_of_le' (Nat.zero_lt_of_lt hd)
    refine (Reads.variant hl).bind_yields (congrArg Attempt.ofExcept ?_)
    rw [layout, length_variantItem, payload, length_sized] at hl
    have hitems := foldItems_readLevels (fun l hmem ↦ ih l hmem) (Nat.le_of_lt_succ hd) (by omega)
    have hlist : Reader.list.outcome (sized .list (itemBytes items)) = _ := outcome_list (by omega)
    simp only [shape, payload, hlist, hitems, ok_bind, pure_eq_ok]
    exact map_ite_eq_reread regular_collection rfl
  | mapping entries ih =>
    obtain ⟨levels, rfl⟩ := Nat.exists_eq_add_of_le' (Nat.zero_lt_of_lt hd)
    refine (Reads.variant hl).bind_yields (congrArg Attempt.ofExcept ?_)
    rw [layout, length_variantItem, payload, length_sized] at hl
    have hentries :=
      readEntries_readLevels (fun e hmem ↦ ih e hmem) (Nat.le_of_lt_succ hd) (by omega)
    simp only [shape, payload, pure_eq_ok, hentries]
    exact map_ite_eq_reread regular_mapping rfl
  | record fields ih =>
    obtain ⟨levels, rfl⟩ := Nat.exists_eq_add_of_le' (Nat.zero_lt_of_lt hd)
    refine (Reads.variant hl).bind_yields (congrArg Attempt.ofExcept ?_)
    rw [layout, length_variantItem, payload, length_sized] at hl
    have hentries :=
      readEntries_readLevels (fun e hmem ↦ ih e hmem) (Nat.le_of_lt_succ hd) (by omega)
    simp only [shape, payload, pure_eq_ok, hentries]
    exact map_ite_eq_reread regular_record rfl
  | union type l ih =>
    obtain ⟨levels, rfl⟩ := Nat.exists_eq_add_of_le' (Nat.zero_lt_of_lt hd)
    refine (Reads.variant hl).bind_yields (congrArg Attempt.ofExcept ?_)
    simp only [layout, payload, length_sized, length_variantItem, List.length_append] at hl
    have hd : max type.depth l.depth < levels := Nat.lt_of_succ_lt_succ hd
    have htype : (Descriptor.readLevels levels).outcome type.layout = _ :=
      (Descriptor.readLevels_layout (by omega) (by omega)).outcome
    have hvalue : (readLevels levels).outcome l.layout = _ :=
      (ih (by omega) (by rw [layout, length_variantItem]; omega)).outcome
    have hentries : (variantItem "type" type.layout ++ variantItem "value" l.layout).length <
        lengthLimit := by
      simp only [List.length_append, length_variantItem, layout]
      omega
    simp only [shape, payload_union, outcome_map hentries, foldEntries_pair hentries, ok_bind,
      UnionEntries.add, htype, hvalue, pure_eq_ok]
    simp only [reread, regular_union]
    split <;> rfl

/-- A literal in order, with regular times, of which no union repeats a member is read back from its
layout. -/
theorem isReadBack (l : Literal) {levels : Nat} (hd : l.depth < levels) (ho : l.Ordered)
    (hdis : l.Distinct) (hregular : l.Regular) (hl : l.layout.length < lengthLimit + 5) :
    Reads (readLevels levels) l.layout l := by
  have hread := isReread l hd hl
  rwa [reread, if_pos hregular, norm_of_ordered ho hdis] at hread

/-- Whether the body of a literal's variant, in which every string, byte string and body within
stands, has a length that four bytes hold. -/
def Fits (l : Literal) : Prop := (strItem l.shape ++ l.payload).length < lengthLimit

instance (l : Literal) : Decidable l.Fits := inferInstanceAs (Decidable (_ < _))

/-- A literal within the limit of nesting is written, whatever its times.  What is written reads
back as the literal if all its times are regular, and is refused as out of range if one is not; in
both cases whatever follows is left unread.  A literal beyond the limit is refused. -/
theorem read_toBytes {l : Literal} (ho : l.Ordered) (hdis : l.Distinct) (hl : l.Fits) :
    (l.depth ≤ maxDepth → ∃ bytes, l.toBytes = .ok bytes ∧
      ∀ rest, (read 0).run (bytes ++ rest) =
        (if l.Regular then .ok l else .error .outOfRange, rest)) ∧
    (maxDepth < l.depth → l.toBytes = .error .nestingLimit) := by
  have hl : l.layout.length < lengthLimit + 5 := by
    rw [layout, variantItem, length_sized]
    exact Nat.add_lt_add_right hl 5
  refine ⟨fun hd ↦ ⟨l.layout, ?_, ?_⟩, fun hd ↦ ?_⟩
  · exact (isWritten l (by omega) hl : Appends .root (l.write 0) 1 l.layout).bytesOf
  · have hread : Yields (read 0) l.layout l.reread := isReread l (by omega) hl
    rwa [reread, norm_of_ordered ho hdis] at hread
  · exact (isRefused l (by omega) hl : Refuses .root (l.write 0) _).bytesOf

/-- A record with a leap second, the least span and a tagged float that is no number. -/
def extremes : Literal := .record [
  ("at", .scalar (.datetime ⟨59, 1999999999, by decide, by decide⟩)),
  ("gap", .scalar (.duration ⟨-9223372036854775807000000, by decide⟩)),
  ("ratio", .union (.union [.primitive .float, .primitive .none] "tag")
    (.scalar (.float ⟨0x7FF8000000000001⟩)))]

/-- Collections nested so many levels deep. -/
def nested : Nat → Literal
  | 0 => .collection []
  | levels + 1 => .collection [nested levels]

theorem ordered_nested (levels : Nat) : (nested levels).Ordered := by
  induction levels with
  | zero => exact trivial
  | succ levels ih => exact ⟨ih, trivial⟩

theorem distinct_nested (levels : Nat) : (nested levels).Distinct := by
  induction levels with
  | zero => exact trivial
  | succ levels ih => exact ⟨ih, trivial⟩

theorem read_toBytes_extremes :
    (∃ bytes, extremes.toBytes = .ok bytes ∧
      ∀ rest, (read 0).run (bytes ++ rest) = (.ok extremes, rest)) ∧
    (nested 65).toBytes = .error .nestingLimit := by
  have ho : extremes.Ordered := by
    refine ⟨?_, trivial, trivial, trivial, trivial⟩
    decide +kernel
  have hdis : extremes.Distinct := by
    simp [extremes, Distinct, DistinctEntries, Descriptor.Distinct, Descriptor.fold,
      Descriptor.foldEach]
  have hregular : extremes.Regular := by decide +kernel
  constructor
  · have hread := (read_toBytes ho hdis (by decide +kernel)).1 (by decide +kernel)
    rwa [if_pos hregular] at hread
  · exact (read_toBytes (ordered_nested 65) (distinct_nested 65) (by decide +kernel)).2
      (by decide +kernel)

/-- A stray leap second is written, and what is written is refused. -/
theorem read_toBytes_strayLeapSecond :
    strayLeapSecond.Ordered ∧ strayLeapSecond.Distinct ∧ strayLeapSecond.Fits ∧
    strayLeapSecond.depth ≤ maxDepth ∧
    ∃ bytes, strayLeapSecond.toBytes = .ok bytes ∧
      ∀ rest, (read 0).run (bytes ++ rest) = (.error .outOfRange, rest) := by
  have hl : strayLeapSecond.layout.length < lengthLimit + 5 := by decide +kernel
  refine ⟨trivial, trivial, by decide +kernel, by decide, strayLeapSecond.layout, ?_, ?_⟩
  · exact (isWritten strayLeapSecond (by decide) hl :
      Appends .root (strayLeapSecond.write 0) 1 strayLeapSecond.layout).bytesOf
  · have hread : Yields (read 0) strayLeapSecond.layout strayLeapSecond.reread :=
      isReread strayLeapSecond (by decide) hl
    rwa [reread, if_neg (by decide)] at hread

end Literal

end Interchange
