import Interchange.Proofs.Tlv.Parsing
import Interchange.Proofs.Tlv.RoundTrip
import Mathlib.Data.List.Flatten

/-!
# What is accepted is written again

A reader takes liberties that a writer does not.  It passes over entries it does not know, takes the
last of repeated ones, puts names in order, drops repeated members, leaves what follows an item
inside a variant unread, and adds up the parts of a span.  Still, what it returns nests no deeper
than the levels it had, is ordered, repeats no member, and has a layout no longer than the bytes it
was read from.  So it is written again, in as many bytes at most, and read back as the same.
-/

namespace Interchange

open Tlv Tlv.Writer Tlv.Reader

section

variable {α : Type}

/-- The bytes of an entry that may be missing. -/
def entryOf (name : String) (g : α → List UInt8) : Option α → List UInt8
  | none => []
  | some a => variantItem name (g a)

@[simp] theorem entryOf_some (name : String) (g : α → List UInt8) (a : α) :
    entryOf name g (some a) = variantItem name (g a) := rfl

end

/-! ## Descriptors -/

namespace Descriptor

theorem required_eq_ok {α : Type} {name : String} {o : Option α} {a : α} :
    required name o = .ok a ↔ o = some a := by
  cases o <;> simp [required]

/-! ### Blob types -/

/-- The bytes of the entries that were found. -/
def BlobEntries.bytes (found : BlobEntries) : List UInt8 :=
  entryOf "uri" strItem found.uri ++ (entryOf "format" strItem found.format ++
    entryOf "dimensionality" (fun extent ↦ strItem extent.name) found.extent)

theorem BlobEntries.length_add {found found' : BlobEntries} {name : String} {item : List UInt8}
    (h : found.add name item = .ok found') :
    found'.bytes.length ≤ found.bytes.length + (variantItem name item).length := by
  unfold BlobEntries.add at h
  split at h
  · obtain ⟨uri, huri, h⟩ := bind_eq_ok.mp h
    cases h
    have := length_le_of_str huri
    simp only [bytes, entryOf_some, List.length_append, length_variantItem]
    omega
  · obtain ⟨format, hformat, h⟩ := bind_eq_ok.mp h
    cases h
    have := length_le_of_str hformat
    simp only [bytes, entryOf_some, List.length_append, length_variantItem]
    omega
  · obtain ⟨word, hword, h⟩ := bind_eq_ok.mp h
    split at h
    · cases h
    · next hextent =>
      cases h
      have := length_le_of_str hword
      simp only [bytes, entryOf_some, List.length_append, length_variantItem,
        Extent.name_of_ofName? hextent]
      omega
  · obtain ⟨_, -, h⟩ := bind_eq_ok.mp h
    cases h
    omega

theorem length_le_of_readBlobType {body : List UInt8} {uri : Option String} {type : BlobType}
    (h : readBlobType body = .ok (uri, type)) :
    (entryOf "uri" strItem uri ++ blobEntryBytes type).length ≤ body.length := by
  obtain ⟨found, hfound, h⟩ := bind_eq_ok.mp h
  have hlen : found.bytes.length ≤ body.length := by
    refine foldEntries_induction (P := fun n found ↦ found.bytes.length ≤ n) hfound (by decide) ?_
    intro n found name item found' hn hadd
    have := BlobEntries.length_add hadd
    omega
  obtain ⟨format, hformat, h⟩ := bind_eq_ok.mp h
  obtain ⟨extent, hextent, h⟩ := bind_eq_ok.mp h
  cases h
  rwa [BlobEntries.bytes, required_eq_ok.mp hformat, required_eq_ok.mp hextent] at hlen

/-! ### Descriptors within bounds -/

/-- A descriptor as a reader of so many levels may make it. -/
structure Tidy (levels : Nat) (d : Descriptor) : Prop where
  depth : d.depth < levels
  distinct : d.Distinct

/-- That what is read is tidy, and laid out no longer than what it is read from. -/
def Bounded (levels : Nat) (read : List UInt8 → Except Tlv.Fault Descriptor) : Prop :=
  ∀ {item d}, read item = .ok d → d.Tidy levels ∧ d.layout.length ≤ item.length

variable {levels : Nat} {read : List UInt8 → Except Tlv.Fault Descriptor} {d : Descriptor}
  {item : List UInt8}

theorem Tidy.of_parts (hparts : ∀ part ∈ d.parts, part.Tidy levels)
    (hnodup : ∀ members tagField, d = union members tagField → members.Nodup) :
    d.Tidy (levels + 1) where
  depth := Nat.lt_succ_of_le (depth_le_iff.mpr fun part hp ↦ (hparts part hp).depth)
  distinct := distinct_iff.mpr ⟨hnodup, fun part hp ↦ (hparts part hp).distinct⟩

theorem length_layout_le (h : d.payload.length ≤ item.length) :
    d.layout.length ≤ (variantItem d.shape item).length := by
  rw [layout, length_variantItem, length_variantItem]
  omega

/-! ### Unions -/

/-- The bytes of the entries that were found. -/
def UnionEntries.bytes (found : UnionEntries) : List UInt8 :=
  entryOf "members" (fun members ↦ sized .list (memberBytes members)) found.members ++
    entryOf "tag_field" strItem found.tagField

/-- Whether the members that were found are tidy, and the entries no longer than they may be. -/
structure UnionEntries.Bounded (levels size : Nat) (found : UnionEntries) : Prop where
  members : ∀ members, found.members = some members → ∀ d ∈ members, d.Tidy levels
  length : found.bytes.length ≤ size

theorem UnionEntries.Bounded.add {size : Nat} {found found' : UnionEntries} {name : String}
    (hread : Descriptor.Bounded levels read) (h : found.Bounded levels size)
    (hadd : found.add read name item = .ok found') :
    found'.Bounded levels (size + (variantItem name item).length) := by
  have hlen := h.length
  simp only [bytes, List.length_append] at hlen
  unfold UnionEntries.add at hadd
  split at hadd
  · obtain ⟨body, hbody, hadd⟩ := bind_eq_ok.mp hadd
    obtain ⟨members, hmembers, hadd⟩ := bind_eq_ok.mp hadd
    cases hadd
    obtain ⟨hall, hlayout⟩ := of_foldItems_collect hread hmembers
    rw [← memberBytes_eq_flatMap] at hlayout
    have hsize := length_sized_le_of_list hbody hlayout
    refine ⟨?_, ?_⟩
    · rintro _ ⟨⟩
      exact hall
    · simp only [bytes, entryOf_some, List.length_append, length_variantItem]
      omega
  · obtain ⟨tagField, htag, hadd⟩ := bind_eq_ok.mp hadd
    cases hadd
    have hsize := length_le_of_str htag
    refine ⟨h.members, ?_⟩
    simp only [bytes, entryOf_some, List.length_append, length_variantItem]
    omega
  · obtain ⟨_, -, hadd⟩ := bind_eq_ok.mp hadd
    cases hadd
    exact ⟨h.members, Nat.le_trans h.length (Nat.le_add_right _ _)⟩

theorem length_memberBytes_eraseDups_le (ds : List Descriptor) :
    (memberBytes ds.eraseDups).length ≤ (memberBytes ds).length := by
  rw [memberBytes_eq_flatMap, memberBytes_eq_flatMap]
  exact ((eraseDups_sublist ds).flatMap layout).length_le

theorem bounded_union {body : List UInt8} {found : UnionEntries} (hread : Bounded levels read)
    (hbody : Reader.map.outcome item = .ok body)
    (hfound : foldEntries (UnionEntries.add read) {} body = .ok found) (h : found.union = .ok d) :
    d.Tidy (levels + 1) ∧ d.layout.length ≤ (variantItem "union" item).length := by
  have hbounded : found.Bounded levels body.length :=
    foldEntries_induction (P := fun n found ↦ UnionEntries.Bounded levels n found) hfound
      ⟨by simp, Nat.le_refl 0⟩ fun h hadd ↦ h.add hread hadd
  obtain ⟨members, hmembers, h⟩ := bind_eq_ok.mp h
  obtain ⟨tagField, htag, h⟩ := bind_eq_ok.mp h
  cases h
  have hlen := hbounded.length
  have hall := hbounded.members members (required_eq_ok.mp hmembers)
  have herase := length_memberBytes_eraseDups_le members
  rw [UnionEntries.bytes, required_eq_ok.mp hmembers, required_eq_ok.mp htag] at hlen
  refine ⟨.of_parts ?_ ?_, length_layout_le (length_sized_le_of_map hbody ?_)⟩
  · exact fun d hd ↦ hall d (List.mem_eraseDups.mp hd)
  · rintro _ _ ⟨⟩
    exact nodup_eraseDups members
  · simp only [entryOf_some, length_sized, List.length_append, length_variantItem] at hlen ⊢
    omega

/-! ### Records -/

/-- Reads a field, which is a descriptor inside a variant with its name. -/
def readField (read : List UInt8 → Except Tlv.Fault Descriptor) (item : List UInt8) :
    Except Tlv.Fault (String × Descriptor) := do
  let (name, item) ← Reader.variant.outcome item
  return (name, ← read item)

theorem bounded_field {f : String × Descriptor} (hread : Bounded levels read)
    (h : readField read item = .ok f) :
    f.2.Tidy levels ∧ (variantItem f.1 f.2.layout).length ≤ item.length := by
  obtain ⟨⟨name, inner⟩, hvariant, h⟩ := bind_eq_ok.mp h
  obtain ⟨d, hd, h⟩ := bind_eq_ok.mp h
  cases h
  obtain ⟨ht, hlen⟩ := hread hd
  have hsize := length_le_of_variant hvariant
  refine ⟨ht, ?_⟩
  simp only [length_variantItem] at hsize ⊢
  omega

theorem bounded_record {body : List UInt8} {fields : List (String × Descriptor)}
    (hread : Bounded levels read) (hbody : Reader.list.outcome item = .ok body)
    (h : foldItems (fun fields item ↦ do
      let (name, item) ← Reader.variant.outcome item
      .ok (fields ++ [(name, ← read item)])) [] body = .ok fields) :
    (record fields).Tidy (levels + 1) ∧
      (record fields).layout.length ≤ (variantItem "record" item).length := by
  have hfields : foldItems (fun fields item ↦ do .ok (fields ++ [← readField read item])) [] body =
      .ok fields := by
    simpa only [readField, bind_assoc, pure_eq_ok, ok_bind] using h
  obtain ⟨hall, hlayout⟩ := of_foldItems_collect
    (g := fun f : String × Descriptor ↦ variantItem f.1 f.2.layout) (bounded_field hread) hfields
  rw [← fieldBytes_eq_flatMap] at hlayout
  refine ⟨.of_parts ?_ (by simp), length_layout_le (length_sized_le_of_list hbody hlayout)⟩
  intro part hp
  obtain ⟨f, hf, rfl⟩ := List.mem_map.mp hp
  exact hall f hf

/-! ### All shapes -/

theorem Bounded.of_run {read : Reader Descriptor}
    (h : ∀ {bs rest d}, read.run bs = (.ok d, rest) →
      ∃ item, bs = item ++ rest ∧ item.length < lengthLimit + 5 ∧
        d.Tidy levels ∧ d.layout.length ≤ item.length) : Bounded levels read.outcome := by
  intro item d hd
  obtain ⟨rest, hrun⟩ := Attempt.outcome_eq_ok.mp hd
  obtain ⟨taken, rfl, -, ht, hlen⟩ := h hrun
  exact ⟨ht, Nat.le_trans hlen (by simp)⟩

/-- What is read is tidy, and laid out no longer than the bytes that were taken. -/
theorem tidy_of_readLevels {bs rest : List UInt8}
    (h : (readLevels levels).run bs = (.ok d, rest)) :
    ∃ item, bs = item ++ rest ∧ item.length < lengthLimit + 5 ∧
      d.Tidy levels ∧ d.layout.length ≤ item.length := by
  induction levels generalizing d bs rest with
  | zero => cases h
  | succ levels ih =>
    have hread : Bounded levels (readLevels levels).outcome := Bounded.of_run ih
    obtain ⟨⟨shape, item⟩, s, hvariant, hrest⟩ := Attempt.run_bind_eq_ok.mp h
    obtain ⟨hlt, rfl⟩ := run_variant_eq_ok.mp hvariant
    obtain ⟨hshape, rfl⟩ := Prod.mk.inj hrest
    refine ⟨_, rfl, hlt, ?_⟩
    split at hshape
    · obtain ⟨name, hname, hkind⟩ := bind_eq_ok.mp hshape
      split at hkind
      · cases hkind
      · next k hk =>
        cases hkind
        have hlen := length_le_of_str hname
        rw [← Kind.name_of_ofName? hk] at hlen
        exact ⟨.of_parts (by simp [parts]) (by simp), length_layout_le hlen⟩
    · obtain ⟨part, hpart, rfl⟩ := map_eq_ok.mp hshape
      obtain ⟨ht, hlen⟩ := hread hpart
      exact ⟨.of_parts (by simpa [parts] using ht) (by simp), length_layout_le hlen⟩
    · obtain ⟨part, hpart, rfl⟩ := map_eq_ok.mp hshape
      obtain ⟨ht, hlen⟩ := hread hpart
      exact ⟨.of_parts (by simpa [parts] using ht) (by simp), length_layout_le hlen⟩
    · obtain ⟨body, hbody, hentries⟩ := bind_eq_ok.mp hshape
      obtain ⟨found, hfound, hunion⟩ := bind_eq_ok.mp hentries
      exact bounded_union hread hbody hfound hunion
    · obtain ⟨body, hbody, hentries⟩ := bind_eq_ok.mp hshape
      obtain ⟨⟨uri, type⟩, htype, hblob⟩ := bind_eq_ok.mp hentries
      cases hblob
      have hlen := length_le_of_readBlobType htype
      rw [List.length_append] at hlen
      exact ⟨.of_parts (by simp [parts]) (by simp),
        length_layout_le (length_sized_le_of_map hbody (Nat.le_of_add_left_le hlen))⟩
    · obtain ⟨body, hbody, hrest⟩ := bind_eq_ok.mp hshape
      obtain ⟨fields, hfields, hrecord⟩ := bind_eq_ok.mp hrest
      cases hrecord
      exact bounded_record hread hbody hfields
    · cases hshape

/-- What is read from bytes that hold nothing else is written as its layout, which is no longer than
these bytes and read back as the same. -/
theorem layout_of_ofBytes {bytes : List UInt8} (h : ofBytes bytes = .ok d) :
    d.toBytes = .ok d.layout ∧ d.layout.length ≤ bytes.length ∧ ofBytes d.layout = .ok d := by
  obtain ⟨item, rfl, hlt, ht, hlen⟩ := tidy_of_readLevels (whole_eq_ok.mp h)
  have hfits : d.layout.length < lengthLimit + 5 := Nat.lt_of_le_of_lt hlen hlt
  have hread : Reads (read 0) d.layout d.norm := readLevels_layout ht.depth hfits
  rw [norm_of_distinct ht.distinct] at hread
  refine ⟨toBytes_of_depth_le (Nat.le_of_lt_succ ht.depth) hfits, by simpa using hlen, ?_⟩
  exact whole_eq_ok.mpr (by simpa using hread [])

end Descriptor

/-! ## Literals -/

namespace Literal

/-! ### Times and spans -/

section

variable {α : Type} {readNanos : Reader α} {g : α → List UInt8}

/-- The bytes of the entries that were found, given those of the nanoseconds. -/
def TimeEntries.bytes (g : α → List UInt8) (found : TimeEntries α) : List UInt8 :=
  entryOf "seconds" s64Item found.seconds ++ entryOf "nanos" g found.nanos

theorem TimeEntries.length_add {found found' : TimeEntries α} {name : String} {item : List UInt8}
    (hnanos : ∀ {item n}, readNanos.outcome item = .ok n → (g n).length ≤ item.length)
    (h : found.add readNanos name item = .ok found') :
    (found'.bytes g).length ≤ (found.bytes g).length + (variantItem name item).length := by
  unfold TimeEntries.add at h
  split at h
  · obtain ⟨seconds, hseconds, h⟩ := bind_eq_ok.mp h
    cases h
    have := length_le_of_s64 hseconds
    simp only [bytes, entryOf_some, List.length_append, length_variantItem]
    omega
  · obtain ⟨nanos, hn, h⟩ := bind_eq_ok.mp h
    cases h
    have := hnanos hn
    simp only [bytes, entryOf_some, List.length_append, length_variantItem]
    omega
  · obtain ⟨_, -, h⟩ := bind_eq_ok.mp h
    cases h
    omega

theorem length_le_of_readTime {body : List UInt8} {seconds : Int64} {nanos : α}
    (hnanos : ∀ {item n}, readNanos.outcome item = .ok n → (g n).length ≤ item.length)
    (h : readTime readNanos body = .ok (seconds, nanos)) :
    (variantItem "seconds" (s64Item seconds) ++ variantItem "nanos" (g nanos)).length ≤
      body.length := by
  obtain ⟨found, hfound, h⟩ := bind_eq_ok.mp h
  have hlen : (found.bytes g).length ≤ body.length := by
    refine foldEntries_induction (P := fun n found ↦ (TimeEntries.bytes g found).length ≤ n) hfound
      (Nat.le_refl 0) ?_
    intro n found name item found' hn hadd
    have := TimeEntries.length_add hnanos hadd
    omega
  obtain ⟨s, hs, h⟩ := bind_eq_ok.mp h
  obtain ⟨n, hn, h⟩ := bind_eq_ok.mp h
  cases h
  rwa [TimeEntries.bytes, Descriptor.required_eq_ok.mp hs, Descriptor.required_eq_ok.mp hn] at hlen

end

/-- Plain data is of the kind that it is read as, and no longer than what it is read from.  The
bytes of the parts of a time or a span may differ from those read, but are as many. -/
theorem kind_of_readScalar {item : List UInt8} {kind : Kind} {s : Scalar}
    (h : readScalar item kind = .ok s) : s.kind = kind ∧ (scalarBytes s).length ≤ item.length := by
  cases kind with
  | none =>
    obtain ⟨_, hunit, h⟩ := bind_eq_ok.mp h
    cases h
    exact ⟨rfl, length_le_of_unit hunit⟩
  | integer =>
    obtain ⟨v, hv, rfl⟩ := map_eq_ok.mp h
    exact ⟨rfl, length_le_of_s64 hv⟩
  | float =>
    obtain ⟨v, hv, rfl⟩ := map_eq_ok.mp h
    exact ⟨rfl, length_le_of_f64 hv⟩
  | string =>
    obtain ⟨v, hv, rfl⟩ := map_eq_ok.mp h
    exact ⟨rfl, length_le_of_str hv⟩
  | boolean =>
    obtain ⟨v, hv, rfl⟩ := map_eq_ok.mp h
    exact ⟨rfl, length_le_of_bool hv⟩
  | datetime =>
    obtain ⟨body, hbody, h⟩ := bind_eq_ok.mp h
    obtain ⟨⟨seconds, nanos⟩, htime, h⟩ := bind_eq_ok.mp h
    obtain ⟨t, -, rfl⟩ := map_eq_ok.mp h
    have hlen := length_le_of_readTime length_le_of_u32 htime
    refine ⟨rfl, length_sized_le_of_map hbody ?_⟩
    simp only [List.length_append, length_variantItem, length_s64Item, List.length_cons,
      length_littleEndian] at hlen ⊢
    omega
  | duration =>
    obtain ⟨body, hbody, h⟩ := bind_eq_ok.mp h
    obtain ⟨⟨seconds, nanos⟩, htime, h⟩ := bind_eq_ok.mp h
    obtain ⟨t, -, rfl⟩ := map_eq_ok.mp h
    have hlen := length_le_of_readTime length_le_of_s64 htime
    refine ⟨rfl, length_sized_le_of_map hbody ?_⟩
    simp only [List.length_append, length_variantItem, length_s64Item] at hlen ⊢
    omega
  | binary =>
    obtain ⟨v, hv, rfl⟩ := map_eq_ok.mp h
    exact ⟨rfl, length_le_of_bytes hv⟩

theorem inRange_eq_ok {α : Type} {x : Option α} {a : α} (h : inRange x = .ok a) : x = some a := by
  cases x with
  | none => cases h
  | some b =>
    cases h
    rfl

/-- No irregular timestamp is read. -/
theorem regular_of_readScalar {item : List UInt8} {kind : Kind} {s : Scalar}
    (h : readScalar item kind = .ok s) : s.Regular := by
  cases s with
  | datetime t =>
    obtain ⟨rfl, -⟩ := kind_of_readScalar h
    obtain ⟨body, -, h⟩ := bind_eq_ok.mp h
    obtain ⟨⟨seconds, nanos⟩, -, h⟩ := bind_eq_ok.mp h
    obtain ⟨t', ht, heq⟩ := map_eq_ok.mp h
    cases heq
    exact Timestamp.regular_of_ofParts? (inRange_eq_ok ht)
  | _ => exact trivial

/-! ### Literals within bounds -/

/-- A literal as a reader of so many levels may make it. -/
structure Tidy (levels : Nat) (l : Literal) : Prop where
  depth : l.depth < levels
  ordered : l.Ordered
  distinct : l.Distinct
  regular : l.Regular

/-- That what is read is tidy, and laid out no longer than what it is read from. -/
def Bounded (levels : Nat) (read : List UInt8 → Except Tlv.Fault Literal) : Prop :=
  ∀ {item l}, read item = .ok l → l.Tidy levels ∧ l.layout.length ≤ item.length

variable {levels : Nat} {read : List UInt8 → Except Tlv.Fault Literal} {l : Literal}
  {item : List UInt8}

theorem length_layout_le (h : l.payload.length ≤ item.length) :
    l.layout.length ≤ (variantItem l.shape item).length := by
  rw [layout, length_variantItem, length_variantItem]
  omega

theorem Tidy.collection {items : List Literal} (h : ∀ l ∈ items, l.Tidy levels) :
    (collection items).Tidy (levels + 1) where
  depth := Nat.lt_succ_of_le (itemsDepth_le_iff.mpr fun l hl ↦ (h l hl).depth)
  ordered := orderedItems_iff.mpr fun l hl ↦ (h l hl).ordered
  distinct := distinctItems_iff.mpr fun l hl ↦ (h l hl).distinct
  regular := regular_collection.mpr fun l hl ↦ (h l hl).regular

section

variable {entries : Entries Literal} (ho : Entries.Ordered entries)
  (h : ∀ e ∈ entries, e.2.Tidy levels)

include ho h

theorem Tidy.mapping : (mapping entries).Tidy (levels + 1) where
  depth := Nat.lt_succ_of_le (entriesDepth_le_iff.mpr fun e he ↦ (h e he).depth)
  ordered := ⟨ho, orderedEntries_iff.mpr fun e he ↦ (h e he).ordered⟩
  distinct := distinctEntries_iff.mpr fun e he ↦ (h e he).distinct
  regular := regular_mapping.mpr fun e he ↦ (h e he).regular

theorem Tidy.record : (record entries).Tidy (levels + 1) where
  depth := Nat.lt_succ_of_le (entriesDepth_le_iff.mpr fun e he ↦ (h e he).depth)
  ordered := ⟨ho, orderedEntries_iff.mpr fun e he ↦ (h e he).ordered⟩
  distinct := distinctEntries_iff.mpr fun e he ↦ (h e he).distinct
  regular := regular_record.mpr fun e he ↦ (h e he).regular

end

theorem Tidy.union {type : Descriptor} (ht : type.Tidy levels) (hl : l.Tidy levels) :
    (union type l).Tidy (levels + 1) where
  depth := Nat.succ_lt_succ (Nat.max_lt.mpr ⟨ht.depth, hl.depth⟩)
  ordered := hl.ordered
  distinct := ⟨ht.distinct, hl.distinct⟩
  regular := hl.regular

/-! ### Entries -/

/-- An item that is put takes up its own bytes, less those of one it is put instead of. -/
theorem length_entryBytes_insert_le (name : String) (l : Literal) (es : Entries Literal) :
    (entryBytes (Entries.insert name l es)).length ≤
      (entryBytes es).length + (variantItem name l.layout).length := by
  induction es with
  | nil => simp [entryBytes, layout]
  | cons e es ih =>
    unfold Entries.insert
    split
    · simp only [entryBytes, layout, List.length_append]
      omega
    · split <;> simp only [entryBytes, layout, List.length_append] at ih ⊢ <;> omega

/-- Whether entries are in order and tidy, and no longer than they may be. -/
structure EntriesBounded (levels size : Nat) (es : Entries Literal) : Prop where
  ordered : Entries.Ordered es
  tidy : ∀ e ∈ es, e.2.Tidy levels
  length : (entryBytes es).length ≤ size

theorem EntriesBounded.insert {size : Nat} {es : Entries Literal} {name : String}
    (h : EntriesBounded levels size es) (hl : l.Tidy levels ∧ l.layout.length ≤ item.length) :
    EntriesBounded levels (size + (variantItem name item).length) (Entries.insert name l es) where
  ordered := h.ordered.insert name l
  tidy e he := (Entries.mem_insert he).elim (fun heq ↦ heq ▸ hl.1) (h.tidy e)
  length := by
    have hinsert := length_entryBytes_insert_le name l es
    have hlen := h.length
    have hl := hl.2
    rw [length_variantItem] at hinsert ⊢
    omega

theorem entriesBounded_of_fold {es : Entries Literal} {body : List UInt8}
    (hread : Bounded levels read)
    (h : foldEntries (fun es name item ↦ do .ok (Entries.insert name (← read item) es)) [] body =
      .ok es) : EntriesBounded levels body.length es := by
  refine foldEntries_induction (P := EntriesBounded levels) h
    ⟨Entries.ordered_nil, by simp, Nat.le_refl 0⟩ ?_
  intro n es name item es' hes hstep
  obtain ⟨l, hl, hstep⟩ := bind_eq_ok.mp hstep
  cases hstep
  exact hes.insert (hread hl)

/-! ### Unions -/

/-- The bytes of the entries that were found. -/
def UnionEntries.bytes (found : UnionEntries) : List UInt8 :=
  entryOf "type" Descriptor.layout found.type ++ entryOf "value" layout found.value

/-- Whether the parts that were found are tidy, and the entries no longer than they may be. -/
structure UnionEntries.Bounded (levels size : Nat) (found : UnionEntries) : Prop where
  type : ∀ type, found.type = some type → type.Tidy levels
  value : ∀ value, found.value = some value → value.Tidy levels
  length : found.bytes.length ≤ size

theorem UnionEntries.Bounded.add {readType : List UInt8 → Except Tlv.Fault Descriptor} {size : Nat}
    {found found' : UnionEntries} {name : String} (htype : Descriptor.Bounded levels readType)
    (hread : Literal.Bounded levels read) (h : found.Bounded levels size)
    (hadd : found.add readType read name item = .ok found') :
    found'.Bounded levels (size + (variantItem name item).length) := by
  have hlen := h.length
  simp only [bytes, List.length_append] at hlen
  unfold UnionEntries.add at hadd
  split at hadd
  · obtain ⟨type, hread, hadd⟩ := bind_eq_ok.mp hadd
    cases hadd
    obtain ⟨ht, hsize⟩ := htype hread
    refine ⟨?_, h.value, ?_⟩
    · rintro _ ⟨⟩
      exact ht
    · simp only [bytes, entryOf_some, List.length_append, length_variantItem]
      omega
  · obtain ⟨value, hvalue, hadd⟩ := bind_eq_ok.mp hadd
    cases hadd
    obtain ⟨ht, hsize⟩ := hread hvalue
    refine ⟨h.type, ?_, ?_⟩
    · rintro _ ⟨⟩
      exact ht
    · simp only [bytes, entryOf_some, List.length_append, length_variantItem]
      omega
  · obtain ⟨_, -, hadd⟩ := bind_eq_ok.mp hadd
    cases hadd
    exact ⟨h.type, h.value, Nat.le_trans h.length (Nat.le_add_right _ _)⟩

theorem bounded_union {readType : List UInt8 → Except Tlv.Fault Descriptor} {body : List UInt8}
    {found : UnionEntries} (htype : Descriptor.Bounded levels readType)
    (hread : Bounded levels read) (hbody : Reader.map.outcome item = .ok body)
    (hfound : foldEntries (UnionEntries.add readType read) {} body = .ok found)
    (h : found.union = .ok l) :
    l.Tidy (levels + 1) ∧ l.layout.length ≤ (variantItem "union" item).length := by
  have hbounded : found.Bounded levels body.length :=
    foldEntries_induction (P := fun n found ↦ UnionEntries.Bounded levels n found) hfound
      ⟨by simp, by simp, Nat.le_refl 0⟩ fun h hadd ↦ h.add htype hread hadd
  obtain ⟨type, ht, h⟩ := bind_eq_ok.mp h
  obtain ⟨value, hv, h⟩ := bind_eq_ok.mp h
  cases h
  have ht := Descriptor.required_eq_ok.mp ht
  have hv := Descriptor.required_eq_ok.mp hv
  have hlen := hbounded.length
  rw [UnionEntries.bytes, ht, hv] at hlen
  exact ⟨.union (hbounded.type type ht) (hbounded.value value hv),
    length_layout_le (length_sized_le_of_map hbody hlen)⟩

/-! ### All shapes -/

theorem Bounded.of_run {read : Reader Literal}
    (h : ∀ {bs rest l}, read.run bs = (.ok l, rest) →
      ∃ item, bs = item ++ rest ∧ item.length < lengthLimit + 5 ∧
        l.Tidy levels ∧ l.layout.length ≤ item.length) : Bounded levels read.outcome := by
  intro item l hl
  obtain ⟨rest, hrun⟩ := Attempt.outcome_eq_ok.mp hl
  obtain ⟨taken, rfl, -, ht, hlen⟩ := h hrun
  exact ⟨ht, Nat.le_trans hlen (by simp)⟩

/-- What is read is tidy, and laid out no longer than the bytes that were taken. -/
theorem tidy_of_readLevels {bs rest : List UInt8}
    (h : (readLevels levels).run bs = (.ok l, rest)) :
    ∃ item, bs = item ++ rest ∧ item.length < lengthLimit + 5 ∧
      l.Tidy levels ∧ l.layout.length ≤ item.length := by
  induction levels generalizing l bs rest with
  | zero => cases h
  | succ levels ih =>
    have hread : Bounded levels (readLevels levels).outcome := Bounded.of_run ih
    have htype : Descriptor.Bounded levels (Descriptor.readLevels levels).outcome :=
      Descriptor.Bounded.of_run Descriptor.tidy_of_readLevels
    obtain ⟨⟨shape, item⟩, s, hvariant, hrest⟩ := Attempt.run_bind_eq_ok.mp h
    obtain ⟨hlt, rfl⟩ := run_variant_eq_ok.mp hvariant
    obtain ⟨hshape, rfl⟩ := Prod.mk.inj hrest
    refine ⟨_, rfl, hlt, ?_⟩
    split at hshape
    · obtain ⟨body, hbody, hentries⟩ := bind_eq_ok.mp hshape
      obtain ⟨⟨uri, type⟩, hblob, hentries⟩ := bind_eq_ok.mp hentries
      obtain ⟨u, huri, hentries⟩ := bind_eq_ok.mp hentries
      cases hentries
      have hlen := Descriptor.length_le_of_readBlobType hblob
      rw [Descriptor.required_eq_ok.mp huri, entryOf_some] at hlen
      exact ⟨⟨Nat.succ_pos levels, trivial, trivial, regular_blob _⟩,
        length_layout_le (length_sized_le_of_map hbody hlen)⟩
    · obtain ⟨body, hbody, hitems⟩ := bind_eq_ok.mp hshape
      obtain ⟨items, hfold, rfl⟩ := map_eq_ok.mp hitems
      obtain ⟨hall, hlen⟩ := of_foldItems_collect hread hfold
      rw [← itemBytes_eq_flatMap] at hlen
      exact ⟨.collection hall, length_layout_le (length_sized_le_of_list hbody hlen)⟩
    · obtain ⟨entries, hentries, rfl⟩ := map_eq_ok.mp hshape
      obtain ⟨body, hbody, hfold⟩ := bind_eq_ok.mp hentries
      have hbounded := entriesBounded_of_fold hread hfold
      exact ⟨.mapping hbounded.ordered hbounded.tidy,
        length_layout_le (length_sized_le_of_map hbody hbounded.length)⟩
    · obtain ⟨entries, hentries, rfl⟩ := map_eq_ok.mp hshape
      obtain ⟨body, hbody, hfold⟩ := bind_eq_ok.mp hentries
      have hbounded := entriesBounded_of_fold hread hfold
      exact ⟨.record hbounded.ordered hbounded.tidy,
        length_layout_le (length_sized_le_of_map hbody hbounded.length)⟩
    · obtain ⟨body, hbody, hentries⟩ := bind_eq_ok.mp hshape
      obtain ⟨found, hfound, hunion⟩ := bind_eq_ok.mp hentries
      exact bounded_union htype hread hbody hfound hunion
    · split at hshape
      · cases hshape
      · next kind hkind =>
        obtain ⟨s, hs, rfl⟩ := map_eq_ok.mp hshape
        obtain ⟨rfl, hlen⟩ := kind_of_readScalar hs
        rw [← Kind.name_of_ofName? hkind]
        have hregular := regular_scalar.mpr (regular_of_readScalar hs)
        exact ⟨⟨Nat.succ_pos levels, trivial, trivial, hregular⟩, length_layout_le hlen⟩

/-- What is read from bytes that hold nothing else is written as its layout, which is no longer than
these bytes and read back as the same. -/
theorem layout_of_ofBytes {bytes : List UInt8} (h : ofBytes bytes = .ok l) :
    l.toBytes = .ok l.layout ∧ l.layout.length ≤ bytes.length ∧ ofBytes l.layout = .ok l := by
  obtain ⟨item, rfl, hlt, ht, hlen⟩ := tidy_of_readLevels (whole_eq_ok.mp h)
  have hfits : l.layout.length < lengthLimit + 5 := Nat.lt_of_le_of_lt hlen hlt
  have hread : Reads (read 0) l.layout l :=
    isReadBack l ht.depth ht.ordered ht.distinct ht.regular hfits
  refine ⟨toBytes_of_depth_le (Nat.le_of_lt_succ ht.depth) hfits, by simpa using hlen, ?_⟩
  exact whole_eq_ok.mpr (by simpa using hread [])

end Literal

/-! ## Both -/

/-- Everything that reading accepts is written again, in as many bytes at most, and these are read
as the same. -/
theorem toBytes_of_ofBytes :
    (∀ {bytes : List UInt8} {l : Literal}, Literal.ofBytes bytes = .ok l →
      ∃ bytes', l.toBytes = .ok bytes' ∧ bytes'.length ≤ bytes.length ∧
        Literal.ofBytes bytes' = .ok l) ∧
    ∀ {bytes : List UInt8} {d : Descriptor}, Descriptor.ofBytes bytes = .ok d →
      ∃ bytes', d.toBytes = .ok bytes' ∧ bytes'.length ≤ bytes.length ∧
        Descriptor.ofBytes bytes' = .ok d :=
  ⟨fun h ↦ ⟨_, Literal.layout_of_ofBytes h⟩, fun h ↦ ⟨_, Descriptor.layout_of_ofBytes h⟩⟩

/-- A union with its entries the other way round, an unknown entry, a repeated member, and a byte
after the last item. -/
def Descriptor.unkempt : List UInt8 :=
  variantItem "union" <| sized .map (
    variantItem "tag_field" (strItem "tag") ++
    variantItem "note" [Tag.unit.byte] ++
    variantItem "members" (sized .list (
      variantItem "primitive" (strItem "integer") ++ variantItem "primitive" (strItem "none") ++
        variantItem "primitive" (strItem "integer")))) ++ [0xFF]

/-- A record with a tagged value of that union, a leap second whose seconds stand there twice, and a
span in place of an integer of the same name, its parts out of order and of different signs. -/
def Literal.unkempt : List UInt8 :=
  variantItem "record" <| sized .map <|
    variantItem "gap" (variantItem "integer" (s64Item 1)) ++
    variantItem "choice" (variantItem "union" (sized .map (
      variantItem "value" (variantItem "integer" (s64Item 7)) ++
      variantItem "type" Descriptor.unkempt)) ++ [0x00, 0xFF]) ++
    variantItem "at" (variantItem "datetime" (sized .map (
      variantItem "seconds" (s64Item 0) ++ variantItem "zone" (strItem "UTC") ++
        variantItem "nanos" (Tag.u32.byte :: littleEndian 4 1500000000) ++
        variantItem "seconds" (s64Item 119)))) ++
    variantItem "gap" (variantItem "duration" (sized .map (
      variantItem "nanos" (s64Item 1999999999) ++ variantItem "seconds" (s64Item (-1)))))

/-- What the bytes of that record are read as. -/
def Literal.kempt : Literal := .record [
  ("at", .scalar (.datetime ⟨119, 1500000000, by decide, by decide⟩)),
  ("choice", .union (.union [.primitive .integer, .primitive .none] "tag") (.scalar (.integer 7))),
  ("gap", .scalar (.duration ⟨999999999, by decide⟩))]

theorem toBytes_of_ofBytes_unkempt :
    (∃ l, Literal.ofBytes Literal.unkempt = .ok l ∧ l.layout = Literal.kempt.layout ∧
      ∃ bytes', l.toBytes = .ok bytes' ∧ bytes'.length ≤ Literal.unkempt.length ∧
        Literal.ofBytes bytes' = .ok l) ∧
    ∃ bytes', (Descriptor.union [.primitive .integer, .primitive .none] "tag").toBytes =
        .ok bytes' ∧
      bytes'.length ≤ Descriptor.unkempt.length ∧
        Descriptor.ofBytes bytes' = .ok (.union [.primitive .integer, .primitive .none] "tag") := by
  have hlayout : Literal.layout <$> Literal.ofBytes Literal.unkempt =
      .ok Literal.kempt.layout := by
    decide +kernel
  have hread : Descriptor.ofBytes Descriptor.unkempt =
      .ok (.union [.primitive .integer, .primitive .none] "tag") := by
    decide +kernel
  obtain ⟨l, hl, hlayout⟩ := map_eq_ok.mp hlayout
  exact ⟨⟨l, hl, hlayout, toBytes_of_ofBytes.1 hl⟩, toBytes_of_ofBytes.2 hread⟩

end Interchange
