import Interchange.Proofs.Tlv.RoundTrip
import Mathlib.Data.List.Flatten
import Mathlib.Data.List.Pairwise
import Mathlib.Data.List.Perm.Basic

/-!
# Entries that are repeated, reordered or unknown

Some descriptors and literals hold a map of named entries.  Their readers go through the entries in
the order in which they come, take in those they know, let a later one take the place of an earlier
one of its name, and pass over the others.  So what is read depends on the last entry of each known
name alone, wherever it stands among the entries, and a writer of another version may add entries
that this one does not know.
-/

namespace Interchange

open Tlv Tlv.Writer Tlv.Reader

/-- A named entry of a map, with the bytes of its item. -/
abbrev Tlv.Entry := String × List UInt8

/-! ## The last entry of each name -/

/-- The item of the last entry of a name. -/
def lastItem? (name : String) : List Entry → Option (List UInt8)
  | [] => none
  | e :: es => (lastItem? name es).or (if e.1 = name then some e.2 else none)

/-- The last entry of each name that is known. -/
def lastKnown (knows : String → Bool) (es : List Entry) : List Entry :=
  (es.filter fun e ↦ knows e.1).pwFilter fun e e' ↦ e.1 ≠ e'.1

section

variable {name : String} {item : List UInt8} {e : Entry} {es es' : List Entry}
  {knows : String → Bool}

theorem lastItem?_eq_none_iff : lastItem? name es = none ↔ ∀ e ∈ es, e.1 ≠ name := by
  induction es with
  | nil => simp [lastItem?]
  | cons e es ih => simp [lastItem?, Option.or_eq_none_iff, ih, and_comm]

theorem mem_of_lastItem? (h : lastItem? name es = some item) : (name, item) ∈ es := by
  induction es with
  | nil => cases h
  | cons e es ih =>
    rcases Option.or_eq_some_iff.mp h with h | ⟨-, h⟩
    · exact List.mem_cons_of_mem e (ih h)
    · split at h
      · next he =>
        cases h
        rw [← he]
        exact List.mem_cons_self
      · cases h

theorem lastItem?_filter (h : knows name = true) (es : List Entry) :
    lastItem? name (es.filter fun e ↦ knows e.1) = lastItem? name es := by
  induction es with
  | nil => rfl
  | cons e es ih =>
    by_cases hknown : knows e.1 = true
    · rw [List.filter_cons_of_pos (by exact hknown), lastItem?, lastItem?, ih]
    · have hne : e.1 ≠ name := fun he ↦ hknown (he ▸ h)
      rw [List.filter_cons_of_neg (by exact hknown), ih, lastItem?, if_neg hne, Option.or_none]

theorem lastItem?_pwFilter (name : String) (es : List Entry) :
    lastItem? name (es.pwFilter fun e e' ↦ e.1 ≠ e'.1) = lastItem? name es := by
  induction es with
  | nil => rfl
  | cons e es ih =>
    by_cases hlast : ∀ e' ∈ es.pwFilter fun e e' ↦ e.1 ≠ e'.1, e.1 ≠ e'.1
    · rw [List.pwFilter_cons_of_pos hlast, lastItem?, lastItem?, ih]
    · rw [List.pwFilter_cons_of_neg hlast, lastItem?, ih]
      push Not at hlast
      obtain ⟨e', he', hname⟩ := hlast
      -- A later entry of the name is there already, so this one is not the last.
      by_cases he : e.1 = name
      · cases hlater : lastItem? name es with
        | some item => rfl
        | none =>
          have hmem := (List.pwFilter_sublist es).subset he'
          exact absurd (hname.symm.trans he) (lastItem?_eq_none_iff.mp hlater e' hmem)
      · rw [if_neg he, Option.or_none]

/-- Among entries of different names, each is the last of its name. -/
theorem lastItem?_of_mem (h : es.Pairwise fun e e' ↦ e.1 ≠ e'.1) (hmem : (name, item) ∈ es) :
    lastItem? name es = some item := by
  induction es with
  | nil => cases hmem
  | cons e es ih =>
    obtain ⟨hne, hnames⟩ := List.pairwise_cons.mp h
    rcases List.mem_cons.mp hmem with rfl | hmem
    · rw [lastItem?, lastItem?_eq_none_iff.mpr fun e' he' ↦ (hne e' he').symm, if_pos rfl]
      rfl
    · rw [lastItem?, ih hnames hmem]
      rfl

/-- The last entries of the known names, in any order, have the same last items. -/
theorem lastItem?_of_perm (hperm : es'.Perm (lastKnown knows es)) (h : knows name = true) :
    lastItem? name es' = lastItem? name es := by
  have hnames : (lastKnown knows es).Pairwise fun e e' ↦ e.1 ≠ e'.1 := List.pairwise_pwFilter _
  have hnames' : es'.Pairwise fun e e' ↦ e.1 ≠ e'.1 :=
    hperm.symm.pairwise hnames fun h ↦ h.symm
  have hlast : lastItem? name (lastKnown knows es) = lastItem? name es := by
    rw [lastKnown, lastItem?_pwFilter, lastItem?_filter h]
  rw [← hlast]
  refine Option.ext fun item ↦ ⟨fun hitem ↦ ?_, fun hitem ↦ ?_⟩
  · exact lastItem?_of_mem hnames (hperm.mem_iff.mp (mem_of_lastItem? hitem))
  · exact lastItem?_of_mem hnames' (hperm.mem_iff.mpr (mem_of_lastItem? hitem))

end

/-! ## Steps that take in entries -/

section

variable {σ : Type} {knows : String → Bool} {accepts : String → List UInt8 → Bool}
  {step : σ → String → List UInt8 → Except Tlv.Fault σ}
  {found : (String → Option (List UInt8)) → σ} {es es' : List Entry} {e : Entry}

/-- What is found in entries that are accepted is told by the last items of the known names: an
entry of such a name takes the place of an earlier one, and any other is passed over. -/
structure Slots (knows : String → Bool) (accepts : String → List UInt8 → Bool)
    (step : σ → String → List UInt8 → Except Tlv.Fault σ)
    (found : (String → Option (List UInt8)) → σ) : Prop where
  take_eq (items : String → Option (List UInt8)) (name : String) (item : List UInt8)
    (known : knows name = true) (accepted : accepts name item) :
    step (found items) name item = .ok (found (Function.update items name (some item)))
  skip_eq (s : σ) (name : String) (item : List UInt8) (unknown : knows name = false)
    (accepted : accepts name item) : step s name item = .ok s
  congr (items items' : String → Option (List UInt8))
    (same : ∀ name, knows name = true → items name = items' name) : found items = found items'

namespace Slots

/-- One entry after another leaves the last items. -/
theorem foldlM_eq (h : Slots knows accepts step found) (hes : ∀ e ∈ es, accepts e.1 e.2)
    (items : String → Option (List UInt8)) :
    es.foldlM (fun s e ↦ step s e.1 e.2) (found items) =
      .ok (found fun name ↦ (lastItem? name es).or (items name)) := by
  induction es generalizing items with
  | nil => rfl
  | cons e es ih =>
    obtain ⟨he, hes⟩ := List.forall_mem_cons.mp hes
    rw [List.foldlM_cons]
    cases hknown : knows e.1 with
    | true =>
      rw [h.take_eq items _ _ hknown he, ok_bind, ih hes]
      refine congrArg (Except.ok ∘ found) (funext fun name ↦ ?_)
      rw [lastItem?, Option.or_assoc]
      by_cases hname : e.1 = name
      · simp [hname]
      · simp [hname, Function.update_of_ne (Ne.symm hname)]
    | false =>
      rw [h.skip_eq _ _ _ hknown he, ok_bind, ih hes]
      refine congrArg Except.ok (h.congr _ _ fun name hname ↦ ?_)
      have hne : e.1 ≠ name := by
        rintro rfl
        cases hknown.symm.trans hname
      rw [lastItem?, if_neg hne, Option.or_none]

/-- Whatever is read from entries that are accepted is read from the last of each known name, in any
order. -/
theorem foldlM_lastKnown (h : Slots knows accepts step found) (hes : ∀ e ∈ es, accepts e.1 e.2)
    (hperm : es'.Perm (lastKnown knows es)) (items : String → Option (List UInt8)) :
    es'.foldlM (fun s e ↦ step s e.1 e.2) (found items) =
      es.foldlM (fun s e ↦ step s e.1 e.2) (found items) := by
  have hes' : ∀ e ∈ es', accepts e.1 e.2 := by
    intro e he
    have hlast := (List.pwFilter_sublist _).subset (hperm.mem_iff.mp he)
    exact hes e (List.mem_of_mem_filter hlast)
  rw [h.foldlM_eq hes', h.foldlM_eq hes]
  refine congrArg Except.ok (h.congr _ _ fun name hname ↦ ?_)
  rw [lastItem?_of_perm hperm hname]

/-- An entry of an unknown name changes nothing, whatever comes before and after it. -/
theorem foldlM_insert (h : Slots knows accepts step found) {before after : List Entry}
    (hunknown : knows e.1 = false) (haccepted : accepts e.1 e.2) (s : σ) :
    (before ++ e :: after).foldlM (fun s e ↦ step s e.1 e.2) s =
      (before ++ after).foldlM (fun s e ↦ step s e.1 e.2) s := by
  simp only [List.foldlM_append, List.foldlM_cons, h.skip_eq _ _ _ hunknown haccepted, ok_bind]

end Slots

end

/-! ## What holds a map of entries -/

/-- What the item of a known entry has to hold. -/
inductive Payload where
  | string
  | integer
  | word
  | extent
  | members
  | descriptor
  | literal

namespace Payload

/-- The extent that an item names. -/
def readExtent (item : List UInt8) : Except Tlv.Fault Extent := do
  let name ← Reader.str.outcome item
  match Extent.ofName? name with
  | none => .error (.unknownVariant name)
  | some found => .ok found

/-- The members of a union that an item lists. -/
def readMembers (depth : Nat) (item : List UInt8) : Except Tlv.Fault (List Descriptor) := do
  let body ← Reader.list.outcome item
  Reader.foldItems (fun ds item ↦ do .ok (ds ++ [← (Descriptor.read depth).outcome item])) [] body

/-- Whether an item can be read by itself at a depth of nesting. -/
def accepts (depth : Nat) (item : List UInt8) : Payload → Bool
  | string => (Reader.str.outcome item).isOk
  | integer => (Reader.s64.outcome item).isOk
  | word => (Reader.u32.outcome item).isOk
  | extent => (readExtent item).isOk
  | members => (readMembers depth item).isOk
  | descriptor => ((Descriptor.read depth).outcome item).isOk
  | literal => ((Literal.read depth).outcome item).isOk

end Payload

/-- The names of the entries that are known, and what each holds. -/
abbrev Known := String → Option Payload

namespace Known

def unionType : Known
  | "members" => some .members
  | "tag_field" => some .string
  | _ => none

def blob : Known
  | "uri" => some .string
  | "format" => some .string
  | "dimensionality" => some .extent
  | _ => none

/-- The entries of a time or a span. -/
def time (nanos : Payload) : Known
  | "seconds" => some .integer
  | "nanos" => some nanos
  | _ => none

def union : Known
  | "type" => some .descriptor
  | "value" => some .literal
  | _ => none

variable (known : Known)

def knows (name : String) : Bool := (known name).isSome

/-- Whether an entry can be read by itself at a depth of nesting.  Of one that is not known this
asks that its item is complete. -/
def accepts (depth : Nat) (name : String) (item : List UInt8) : Bool :=
  match known name with
  | some payload => payload.accepts depth item
  | none => (Reader.skip.outcome item).isOk

end Known

/-- What is a map of named entries in bytes: two shapes of descriptors, and four of literals. -/
inductive Construct where
  | unionType | blobType
  | blob | datetime | duration | union

namespace Construct

/-- What a construct is read as. -/
def Result : Construct → Type
  | unionType | blobType => Descriptor
  | blob | datetime | duration | union => Literal

/-- The name of the variant that holds the map. -/
def shape : Construct → String
  | unionType | union => "union"
  | blobType | blob => "blob"
  | datetime => "datetime"
  | duration => "duration"

/-- The entries that are known. -/
def known : Construct → Known
  | unionType => .unionType
  | blobType | blob => .blob
  | datetime => .time .word
  | duration => .time .integer
  | union => .union

/-- The bytes of a construct with these entries. -/
def bytes (k : Construct) (es : List Entry) : List UInt8 :=
  variantItem k.shape (sized .map (es.flatMap fun e ↦ variantItem e.1 e.2))

/-- Reads a construct that stands at a depth of nesting. -/
def read (depth : Nat) : (k : Construct) → Reader k.Result
  | unionType | blobType => Descriptor.read depth
  | blob | datetime | duration | union => Literal.read depth

end Construct

/-! ## How each construct takes in entries -/

namespace Known

variable {name : String} {item : List UInt8} {depth : Nat} {known : Known}

theorem skip_of_accepts (h : known.accepts depth name item) (hunknown : known.knows name = false) :
    Reader.skip.outcome item = .ok () := by
  have hnone : known name = none := by simpa [knows] using hunknown
  simp only [accepts, hnone] at h
  exact (exists_of_isOk h).elim fun _ h ↦ h

theorem accepts_of_skip (hunknown : known.knows name = false)
    (h : Reader.skip.outcome item = .ok ()) : known.accepts depth name item := by
  have hnone : known name = none := by simpa [knows] using hunknown
  simp only [accepts, hnone, h]
  rfl

/-- The entries of a union descriptor by the last items. -/
def unionTypeFound (depth : Nat) (items : String → Option (List UInt8)) :
    Descriptor.UnionEntries where
  members := (items "members").bind fun item ↦ (Payload.readMembers depth item).toOption
  tagField := (items "tag_field").bind fun item ↦ (Reader.str.outcome item).toOption

theorem slots_unionType (depth : Nat) :
    Slots unionType.knows (unionType.accepts depth)
      (Descriptor.UnionEntries.add (Descriptor.read depth).outcome) (unionTypeFound depth) where
  take_eq items name item known accepted := by
    unfold knows unionType at known
    split at known
    · obtain ⟨ds, hds⟩ := exists_of_isOk (x := Payload.readMembers depth item) accepted
      obtain ⟨body, hbody, hmembers⟩ := bind_eq_ok.mp hds
      simp [Descriptor.UnionEntries.add, unionTypeFound, hbody, hmembers, hds, Except.toOption]
    · obtain ⟨tagField, hfield⟩ := exists_of_isOk (x := Reader.str.outcome item) accepted
      simp [Descriptor.UnionEntries.add, unionTypeFound, hfield, Except.toOption]
    · cases known
  skip_eq s name item unknown accepted := by
    have hskip := skip_of_accepts accepted unknown
    unfold knows unionType at unknown
    split at unknown
    · cases unknown
    · cases unknown
    · simp [Descriptor.UnionEntries.add, hskip]
  congr items items' same := by
    simp only [unionTypeFound, same "members" rfl, same "tag_field" rfl]

/-- The entries of a blob by the last items. -/
def blobFound (items : String → Option (List UInt8)) : Descriptor.BlobEntries where
  uri := (items "uri").bind fun item ↦ (Reader.str.outcome item).toOption
  format := (items "format").bind fun item ↦ (Reader.str.outcome item).toOption
  extent := (items "dimensionality").bind fun item ↦ (Payload.readExtent item).toOption

theorem slots_blob (depth : Nat) :
    Slots blob.knows (blob.accepts depth) Descriptor.BlobEntries.add blobFound where
  take_eq items name item known accepted := by
    unfold knows blob at known
    split at known
    · obtain ⟨uri, huri⟩ := exists_of_isOk (x := Reader.str.outcome item) accepted
      simp [Descriptor.BlobEntries.add, blobFound, huri, Except.toOption]
    · obtain ⟨format, hformat⟩ := exists_of_isOk (x := Reader.str.outcome item) accepted
      simp [Descriptor.BlobEntries.add, blobFound, hformat, Except.toOption]
    · obtain ⟨extent, hextent⟩ := exists_of_isOk (x := Payload.readExtent item) accepted
      obtain ⟨name, hname, hfound⟩ := bind_eq_ok.mp hextent
      cases hof : Extent.ofName? name with
      | none => simp [hof] at hfound
      | some found =>
        obtain rfl : found = extent := by simpa [hof] using hfound
        simp [Descriptor.BlobEntries.add, blobFound, hname, hof, hextent, Except.toOption]
    · cases known
  skip_eq s name item unknown accepted := by
    have hskip := skip_of_accepts accepted unknown
    unfold knows blob at unknown
    split at unknown
    · cases unknown
    · cases unknown
    · cases unknown
    · simp [Descriptor.BlobEntries.add, hskip]
  congr items items' same := by
    simp only [blobFound, same "uri" rfl, same "format" rfl, same "dimensionality" rfl]

/-- The entries of a time or a span by the last items. -/
def timeFound {α : Type} (readNanos : Reader α) (items : String → Option (List UInt8)) :
    Literal.TimeEntries α where
  seconds := (items "seconds").bind fun item ↦ (Reader.s64.outcome item).toOption
  nanos := (items "nanos").bind fun item ↦ (readNanos.outcome item).toOption

theorem slots_time {α : Type} {readNanos : Reader α} {nanos : Payload}
    (h : ∀ item, nanos.accepts depth item = (readNanos.outcome item).isOk) :
    Slots (time nanos).knows ((time nanos).accepts depth) (Literal.TimeEntries.add readNanos)
      (timeFound readNanos) where
  take_eq items name item known accepted := by
    unfold knows time at known
    split at known
    · obtain ⟨seconds, hseconds⟩ := exists_of_isOk (x := Reader.s64.outcome item) accepted
      simp [Literal.TimeEntries.add, timeFound, hseconds, Except.toOption]
    · obtain ⟨n, hn⟩ := exists_of_isOk ((h item).symm.trans accepted)
      simp [Literal.TimeEntries.add, timeFound, hn, Except.toOption]
    · cases known
  skip_eq s name item unknown accepted := by
    have hskip := skip_of_accepts accepted unknown
    unfold knows time at unknown
    split at unknown
    · cases unknown
    · cases unknown
    · simp [Literal.TimeEntries.add, hskip]
  congr items items' same := by
    simp only [timeFound, same "seconds" rfl, same "nanos" rfl]

/-- The entries of a union literal by the last items. -/
def unionFound (depth : Nat) (items : String → Option (List UInt8)) : Literal.UnionEntries where
  type := (items "type").bind fun item ↦ ((Descriptor.read depth).outcome item).toOption
  value := (items "value").bind fun item ↦ ((Literal.read depth).outcome item).toOption

theorem slots_union (depth : Nat) :
    Slots union.knows (union.accepts depth)
      (Literal.UnionEntries.add (Descriptor.read depth).outcome (Literal.read depth).outcome)
      (unionFound depth) where
  take_eq items name item known accepted := by
    unfold knows union at known
    split at known
    · obtain ⟨d, hd⟩ := exists_of_isOk (x := (Descriptor.read depth).outcome item) accepted
      simp [Literal.UnionEntries.add, unionFound, hd, Except.toOption]
    · obtain ⟨l, hl⟩ := exists_of_isOk (x := (Literal.read depth).outcome item) accepted
      simp [Literal.UnionEntries.add, unionFound, hl, Except.toOption]
    · cases known
  skip_eq s name item unknown accepted := by
    have hskip := skip_of_accepts accepted unknown
    unfold knows union at unknown
    split at unknown
    · cases unknown
    · cases unknown
    · simp [Literal.UnionEntries.add, hskip]
  congr items items' same := by
    simp only [unionFound, same "type" rfl, same "value" rfl]

end Known

/-! ## Reading a construct -/

section

variable {α : Type} {r : Reader α} {bs bs' : List UInt8}

/-- A reader makes the same of two pieces of bytes, whatever follows them: it fails in the same way,
or returns the same value and leaves what follows. -/
def ReadsAlike (r : Reader α) (bs bs' : List UInt8) : Prop :=
  ∀ rest, (∃ f, r.outcome (bs ++ rest) = .error f ∧ r.outcome (bs' ++ rest) = .error f) ∨
    ∃ a, r.run (bs ++ rest) = (.ok a, rest) ∧ r.run (bs' ++ rest) = (.ok a, rest)

theorem ReadsAlike.of_run {x : Except Tlv.Fault α} (h : ∀ rest, r.run (bs ++ rest) = (x, rest))
    (h' : ∀ rest, r.run (bs' ++ rest) = (x, rest)) : ReadsAlike r bs bs' := by
  intro rest
  cases x with
  | error f => exact .inl ⟨f, Attempt.outcome_of_run (h rest), Attempt.outcome_of_run (h' rest)⟩
  | ok a => exact .inr ⟨a, h rest, h' rest⟩

end

variable {depth : Nat} {body rest : List UInt8}

theorem Descriptor.read_of_le (h : depth ≤ maxDepth) :
    Descriptor.read depth = Descriptor.readLevels (maxDepth - depth + 1) := by
  rw [Descriptor.read, Nat.sub_add_comm h]

theorem Literal.read_of_le (h : depth ≤ maxDepth) :
    Literal.read depth = Literal.readLevels (maxDepth - depth + 1) := by
  rw [Literal.read, Nat.sub_add_comm h]

theorem Descriptor.read_succ (depth : Nat) :
    Descriptor.read (depth + 1) = Descriptor.readLevels (maxDepth - depth) := by
  rw [Descriptor.read, Nat.add_sub_add_right]

theorem Literal.read_succ (depth : Nat) :
    Literal.read (depth + 1) = Literal.readLevels (maxDepth - depth) := by
  rw [Literal.read, Nat.add_sub_add_right]

theorem outcome_map_of_variant {shape : String}
    (h : (variantItem shape (sized .map body)).length < lengthLimit + 5) :
    Reader.map.outcome (sized .map body) = .ok body := by
  rw [length_variantItem, length_sized] at h
  exact outcome_map (by omega)

namespace Descriptor

theorem run_read_union (h : depth ≤ maxDepth)
    (hlen : (variantItem "union" (sized .map body)).length < lengthLimit + 5) :
    (read depth).run (variantItem "union" (sized .map body) ++ rest) =
      (foldEntries (UnionEntries.add (read (depth + 1)).outcome) {} body >>= UnionEntries.union,
        rest) := by
  rw [read_of_le h, readLevels, Attempt.run_bind_of_ok (Reads.variant hlen rest), read_succ]
  simp only [outcome_map_of_variant hlen, ok_bind, Attempt.run_ofExcept]

theorem run_read_blob (h : depth ≤ maxDepth)
    (hlen : (variantItem "blob" (sized .map body)).length < lengthLimit + 5) :
    (read depth).run (variantItem "blob" (sized .map body) ++ rest) =
      (foldEntries BlobEntries.add {} body >>= fun found ↦ (fun p ↦ blob p.2) <$> found.type,
        rest) := by
  rw [read_of_le h, readLevels, Attempt.run_bind_of_ok (Reads.variant hlen rest)]
  simp only [outcome_map_of_variant hlen, ok_bind, Attempt.run_ofExcept, readBlobType, bind_assoc,
    map_eq_pure_bind]

end Descriptor

namespace Literal

theorem run_read_blob (h : depth ≤ maxDepth)
    (hlen : (variantItem "blob" (sized .map body)).length < lengthLimit + 5) :
    (read depth).run (variantItem "blob" (sized .map body) ++ rest) =
      (foldEntries Descriptor.BlobEntries.add {} body >>= fun found ↦ do
        let (uri, type) ← found.type
        return blob ⟨← Descriptor.required "uri" uri, type⟩, rest) := by
  rw [read_of_le h, readLevels, Attempt.run_bind_of_ok (Reads.variant hlen rest)]
  simp only [outcome_map_of_variant hlen, ok_bind, Attempt.run_ofExcept, Descriptor.readBlobType,
    bind_assoc]

/-- Plain data stands in a variant named by its kind. -/
theorem run_read_scalar (h : depth ≤ maxDepth) (kind : Kind) {item : List UInt8}
    (hlen : (variantItem kind.name item).length < lengthLimit + 5) :
    (read depth).run (variantItem kind.name item ++ rest) =
      (scalar <$> readScalar item kind, rest) := by
  rw [read_of_le h, readLevels, Attempt.run_bind_of_ok (Reads.variant hlen rest)]
  cases kind <;> rfl

theorem run_read_datetime (h : depth ≤ maxDepth)
    (hlen : (variantItem "datetime" (sized .map body)).length < lengthLimit + 5) :
    (read depth).run (variantItem "datetime" (sized .map body) ++ rest) =
      (foldEntries (TimeEntries.add Reader.u32) {} body >>= fun found ↦ do
        let seconds ← Descriptor.required "seconds" found.seconds
        let nanos ← Descriptor.required "nanos" found.nanos
        let t ← inRange (Timestamp.ofParts? seconds.toInt nanos.toNat)
        return scalar (.datetime t), rest) := by
  refine (run_read_scalar h .datetime hlen).trans ?_
  simp only [readScalar, outcome_map_of_variant hlen, ok_bind, readTime, bind_assoc,
    map_eq_pure_bind, pure_bind]

theorem run_read_duration (h : depth ≤ maxDepth)
    (hlen : (variantItem "duration" (sized .map body)).length < lengthLimit + 5) :
    (read depth).run (variantItem "duration" (sized .map body) ++ rest) =
      (foldEntries (TimeEntries.add Reader.s64) {} body >>= fun found ↦ do
        let seconds ← Descriptor.required "seconds" found.seconds
        let nanos ← Descriptor.required "nanos" found.nanos
        let s ← inRange (Span.ofParts? seconds.toInt nanos.toInt)
        return scalar (.duration s), rest) := by
  refine (run_read_scalar h .duration hlen).trans ?_
  simp only [readScalar, outcome_map_of_variant hlen, ok_bind, readTime, bind_assoc,
    map_eq_pure_bind, pure_bind]

theorem run_read_union (h : depth ≤ maxDepth)
    (hlen : (variantItem "union" (sized .map body)).length < lengthLimit + 5) :
    (read depth).run (variantItem "union" (sized .map body) ++ rest) =
      (foldEntries (UnionEntries.add (Descriptor.read (depth + 1)).outcome
        (read (depth + 1)).outcome) {} body >>= UnionEntries.union, rest) := by
  rw [read_of_le h, readLevels, Attempt.run_bind_of_ok (Reads.variant hlen rest), read_succ,
    Descriptor.read_succ]
  simp only [outcome_map_of_variant hlen, ok_bind, Attempt.run_ofExcept]

end Literal

namespace Construct

/-- Reading a construct takes in its entries by slots, and makes a result of what was found. -/
theorem exists_slots (k : Construct) (h : depth ≤ maxDepth) :
    ∃ (σ : Type) (step : σ → String → List UInt8 → Except Tlv.Fault σ)
      (found : (String → Option (List UInt8)) → σ) (finish : σ → Except Tlv.Fault k.Result),
      Slots k.known.knows (k.known.accepts (depth + 1)) step found ∧
        ∀ body rest, (variantItem k.shape (sized .map body)).length < lengthLimit + 5 →
          (k.read depth).run (variantItem k.shape (sized .map body) ++ rest) =
            (foldEntries step (found fun _ ↦ none) body >>= finish, rest) := by
  cases k with
  | unionType =>
    exact ⟨_, _, _, _, Known.slots_unionType _, fun _ _ ↦ Descriptor.run_read_union h⟩
  | blobType => exact ⟨_, _, _, _, Known.slots_blob _, fun _ _ ↦ Descriptor.run_read_blob h⟩
  | blob => exact ⟨_, _, _, _, Known.slots_blob _, fun _ _ ↦ Literal.run_read_blob h⟩
  | datetime =>
    exact ⟨_, _, _, _, Known.slots_time fun _ ↦ rfl, fun _ _ ↦ Literal.run_read_datetime h⟩
  | duration =>
    exact ⟨_, _, _, _, Known.slots_time fun _ ↦ rfl, fun _ _ ↦ Literal.run_read_duration h⟩
  | union => exact ⟨_, _, _, _, Known.slots_union _, fun _ _ ↦ Literal.run_read_union h⟩

/-- Reading the bytes of entries takes them in one after the other. -/
theorem exists_run_read_bytes (k : Construct) (h : depth ≤ maxDepth) :
    ∃ (σ : Type) (step : σ → String → List UInt8 → Except Tlv.Fault σ)
      (found : (String → Option (List UInt8)) → σ) (finish : σ → Except Tlv.Fault k.Result),
      Slots k.known.knows (k.known.accepts (depth + 1)) step found ∧
        ∀ es rest, (k.bytes es).length < lengthLimit + 5 →
          (k.read depth).run (k.bytes es ++ rest) =
            (es.foldlM (fun s e ↦ step s e.1 e.2) (found fun _ ↦ none) >>= finish, rest) := by
  obtain ⟨σ, step, found, finish, hslots, hrun⟩ := exists_slots k h
  refine ⟨σ, step, found, finish, hslots, fun es rest hlen ↦ ?_⟩
  have hbody : (es.flatMap fun e ↦ variantItem e.1 e.2).length < lengthLimit := by
    rw [bytes, length_variantItem, length_sized] at hlen
    omega
  rw [bytes, hrun _ rest hlen, foldEntries_entries es hbody]

/-- Too deep inside, nothing is read. -/
theorem outcome_read_of_lt (k : Construct) (h : maxDepth < depth) (bs : List UInt8) :
    (k.read depth).outcome bs = .error .nestingLimit := by
  have hlevels : maxDepth + 1 - depth = 0 := by omega
  cases k <;> simp only [read, Descriptor.read, Literal.read, hlevels] <;> rfl

theorem readsAlike_of_lt (k : Construct) (h : maxDepth < depth) (bs bs' : List UInt8) :
    ReadsAlike (k.read depth) bs bs' :=
  fun _ ↦ .inl ⟨_, outcome_read_of_lt k h _, outcome_read_of_lt k h _⟩

theorem length_bytes_le (k : Construct) {es es' : List Entry}
    (h : (es'.flatMap fun e ↦ variantItem e.1 e.2).length ≤
      (es.flatMap fun e ↦ variantItem e.1 e.2).length) :
    (k.bytes es').length ≤ (k.bytes es).length := by
  simp only [bytes, length_variantItem, length_sized]
  omega

theorem readsAlike_lastKnown (k : Construct) {es es' : List Entry}
    (hlen : (k.bytes es).length < lengthLimit + 5)
    (haccepts : ∀ e ∈ es, k.known.accepts (depth + 1) e.1 e.2)
    (hperm : es'.Perm (lastKnown k.known.knows es)) :
    ReadsAlike (k.read depth) (k.bytes es) (k.bytes es') := by
  rcases Nat.lt_or_ge maxDepth depth with hdepth | hdepth
  · exact k.readsAlike_of_lt hdepth _ _
  · obtain ⟨σ, step, found, finish, hslots, hrun⟩ := k.exists_run_read_bytes hdepth
    have hlen' : (k.bytes es').length ≤ (k.bytes es).length := by
      refine k.length_bytes_le ?_
      rw [(hperm.flatMap fun _ _ ↦ .rfl).length_eq]
      exact (((List.pwFilter_sublist _).trans List.filter_sublist).flatMap _).length_le
    refine .of_run (hrun es · hlen) fun rest ↦ ?_
    rw [hrun es' rest (Nat.lt_of_le_of_lt hlen' hlen), hslots.foldlM_lastKnown haccepts hperm]

theorem readsAlike_insert (k : Construct) {before after : List Entry} {e : Entry}
    (hlen : (k.bytes (before ++ e :: after)).length < lengthLimit + 5)
    (hunknown : k.known.knows e.1 = false) (hskip : Reader.skip.outcome e.2 = .ok ()) :
    ReadsAlike (k.read depth) (k.bytes (before ++ e :: after)) (k.bytes (before ++ after)) := by
  rcases Nat.lt_or_ge maxDepth depth with hdepth | hdepth
  · exact k.readsAlike_of_lt hdepth _ _
  · obtain ⟨σ, step, found, finish, hslots, hrun⟩ := k.exists_run_read_bytes hdepth
    have hlen' : (k.bytes (before ++ after)).length ≤ (k.bytes (before ++ e :: after)).length := by
      refine k.length_bytes_le ?_
      have hsub : (before ++ after).Sublist (before ++ e :: after) :=
        (List.sublist_cons_self e after).append_left before
      exact (hsub.flatMap _).length_le
    refine .of_run (hrun _ · hlen) fun rest ↦ ?_
    rw [hrun _ rest (Nat.lt_of_le_of_lt hlen' hlen),
      hslots.foldlM_insert hunknown (Known.accepts_of_skip hunknown hskip)]

/-- A construct whose known entries can be read, each by itself, is read as one that has the last
entry of each known name alone, in any order.  And whatever the entries are, one more that is not
known makes no difference, wherever it is put in. -/
theorem readsAlike (k : Construct) (depth : Nat) :
    (∀ es es', (k.bytes es).length < lengthLimit + 5 →
      (∀ e ∈ es, k.known.accepts (depth + 1) e.1 e.2) →
      es'.Perm (lastKnown k.known.knows es) →
      ReadsAlike (k.read depth) (k.bytes es) (k.bytes es')) ∧
    ∀ (before after : List Entry) (e : Entry),
      (k.bytes (before ++ e :: after)).length < lengthLimit + 5 →
      k.known.knows e.1 = false → Reader.skip.outcome e.2 = .ok () →
      ReadsAlike (k.read depth) (k.bytes (before ++ e :: after)) (k.bytes (before ++ after)) :=
  ⟨fun _ _ ↦ k.readsAlike_lastKnown, fun _ _ _ ↦ k.readsAlike_insert⟩

/-- A span with its seconds given twice, and with a unit that is not known. -/
theorem readsAlike_duration :
    let unit : Entry := ("unit", strItem "s")
    let es : List Entry :=
      [("seconds", s64Item 7), ("nanos", s64Item 5), unit, ("seconds", s64Item 2)]
    let es' : List Entry := [("seconds", s64Item 2), ("nanos", s64Item 5)]
    ReadsAlike (Literal.read 3) (duration.bytes es) (duration.bytes es') ∧
      ReadsAlike (Literal.read 3) (duration.bytes es) (duration.bytes (es.take 2 ++ es.drop 3)) ∧
      ∃ s : Span, s.total = 2000000005 ∧
        (Literal.read 3).outcome (duration.bytes es') = .ok (.scalar (.duration s)) :=
  ⟨(readsAlike duration 3).1 _ _ (by decide +kernel) (by decide +kernel) (by decide +kernel),
    (readsAlike duration 3).2 [_, _] [_] _ (by decide +kernel) (by decide +kernel)
      (by decide +kernel),
    ⟨2000000005, by decide⟩, rfl, rfl⟩

end Construct

end Interchange
