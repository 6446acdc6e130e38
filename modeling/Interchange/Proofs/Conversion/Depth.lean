import Interchange.Proofs.Conversion.Agreement
import Interchange.Proofs.Tlv.RoundTrip

/-!
# How deep what is produced nests

Two limits of nesting meet in what an engine produces.  Conversions count the steps into a value,
and describing a type counts those into records; the byte form counts all levels of a descriptor or
a literal, the tags of unions included.  So what is produced can be too deep for its bytes, although
both limits are the same number.

`Spans` counts the levels of a type as the byte form does, so what is produced for a type within the
limit has bytes.  A literal without tags has as many levels as steps, so it always has.
-/

namespace Interchange

open Session Attempt Tlv Tlv.Writer

/-! ## Bytes within the limit -/

/-- A descriptor that fits has bytes if it is within the limit of nesting, and is refused if not. -/
theorem Descriptor.toBytes_eq {d : Descriptor} (hl : d.Fits) :
    d.toBytes = if d.depth ≤ maxDepth then .ok d.layout else .error .nestingLimit := by
  have hl : d.layout.length < lengthLimit + 5 := by
    rw [layout, variantItem, length_sized]
    exact Nat.add_lt_add_right hl 5
  split
  · next hd => exact toBytes_of_depth_le hd hl
  · next hd => exact toBytes_of_lt_depth (Nat.not_le.mp hd) hl

/-- A literal that fits has bytes if it is within the limit of nesting, and is refused if not. -/
theorem Literal.toBytes_eq {l : Literal} (hl : l.Fits) :
    l.toBytes = if l.depth ≤ maxDepth then .ok l.layout else .error .nestingLimit := by
  have hl : l.layout.length < lengthLimit + 5 := by
    rw [layout, variantItem, length_sized]
    exact Nat.add_lt_add_right hl 5
  split
  · next hd => exact toBytes_of_depth_le hd hl
  · next hd => exact toBytes_of_lt_depth (Nat.not_le.mp hd) hl

/-! ## Literals without tags -/

namespace Literal

/-- There is no union literal anywhere in a literal. -/
inductive TagFree : Literal → Prop
  | scalar (s : Scalar) : TagFree (.scalar s)
  | blob (b : Blob) : TagFree (.blob b)
  | collection {items : List Literal} (each : ∀ l ∈ items, TagFree l) : TagFree (.collection items)
  | mapping {entries : List (String × Literal)} (each : ∀ e ∈ entries, TagFree e.2) :
      TagFree (.mapping entries)
  | record {fields : List (String × Literal)} (each : ∀ e ∈ fields, TagFree e.2) :
      TagFree (.record fields)

variable {l : Literal}

theorem itemsDepth_eq {ls : List Literal} (h : ∀ l ∈ ls, l.depth = l.nesting) :
    itemsDepth ls = nestingItems ls := by
  induction ls with
  | nil => rfl
  | cons l ls ih =>
    obtain ⟨hl, hls⟩ := List.forall_mem_cons.mp h
    rw [itemsDepth, nestingItems, hl, ih hls]

theorem entriesDepth_eq {es : List (String × Literal)} (h : ∀ e ∈ es, e.2.depth = e.2.nesting) :
    entriesDepth es = nestingEntries es := by
  induction es with
  | nil => rfl
  | cons e es ih =>
    obtain ⟨he, hes⟩ := List.forall_mem_cons.mp h
    rw [entriesDepth, nestingEntries, he, ih hes]

/-- Without tags, the levels below a literal are the steps into it. -/
theorem TagFree.depth_eq (h : l.TagFree) : l.depth = l.nesting := by
  induction h with
  | scalar | blob => rfl
  | collection _ ih => exact itemsDepth_eq ih
  | mapping _ ih | record _ ih => exact entriesDepth_eq ih

end Literal

/-- A type or none has a level more at most. -/
theorem Descriptor.depth_orNone_le {d : Descriptor} {n : Nat} (h : d.depth + 1 ≤ n) :
    d.orNone.depth ≤ n := by
  have hmembers (ds : List Descriptor) {tagField : String} (hds : ∀ d ∈ ds, d.depth + 1 ≤ n) :
      (ofMembers (ds ++ [.primitive .none]) tagField).depth ≤ n := by
    refine depth_le_iff.mpr fun part hpart ↦ ?_
    rcases List.mem_append.mp (List.mem_eraseDups.mp hpart) with hpart | hpart
    · exact hds part hpart
    · rw [List.mem_singleton.mp hpart, depth_primitive]
      omega
  cases d with
  | union ds tagField =>
    refine hmembers ds fun part hpart ↦ ?_
    exact depth_le_iff.mp (Nat.le_of_succ_le h) part hpart
  | _ => exact hmembers [_] (List.forall_mem_singleton.mpr h)

/-! ## Levels of types -/

namespace Registry

variable {r : Registry} {known : Knowledge} {levels : Nat} {place : Place} {t u : HostType}
  {d : Descriptor} {v : Value} {l : Literal} {n : Nat}

/-- No record that a type is about takes fields that it does not declare. -/
def Closed (r : Registry) (t : HostType) : Prop :=
  ∀ u s, Relation.ReflTransGen r.Contains t u → r.resolve u = .ok .record → r.schemaOf u = .ok s →
    s.isOpen = false

theorem Closed.of_contains (h : r.Closed t) (hu : r.Contains t u) : r.Closed u :=
  fun u' s hu' ↦ h u' s (.head hu hu')

/-- A type has at most so many levels below it. -/
def Spans (r : Registry) : Nat → HostType → Prop
  | 0, t => ∀ u, ¬ r.Contains t u
  | n + 1, t => ∀ u, r.Contains t u → r.Spans n u

/-- What a type is about has a level less. -/
theorem Spans.of_contains (h : r.Spans n t) (hu : r.Contains t u) :
    ∃ m, n = m + 1 ∧ r.Spans m u := by
  cases n with
  | zero => exact absurd hu (h u)
  | succ m => exact ⟨m, rfl, h u hu⟩

/-- What a type is about, as a list. -/
def insides (r : Registry) (t : HostType) : List HostType :=
  t.parts ++ match r.resolve t, r.schemaOf t with
    | .ok .record, .ok s => s.fields.map (·.2)
    | _, _ => []

theorem mem_insides_iff : u ∈ r.insides t ↔ r.Contains t u := by
  rw [insides, List.mem_append]
  constructor
  · rintro (hpart | hfield)
    · exact .part hpart
    · split at hfield
      · next s hr hs =>
        obtain ⟨f, hf, rfl⟩ := List.mem_map.mp hfield
        exact .field hr hs hf
      · cases hfield
  · rintro (hpart | ⟨hr, hs, hf⟩)
    · exact .inl hpart
    · simp only [hr, hs]
      exact .inr (List.mem_map_of_mem hf)

instance decidableSpans (r : Registry) : (n : Nat) → (t : HostType) → Decidable (r.Spans n t)
  | 0, t => decidable_of_iff (∀ u ∈ r.insides t, False)
    (forall_congr' fun _ ↦ imp_congr_left mem_insides_iff)
  | n + 1, t =>
    have := decidableSpans r n
    decidable_of_iff (∀ u ∈ r.insides t, r.Spans n u)
      (forall_congr' fun _ ↦ imp_congr_left mem_insides_iff)

/-! ## Levels of what is produced -/

/-- A converter puts descriptors together from those of what the type is about. -/
theorem Composes.contains {c : Converter} {parts : List (HostType × Descriptor)}
    (h : r.Composes c parts t d) (resolved : r.resolve t = .ok c) {part : HostType × Descriptor}
    (hpart : part ∈ parts) : r.Contains t part.1 := by
  cases h with
  | primitive | reference | jsonLines | plugin => cases hpart
  | list | dict | optional =>
    rw [List.mem_singleton.mp hpart]
    exact .part List.mem_cons_self
  | plain _ member | orNone _ member =>
    rw [List.mem_singleton.mp hpart]
    exact .part (List.mem_of_find?_eq_some member)
  | tagged _ types _ =>
    subst types
    exact .part (List.mem_map_of_mem hpart)
  | @record _ s fields _ schema declared types =>
    subst types
    obtain ⟨f, hf, rfl⟩ := List.mem_map.mp hpart
    have hmem : (f.1, f.2.1) ∈ s.fields := declared ▸ List.mem_map_of_mem hf
    exact .field resolved schema hmem

/-- A built-in converter adds at most one level. -/
theorem Composes.depth_le {c : Converter} {parts : List (HostType × Descriptor)}
    (h : r.Composes c parts t d) (hc : c.isBuiltin)
    (hparts : ∀ part ∈ parts, part.2.depth + 1 ≤ n) : d.depth ≤ n := by
  cases h with
  | primitive | reference => exact Nat.zero_le _
  | jsonLines | plugin => cases hc
  | list | dict => exact hparts _ List.mem_cons_self
  | optional | orNone => exact Descriptor.depth_orNone_le (hparts _ List.mem_cons_self)
  | plain => exact Nat.le_of_succ_le (hparts _ List.mem_cons_self)
  | tagged =>
    refine Descriptor.depth_le_iff.mpr fun d hd ↦ ?_
    obtain ⟨part, hpart, rfl⟩ := List.mem_map.mp (List.mem_eraseDups.mp hd)
    exact hparts part hpart
  | record _ _ types =>
    subst types
    refine Descriptor.depth_le_iff.mpr fun d hd ↦ ?_
    obtain ⟨field, hfield, rfl⟩ := List.mem_map.mp hd
    obtain ⟨f, hf, rfl⟩ := List.mem_map.mp hfield
    exact hparts f.2 (List.mem_map_of_mem hf)

/-- A descriptor has no more levels than the type that it describes. -/
theorem Described.depth_le (hr : r.Builtin) (h : r.Described known t d) (hn : r.Spans n t) :
    d.depth ≤ n := by
  induction h generalizing n with
  | intro _ resolved composed _ ih =>
    refine composed.depth_le (hr.resolve resolved) fun part hpart ↦ ?_
    obtain ⟨m, rfl, hm⟩ := hn.of_contains (composed.contains resolved hpart)
    exact Nat.succ_le_succ (ih part hpart hm)

/-- A record that takes no further fields has a type for each. -/
theorem Declares.exists_lookup {s : Schema} {declared : List (String × HostType × Descriptor)}
    (h : r.Declares t s declared) {name : String} (hname : (s.get? name).isSome) :
    ∃ f, declared.lookup name = some f ∧ r.Contains t f.1 := by
  rw [Schema.get?_eq h.fields, Option.isSome_map] at hname
  obtain ⟨f, hf⟩ := Option.isSome_iff_exists.mp hname
  exact ⟨f, hf, h.contains (Entries.mem_of_lookup hf)⟩

/-- A literal has no more levels than the type that it is written for, whose members' descriptors
have no more either. -/
theorem Writes.depth_le (h : r.Writes known levels place t d v l)
    (hk : ∀ t d n, known t d → r.Spans n t → d.depth ≤ n) (hc : r.Closed t) (hn : r.Spans n t) :
    l.depth ≤ n := by
  induction h generalizing n with
  | primitive | reference | absent => exact Nat.zero_le _
  | list _ _ _ ih | stream _ _ ih =>
    refine Literal.itemsDepth_le_iff.mpr fun l hl ↦ ?_
    obtain ⟨item, hitem, rfl⟩ := List.mem_map.mp hl
    obtain ⟨i, hi⟩ := exists_mem_zipIdx hitem 0
    obtain ⟨m, rfl, hm⟩ := hn.of_contains (.part List.mem_cons_self)
    have hc := hc.of_contains (.part List.mem_cons_self)
    exact Nat.succ_le_succ (ih (item, i) hi hc hm)
  | dict _ _ _ ih =>
    refine Literal.entriesDepth_le_iff.mpr fun e he ↦ ?_
    obtain ⟨entry, hentry, rfl⟩ := List.mem_map.mp he
    obtain ⟨m, rfl, hm⟩ := hn.of_contains (.part List.mem_cons_self)
    have hc := hc.of_contains (.part List.mem_cons_self)
    exact Nat.succ_le_succ (ih entry hentry hc hm)
  | present nullable _ _ ih =>
    obtain ⟨m, rfl, hm⟩ := hn.of_contains nullable.contains
    exact Nat.le_succ_of_le (ih (hc.of_contains nullable.contains) hm)
  | plain plain _ ih =>
    obtain ⟨m, rfl, hm⟩ := hn.of_contains plain.contains
    exact Nat.le_succ_of_le (ih (hc.of_contains plain.contains) hm)
  | @tagged _ _ _ member _ _ tagged accepted _ ih =>
    have hmem := List.mem_of_find?_eq_some accepted
    have hpart : r.Contains (.union _) member.1 := .part (List.mem_map_of_mem hmem)
    obtain ⟨m, rfl, hm⟩ := hn.of_contains hpart
    -- The union is a level of the type as well, which makes up for the tag.
    have htype := hk member.1 member.2 m (tagged.known member hmem) hm
    exact Nat.succ_le_succ (Nat.max_le.mpr ⟨htype, ih (hc.of_contains hpart) hm⟩)
  | @record _ _ t s _ _ _ declares _ closed _ _ _ ih =>
    refine Literal.entriesDepth_le_iff.mpr fun e he ↦ ?_
    obtain ⟨field, hfield, rfl⟩ := List.mem_map.mp he
    -- What is undeclared would be written by its shape alone, of which the type says nothing.
    have hopen : s.isOpen = false := hc t s .refl declares.resolved declares.schema
    obtain ⟨f, hf, hpart⟩ := declares.exists_lookup (closed hopen field hfield)
    obtain ⟨m, rfl, hm⟩ := hn.of_contains hpart
    exact Nat.succ_le_succ (ih field hfield f.1 f.2 hf (hc.of_contains hpart) hm)

/-- A literal has no more steps into it than there are levels to write it with. -/
theorem Writes.nesting_le (h : r.Writes known levels place t d v l) (hv : v.StreamFree)
    (hc : r.Closed t) : l.nesting ≤ levels := by
  induction h with
  | primitive | reference | absent => exact Nat.zero_le _
  | stream => exact hv.elim
  | list _ room _ ih =>
    refine Literal.nestingItems_le_iff.mpr fun l hl ↦ ?_
    obtain ⟨item, hitem, rfl⟩ := List.mem_map.mp hl
    obtain ⟨i, hi⟩ := exists_mem_zipIdx hitem 0
    have hv := Value.streamFreeItems_iff.mp hv item.1 (List.mem_map_of_mem hitem)
    have hle := ih (item, i) hi hv (hc.of_contains (.part List.mem_cons_self))
    exact Nat.add_le_of_le_sub (room (List.ne_nil_of_mem hitem)) hle
  | dict _ room _ ih =>
    refine Literal.nestingEntries_le_iff.mpr fun e he ↦ ?_
    obtain ⟨entry, hentry, rfl⟩ := List.mem_map.mp he
    have hv := Value.streamFreeEntries_iff.mp hv _ (List.mem_map_of_mem hentry)
    have hle := ih entry hentry hv (hc.of_contains (.part List.mem_cons_self))
    exact Nat.add_le_of_le_sub (room (List.ne_nil_of_mem hentry)) hle
  | present nullable _ _ ih => exact ih hv (hc.of_contains nullable.contains)
  | plain plain _ ih => exact ih hv (hc.of_contains plain.contains)
  | tagged _ accepted _ ih =>
    exact ih hv (hc.of_contains (.part (List.mem_map_of_mem (List.mem_of_find?_eq_some accepted))))
  | @record _ _ t s _ _ _ declares _ closed room _ _ ih =>
    refine Literal.nestingEntries_le_iff.mpr fun e he ↦ ?_
    obtain ⟨field, hfield, rfl⟩ := List.mem_map.mp he
    have hopen : s.isOpen = false := hc t s .refl declares.resolved declares.schema
    obtain ⟨f, hf, hpart⟩ := declares.exists_lookup (closed hopen field hfield)
    have hv := Value.streamFreeEntries_iff.mp hv _ (List.mem_map_of_mem hfield)
    have hle := ih field hfield f.1 f.2 hf hv (hc.of_contains hpart)
    exact Nat.add_le_of_le_sub (room (List.ne_nil_of_mem hfield)) hle

end Registry

/-! ## Bytes of what is produced -/

namespace Engine

variable {e : Engine}

/-- What an engine produces, and fits, has bytes just if it is within the limit of the byte form.  A
descriptor is if its type is, and so is a literal whose type takes no undeclared fields.  The limit
of the engine bounds the steps into such a literal; these are all its levels if it has no tags. -/
theorem toBytes_of_produced (he : e.Reachable) (hr : e.setup.registry.Standard)
    (hm : e.setup.settings.maxDepth ≤ maxDepth) (place : Place) (t : HostType) :
    (∀ d e', (convert fun u ↦ u.describe place t).run e = (.ok d, e') → d.Fits →
      d.toBytes = (if d.depth ≤ maxDepth then .ok d.layout else .error .nestingLimit) ∧
      (e.setup.registry.Spans maxDepth t → d.depth ≤ maxDepth)) ∧
    ∀ v l e', v.StreamFree → (convert fun u ↦ u.toLiteral place t v).run e = (.ok l, e') →
      l.Fits →
      l.toBytes = (if l.depth ≤ maxDepth then .ok l.layout else .error .nestingLimit) ∧
      (l.TagFree → l.depth = l.nesting) ∧
      (e.setup.registry.Closed t → l.nesting ≤ maxDepth ∧
        (e.setup.registry.Spans maxDepth t → l.depth ≤ maxDepth)) := by
  have hs := he.coherent
  constructor
  · intro d e' hd hfits
    obtain ⟨s', h, rfl⟩ := run_convert_eq_ok.mp hd
    refine ⟨d.toBytes_eq hfits, fun hn ↦ ?_⟩
    have hdescribes :=
      Registry.describes_describe (r := e.setup.registry) (e.setup.levels place) place t
    have hs' := (hdescribes.within.of_run h hs).1
    exact (hs' t d (hdescribes.remembered hs h)).depth_le hr.builtin hn
  · intro v l e' hv hl hfits
    obtain ⟨s', h, rfl⟩ := run_convert_eq_ok.mp hl
    obtain ⟨d, s₁, -, -, hwrites, hrecalls⟩ :=
      Setup.toLiteralBy_ok hr.builtin (fun _ ↦ Setup.keeping_delegate) hs h
    refine ⟨l.toBytes_eq hfits, fun hfree ↦ hfree.depth_eq, fun hc ↦ ⟨?_, fun hn ↦ ?_⟩⟩
    · calc l.nesting
        _ ≤ e.setup.settings.maxDepth - place.path.length := hwrites.nesting_le hv hc
        _ ≤ e.setup.settings.maxDepth := Nat.sub_le _ _
        _ ≤ maxDepth := hm
    · refine hwrites.depth_le (fun t d n hd hn ↦ ?_) hc hn
      exact (hrecalls.coherent t d (hrecalls.knows t d hd)).depth_le hr.builtin hn

/-- A record with a list of numbers and texts. -/
def lineType : HostType :=
  .record "line" [("marks", .list (.union [.ofKind .integer, .ofKind .string]))] false

def line (marks : List Value) : Value := .record (some "line") [("marks", .list marks)]

def lineLiteral (marks : List Literal) : Literal := .record [("marks", .collection marks)]

theorem closed_lineType : freshEngine.setup.registry.Closed lineType := by
  have hcloses : Registry.defaults.closes [lineType,
      .list (.union [.ofKind .integer, .ofKind .string]),
      .union [.ofKind .integer, .ofKind .string], .ofKind .integer, .ofKind .string] = true := by
    decide +kernel
  intro u s hu hr hs
  have hmem := Registry.mem_of_closes hcloses List.mem_cons_self hu
  simp only [List.mem_cons, List.not_mem_nil, or_false] at hmem
  rcases hmem with rfl | rfl | rfl | rfl | rfl
  · cases hs
    rfl
  · cases hr
  · cases hr
  · cases (Registry.standard_defaults.resolve_ofKind .integer).symm.trans hr
  · cases (Registry.standard_defaults.resolve_ofKind .string).symm.trans hr

/-- The type of a line is within the limit, and so is a line under tags; one without marks has no
tags. -/
theorem toBytes_of_produced_line :
    (∃ d, (convert fun u ↦ u.describe .root lineType).outcome freshEngine = .ok d ∧
      d.toBytes = .ok d.layout) ∧
    (∃ l, (convert fun u ↦ u.toLiteral .root lineType
        (line [.scalar (.integer 5), .scalar (.string "a")])).outcome freshEngine = .ok l ∧
      l.toBytes = .ok l.layout) ∧
    (lineLiteral []).depth = (lineLiteral []).nesting := by
  have he : freshEngine.Reachable := reachable_start _ _ _ _
  have hr : freshEngine.setup.registry.Standard := Registry.standard_defaults
  have hn : freshEngine.setup.registry.Spans maxDepth lineType := by decide +kernel
  obtain ⟨hdescribed, hwritten⟩ := toBytes_of_produced he hr (Nat.le_refl 64) .root lineType
  have hd : (convert fun u ↦ u.describe .root lineType).outcome freshEngine =
      .ok (.record [("marks",
        .collection (.union [.primitive .integer, .primitive .string] "tag"))]) := by decide +kernel
  have hmarks : (convert fun u ↦ u.toLiteral .root lineType
      (line [.scalar (.integer 5), .scalar (.string "a")])).outcome freshEngine =
      .ok (lineLiteral [.union (.primitive .integer) (.scalar (.integer 5)),
        .union (.primitive .string) (.scalar (.string "a"))]) := rfl
  have hempty : (convert fun u ↦ u.toLiteral .root lineType (line [])).outcome freshEngine =
      .ok (lineLiteral []) := rfl
  refine ⟨⟨_, hd, ?_⟩, ⟨_, hmarks, ?_⟩, ?_⟩
  · obtain ⟨hbytes, hle⟩ := hdescribed _ _ (Prod.ext hd rfl) (by decide +kernel)
    rw [hbytes, if_pos (hle hn)]
  · obtain ⟨hbytes, -, hle⟩ := hwritten (line [.scalar _, .scalar _]) _ _
      ⟨⟨trivial, trivial, trivial⟩, trivial⟩ (Prod.ext hmarks rfl) (by decide +kernel)
    rw [hbytes, if_pos ((hle closed_lineType).2 hn)]
  · have hfree : (lineLiteral []).TagFree :=
      .record (List.forall_mem_singleton.mpr (.collection (List.forall_mem_nil _)))
    obtain ⟨-, hdepth, -⟩ := hwritten (line []) _ _ ⟨trivial, trivial⟩ (Prod.ext hempty rfl)
      (by decide +kernel)
    exact hdepth hfree

/-- Lists of lists so many levels deep. -/
def nestedList : Nat → HostType
  | 0 => .ofKind .integer
  | levels + 1 => .list (nestedList levels)

set_option maxRecDepth 20000 in
theorem toLiteral_union_nestedList :
    (convert fun u ↦ u.toLiteral .root (.union [nestedList 64, .ofKind .string]) (.list [])).outcome
      freshEngine = .ok (.union (.nested 64) (.collection [])) := rfl

/-- Lists can be described however deep they nest, and the descriptor in a tag counts as well. -/
theorem not_toBytes_of_produced :
    ¬ (∀ t d, (convert fun u ↦ u.describe .root t).outcome freshEngine = .ok d → d.Fits →
      ∃ bytes, d.toBytes = .ok bytes) ∧
    ¬ ∀ t v l, v.StreamFree → (convert fun u ↦ u.toLiteral .root t v).outcome freshEngine = .ok l →
      l.Fits → ∃ bytes, l.toBytes = .ok bytes := by
  constructor
  · intro h
    have hfits : (Descriptor.nested 65).Fits := by decide +kernel
    obtain ⟨bytes, hbytes⟩ := h (nestedList 65) (.nested 65) (by decide +kernel) hfits
    rw [Descriptor.toBytes_eq hfits, if_neg (by decide +kernel)] at hbytes
    cases hbytes
  · intro h
    have hfits : (Literal.union (.nested 64) (.collection [])).Fits := by decide +kernel
    obtain ⟨bytes, hbytes⟩ := h (.union [nestedList 64, .ofKind .string]) (.list [])
      (.union (.nested 64) (.collection [])) trivial toLiteral_union_nestedList hfits
    rw [Literal.toBytes_eq hfits, if_neg (by decide +kernel)] at hbytes
    cases hbytes

end Engine

end Interchange
