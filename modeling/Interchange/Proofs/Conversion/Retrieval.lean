import Interchange.Proofs.Conversion.Documents
import Interchange.Proofs.Conversion.Filing
import Interchange.Proofs.Json.Text

/-!
# What comes back from JSON lines

What was filed is read back one line for each item, with maps in place of records, and then the
stream is over.  But the reader has a limit to how deep a document nests, and the writer has none.
So an item that nests deeper is filed and not read: the stream fails where it stands, and gives
nothing of what comes after it.
-/

namespace Interchange

open Session Attempt

namespace JsonLines

/-- The items that come back: all before the first that nests too deep for a document. -/
def legible (items : List Value) : List Value :=
  (items.takeWhile (·.depth ≤ Json.maxDepth)).map Value.unnamed

/-- The fault at the first item that nests too deep, given the position of the first of all. -/
def illegible? (path : Path) (position : Nat) (items : List Value) : Option Fault :=
  (items.findIdx? (Json.maxDepth < ·.depth)).map fun i ↦
    .malformedDocument (path.child (.index (position + i)))

theorem legible_cons_of_le {v : Value} (h : v.depth ≤ Json.maxDepth) (vs : List Value) :
    legible (v :: vs) = v.unnamed :: legible vs := by
  simp [legible, h]

theorem illegible?_cons_of_le {v : Value} (h : v.depth ≤ Json.maxDepth) (path : Path)
    (position : Nat) (vs : List Value) :
    illegible? path position (v :: vs) = illegible? path (position + 1) vs := by
  have hv : ¬ Json.maxDepth < v.depth := Nat.not_lt.mpr h
  simp [illegible?, List.findIdx?_cons, hv, Function.comp_def, Nat.add_assoc, Nat.add_comm 1]

theorem legible_cons_of_lt {v : Value} (h : Json.maxDepth < v.depth) (vs : List Value) :
    legible (v :: vs) = [] := by
  simp [legible, h]

theorem illegible?_cons_of_lt {v : Value} (h : Json.maxDepth < v.depth) (path : Path)
    (position : Nat) (vs : List Value) :
    illegible? path position (v :: vs) =
      some (.malformedDocument (path.child (.index position))) := by
  simp [illegible?, List.findIdx?_cons, h]

/-- Items that do not nest too deep all come back. -/
theorem legible_of_forall {items : List Value} (h : ∀ v ∈ items, v.depth ≤ Json.maxDepth)
    (path : Path) (position : Nat) :
    legible items = items.map Value.unnamed ∧ illegible? path position items = none := by
  induction items generalizing position with
  | nil => exact ⟨rfl, rfl⟩
  | cons v vs ih =>
    obtain ⟨hv, hvs⟩ := List.forall_mem_cons.mp h
    obtain ⟨hitems, hfault⟩ := ih hvs (position + 1)
    rw [legible_cons_of_le hv, illegible?_cons_of_le hv, hitems]
    exact ⟨rfl, hfault⟩

/-- Only items that do not nest too deep all come back. -/
theorem forall_of_illegible? {items : List Value} {path : Path} {position : Nat}
    (h : illegible? path position items = none) : ∀ v ∈ items, v.depth ≤ Json.maxDepth := by
  have hnone := List.findIdx?_eq_none_iff.mp (Option.map_eq_none_iff.mp h)
  simpa using hnone

/-! ## Reading lines -/

variable {s s' : Session} {path : Path} {place : Place} {reader : LineReader} {id : Nat}
  {v : Value} {vs items : List Value} {js : List Json} {l : Literal}

/-- The lines of values, as text. -/
def linesText (js : List Json) : List Char := js.flatMap fun j ↦ j.text ++ ['\n']

theorem linesOf_eq_bytes (js : List Json) :
    linesOf js = Text.bytes (String.ofList (linesText js)) := by
  induction js with
  | nil => rfl
  | cons j js ih =>
    show _ ++ linesOf js = Text.bytes (String.ofList ((j.text ++ ['\n']) ++ linesText js))
    rw [ih, Text.bytes_append]

/-- The lines of values are their texts. -/
theorem shownLines_linesText (js : List Json) :
    Text.shownLines (linesText js) = js.map Json.text := by
  induction js with
  | nil => rfl
  | cons j js ih =>
    have hshown : ∀ c ∈ j.text, 0x20 ≤ c.toNat := Json.shown_text j
    have hline : '\n' ∉ j.text := fun hmem ↦ absurd (hshown _ hmem) (by decide)
    have hchomp : Text.chomp j.text = j.text := by
      unfold Text.chomp
      rw [if_neg]
      intro hlast
      exact absurd (hshown _ (List.mem_of_getLast? hlast)) (by decide)
    show Text.shownLines ((j.text ++ ['\n']) ++ linesText js) = _
    rw [List.append_assoc, List.singleton_append, Text.shownLines_append hline, hchomp,
      Json.allBlank_text, if_neg Bool.false_ne_true, ih, List.map_cons]

/-- What the lines of the JSON values of items give: the items up to the first that nests too
deep. -/
theorem documents_texts {i : Nat} (hjs : Value.itemsToJson path i items = .ok js)
    (hfree : ∀ v ∈ items, v.FloatFree) (ordered : ∀ v ∈ items, v.Ordered) (path' : Path)
    (position : Nat) : documents (js.map Json.text) = legible items ∧
      malformed? path' position (js.map Json.text) = illegible? path' position items := by
  induction items generalizing js i position with
  | nil =>
    cases hjs
    exact ⟨rfl, rfl⟩
  | cons v vs ih =>
    obtain ⟨hv, hvs⟩ := List.forall_mem_cons.mp hfree
    obtain ⟨hvo, hvso⟩ := List.forall_mem_cons.mp ordered
    obtain ⟨j, hj, h⟩ := bind_eq_ok.mp hjs
    obtain ⟨js, hrest, h⟩ := bind_eq_ok.mp h
    cases h
    have htext := Value.ofText?_of_toJson hj hv hvo
    rw [List.map_cons]
    by_cases hdepth : v.depth ≤ Json.maxDepth
    · rw [if_pos hdepth] at htext
      obtain ⟨j', hj', hvalue⟩ := Option.map_eq_some_iff.mp htext
      obtain ⟨hitems, hfault⟩ := ih hrest hvs hvso (position + 1)
      rw [documents_cons_of_some hj', malformed?_cons_of_some hj', legible_cons_of_le hdepth,
        illegible?_cons_of_le hdepth, hvalue, hitems, hfault]
      exact ⟨rfl, rfl⟩
    · rw [if_neg hdepth] at htext
      have hnone := Option.map_eq_none_iff.mp htext
      have hdeep := Nat.lt_of_not_le hdepth
      rw [documents_cons_of_none hnone, malformed?_cons_of_none hnone, legible_cons_of_lt hdeep,
        illegible?_cons_of_lt hdeep]
      exact ⟨rfl, rfl⟩

/-- What is filed can be read. -/
theorem Filed.read (h : Filed s l js) :
    ∃ uri, l = .blob ⟨uri, blobType⟩ ∧ s.store.read uri = .ok (linesOf js) := by
  obtain ⟨uri, rfl, hscheme, hbytes⟩ := h
  refine ⟨uri, rfl, ?_⟩
  unfold Storage.Store.read Storage.Store.openForRead
  unfold Storage.Store.get? at hbytes
  split
  · next hmedium =>
    rw [hmedium] at hbytes
    dsimp only at hbytes
    rw [hscheme, ok_bind, hbytes]
    rfl
  · next hmedium =>
    rw [hmedium] at hbytes
    cases hbytes

end JsonLines

/-! ## Conversions at streams of JSON lines -/

section

variable {u : Setup} {place : Place} {t : HostType} {s s' : Session} {v : Value} {l : Literal}

namespace Setup

/-- A literal at a stream of JSON lines is one that was encoded. -/
theorem of_run_toLiteral_lines (resolved : u.registry.resolve t = .ok .jsonLines)
    (h : (u.toLiteral place t v).run s = (.ok l, s')) :
    ∃ ds, (JsonLines.encode place v).run (s.recalling ds) = (.ok l, s') := by
  obtain ⟨d, s₁, hd, h⟩ := run_bind_eq_ok.mp h
  obtain ⟨ds, rfl⟩ := (onlyRecalls_describe (u.levels place) place t).of_run hd
  obtain ⟨l', s₂, hencode, h⟩ := run_bind_eq_ok.mp h
  have hl : l' = l ∧ s₂ = s' := by
    unfold verified at h
    split at h <;> cases h
    exact ⟨rfl, rfl⟩
  obtain ⟨rfl, rfl⟩ := hl
  rw [Registry.encode_of_resolve resolved] at hencode
  change (suspend (some u.delegate) place fun _ ↦ JsonLines.encode place v).run _ = _ at hencode
  rw [suspend, run_bind_of_ok (run_get _)] at hencode
  cases hmark : (s.recalling ds).isCancelled place.token with
  | true =>
    rw [hmark] at hencode
    cases hencode
  | false =>
    rw [hmark] at hencode
    exact ⟨ds, hencode⟩

end Setup

end

namespace Engine

open JsonLines

variable {e e₁ e₂ : Engine} {place place' : Place} {v : Value} {items : List Value} {l : Literal}

/-- What was encoded is filed, as lines of the JSON values of all items. -/
theorem files_of_toLiteral {t : HostType} (resolved : e.setup.registry.resolve t = .ok .jsonLines)
    (hitems : e.session.Gives v items)
    (fresh : ∀ id, v = .stream id → e.session.store.Fresh (nextUri e.session))
    (hrun : (convert fun u ↦ u.toLiteral place t v).run e = (.ok l, e₁)) :
    ∃ js, Value.itemsToJson place.path 0 items = .ok js ∧
      Files e.session l js e₁.session.store := by
  obtain ⟨s', hs', rfl⟩ := run_convert_eq_ok.mp hrun
  obtain ⟨ds, hencode⟩ := Setup.of_run_toLiteral_lines resolved hs'
  have hitems' : (e.session.recalling ds).Gives v items := by
    cases hitems with
    | list => exact .list items
    | stream h => exact .stream (h.congr rfl rfl rfl)
  obtain ⟨js, hjs, hfiles⟩ := of_run_encode hitems' fresh hencode
  exact ⟨js, hjs, hfiles.congr rfl rfl⟩

theorem filed_of_toLiteral
    (resolved : e.setup.registry.resolve (.named typeName) = .ok .jsonLines)
    (hmemory : e.session.store.isInMemory = true) (hitems : e.session.Gives v items)
    (hrun : (convert fun u ↦ u.toLiteral place (.named typeName) v).run e = (.ok l, e₁)) :
    ∃ js, Value.itemsToJson place.path 0 items = .ok js ∧ Filed e₁.session l js := by
  obtain ⟨js, hjs, hfiles⟩ :=
    files_of_toLiteral resolved hitems (fun _ _ ↦ .inl hmemory) hrun
  exact ⟨js, hjs, hfiles.filed hmemory⟩

/-- What is filed comes back as a stream, item by item, up to the first that nests too deep. -/
theorem delivers_of_filed {js : List Json}
    (resolved : e.setup.registry.resolve (.named typeName) = .ok .jsonLines)
    (hmark : e.session.isCancelled place'.token = false) (hfiled : Filed e.session l js)
    (hjs : Value.itemsToJson place.path 0 items = .ok js) (hfree : ∀ v ∈ items, v.FloatFree)
    (ordered : ∀ v ∈ items, v.Ordered) : ∃ id e',
      (convert fun u ↦ u.toValue place' (.named typeName) l).run e = (.ok (.stream id), e') ∧
      Delivers id (legible items) (illegible? place'.path 0 items) e'.session := by
  obtain ⟨uri, rfl, hread⟩ := hfiled.read
  obtain ⟨reader, hr, hrun⟩ := run_decode_of_read hread place'
  have hvalue := (Setup.run_toValue_lines resolved hmark).trans hrun
  refine ⟨_, _, run_convert_of_run hvalue, ?_⟩
  rw [linesOf_eq_bytes] at hr
  have hdelivers := delivers_addStream hr hmark
  obtain ⟨hitems, hfault⟩ := documents_texts hjs hfree ordered place'.path 0
  rwa [shownLines_linesText, hitems, hfault] at hdelivers

/-- A list or a stream of values without floats that was encoded as JSON lines comes back, item by
item, with maps in place of records, as long as the object is there and work is not cancelled.  But
what comes ends with a fault at the first item that nests too deep for a document; so nothing is
lost just if no item does. -/
theorem toValue_lines (resolved : e.setup.registry.resolve (.named typeName) = .ok .jsonLines)
    (hmemory : e.session.store.isInMemory = true) (hitems : e.session.Gives v items)
    (hfree : ∀ v ∈ items, v.FloatFree) (ordered : ∀ v ∈ items, v.Ordered)
    (hrun : (convert fun u ↦ u.toLiteral place (.named typeName) v).run e = (.ok l, e₁))
    (resolved₂ : e₂.setup.registry.resolve (.named typeName) = .ok .jsonLines)
    (hmark : e₂.session.isCancelled place'.token = false)
    (hkept : ∀ b, l = .blob b → e₂.session.store.get? b.uri = e₁.session.store.get? b.uri) :
    ∃ id e₃, (convert fun u ↦ u.toValue place' (.named typeName) l).run e₂ =
        (.ok (.stream id), e₃) ∧
      Delivers id (legible items) (illegible? place'.path 0 items) e₃.session ∧
      (Delivers id (items.map Value.unnamed) none e₃.session ↔
        ∀ v ∈ items, v.depth ≤ Json.maxDepth) := by
  obtain ⟨js, hjs, uri, hl, hscheme, hbytes⟩ := filed_of_toLiteral resolved hmemory hitems hrun
  have hfiled : Filed e₂.session l js := ⟨uri, hl, hscheme, (hkept _ hl).trans hbytes⟩
  obtain ⟨id, e₃, hvalue, hdelivers⟩ :=
    delivers_of_filed resolved₂ hmark hfiled hjs hfree ordered
  refine ⟨id, e₃, hvalue, hdelivers, ?_, ?_⟩
  · intro hall
    exact forall_of_illegible? (hdelivers.unique hall).2
  · intro hdepth
    obtain ⟨hvalues, hfault⟩ := legible_of_forall hdepth place'.path 0
    rwa [hvalues, hfault] at hdelivers

theorem resolve_linesEngine :
    linesEngine.setup.registry.resolve (.named typeName) = .ok .jsonLines := rfl

/-- A record and a list in a list come back from JSON lines as a map and the list. -/
theorem toValue_lines_record : ∃ l e₁ id e₂,
    (convert fun u ↦ u.toLiteral .root (.named typeName)
      (.list [.record "point" [("x", .scalar (.integer 5))], .list [.list []]])).run linesEngine =
        (.ok l, e₁) ∧
    (convert fun u ↦ u.toValue .root (.named typeName) l).run e₁ = (.ok (.stream id), e₂) ∧
    Delivers id [.map [("x", .scalar (.integer 5))], .list [.list []]] none e₂.session := by
  let items : List Value := [.record "point" [("x", .scalar (.integer 5))], .list [.list []]]
  have hfree : ∀ v ∈ items, v.FloatFree := by simp [items, Value.FloatFree,
    Value.FloatFreeEntries, Value.FloatFreeItems]
  have ordered : ∀ v ∈ items, v.Ordered := by simp [items, Value.Ordered,
    Value.OrderedEntries, Value.OrderedItems, Entries.Ordered]
  obtain ⟨l, e₁, hrun, resolved₁⟩ : ∃ l e₁,
      (convert fun u ↦ u.toLiteral .root (.named typeName) (.list items)).run linesEngine =
        (.ok l, e₁) ∧ e₁.setup.registry.resolve (.named typeName) = .ok .jsonLines :=
    ⟨_, _, rfl, rfl⟩
  have hmark : e₁.session.isCancelled Place.root.token = false := rfl
  obtain ⟨id, e₂, hvalue, -, hall⟩ := toValue_lines resolve_linesEngine rfl (.list items) hfree
    ordered hrun resolved₁ hmark fun _ _ ↦ rfl
  exact ⟨l, e₁, id, e₂, hrun, hvalue, hall.mpr (by decide)⟩

/-- The empty list in so many lists. -/
def wrapped : Nat → Value
  | 0 => .list []
  | n + 1 => .list [wrapped n]

theorem depth_wrapped (n : Nat) : (wrapped n).depth = n + 1 := by
  induction n with
  | zero => rfl
  | succ n ih =>
    show max (wrapped n).depth 0 + 1 = _
    rw [ih, Nat.max_zero]

theorem floatFree_wrapped (n : Nat) : (wrapped n).FloatFree ∧ (wrapped n).Ordered := by
  induction n with
  | zero => exact ⟨trivial, trivial⟩
  | succ n ih => exact ⟨⟨ih.1, trivial⟩, ih.2, trivial⟩

/-- A list in 127 lists is encoded, and what comes back is a fault. -/
theorem not_delivers_map_unnamed :
    ¬ ∀ (e e₁ : Engine) (v : Value) (items : List Value) (l : Literal),
      e.setup.registry.resolve (.named typeName) = .ok .jsonLines →
      e.session.store.isInMemory = true → e.session.Gives v items → items ≠ [] →
      (∀ v ∈ items, v.FloatFree) → (∀ v ∈ items, v.Ordered) →
      (convert fun u ↦ u.toLiteral .root (.named typeName) v).run e = (.ok l, e₁) →
      ∃ id e₂, (convert fun u ↦ u.toValue .root (.named typeName) l).run e₁ =
          (.ok (.stream id), e₂) ∧
        Delivers id (items.map Value.unnamed) none e₂.session := by
  intro h
  have hok : ((convert fun u ↦ u.toLiteral .root (.named typeName)
      (.list [wrapped Json.maxDepth])).outcome linesEngine).isOk = true := by decide +kernel
  obtain ⟨l, hl⟩ := exists_of_isOk hok
  obtain ⟨e₁, hrun⟩ := outcome_eq_ok.mp hl
  have hfree : ∀ v ∈ [wrapped Json.maxDepth], v.FloatFree :=
    List.forall_mem_singleton.mpr (floatFree_wrapped _).1
  have ordered : ∀ v ∈ [wrapped Json.maxDepth], v.Ordered :=
    List.forall_mem_singleton.mpr (floatFree_wrapped _).2
  have resolved₁ : e₁.setup.registry.resolve (.named typeName) = .ok .jsonLines := by
    obtain ⟨s₁, -, rfl⟩ := run_convert_eq_ok.mp hrun
    exact resolve_linesEngine
  have hmark : e₁.session.isCancelled Place.root.token = false := rfl
  obtain ⟨js, hjs, hfiled⟩ := filed_of_toLiteral resolve_linesEngine rfl (.list _) hrun
  obtain ⟨id, e₂, hvalue, hdelivers⟩ :=
    delivers_of_filed resolved₁ hmark hfiled hjs hfree ordered
  obtain ⟨id', e₂', hvalue', hall⟩ := h linesEngine _ _ _ l resolve_linesEngine rfl (.list _)
    (List.cons_ne_nil _ _) hfree ordered hrun
  cases hvalue.symm.trans hvalue'
  have hdepth := forall_of_illegible? (hdelivers.unique hall).2
  have hdeep : (wrapped Json.maxDepth).depth ≤ Json.maxDepth := hdepth _ List.mem_cons_self
  rw [depth_wrapped] at hdeep
  exact Nat.not_succ_le_self _ hdeep

end Engine

end Interchange
