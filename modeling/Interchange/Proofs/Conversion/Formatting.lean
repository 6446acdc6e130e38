import Interchange.Proofs.Conversion.Retrieval

/-!
# The format of JSON lines

An object of JSON lines is made of the texts of its items, one after the other, and each is followed
by a line feed.  No such text has a line feed or a carriage return of its own.  So there are as many
lines as items, and cutting the object at its line feeds gives the texts back, in whatever chunks
the items came and in whatever kind of storage the object is.
-/

namespace Interchange

open Session Attempt

namespace JsonLines

/-- The text of a JSON value, as it stands on its line. -/
def textBytes (j : Json) : List UInt8 := Text.bytes (String.ofList j.text)

theorem le_of_mem_textBytes (j : Json) : ∀ b ∈ textBytes j, 0x20 ≤ b :=
  Text.le_of_mem_bytes (Json.shown_text j)

/-- No text has a byte in it that ends a line. -/
theorem notMem_textBytes (j : Json) :
    LineReader.lineFeed ∉ textBytes j ∧ LineReader.carriageReturn ∉ textBytes j :=
  ⟨fun h ↦ absurd (le_of_mem_textBytes j _ h) (by decide),
    fun h ↦ absurd (le_of_mem_textBytes j _ h) (by decide)⟩

theorem linesOf_cons (j : Json) (js : List Json) :
    linesOf (j :: js) = textBytes j ++ LineReader.lineFeed :: linesOf js := by
  show Text.bytes (String.ofList (j.text ++ ['\n'])) ++ linesOf js = _
  rw [Text.bytes_append, List.append_assoc]
  rfl

/-- Cut at its line feeds, an object is the texts of its values, and nothing is after the last. -/
theorem splitOn_linesOf (js : List Json) :
    (linesOf js).splitOn LineReader.lineFeed = js.map textBytes ++ [[]] := by
  induction js with
  | nil => rfl
  | cons j js ih =>
    rw [linesOf_cons, List.splitOn_append_cons_self_of_not_mem (notMem_textBytes j).1, ih]
    rfl

theorem count_linesOf (js : List Json) : (linesOf js).count LineReader.lineFeed = js.length := by
  induction js with
  | nil => rfl
  | cons j js ih =>
    rw [linesOf_cons, List.count_append, List.count_cons_self, ih,
      List.count_eq_zero.mpr (notMem_textBytes j).1, Nat.zero_add, List.length_cons]

theorem length_of_itemsToJson {path : Path} {i : Nat} {items : List Value} {js : List Json}
    (h : Value.itemsToJson path i items = .ok js) : js.length = items.length := by
  induction items generalizing i js with
  | nil =>
    cases h
    rfl
  | cons v vs ih =>
    obtain ⟨j, -, h⟩ := bind_eq_ok.mp h
    obtain ⟨js, hjs, h⟩ := bind_eq_ok.mp h
    cases h
    exact congrArg Nat.succ (ih hjs)

end JsonLines

namespace Engine

open JsonLines

variable {e e' : Engine} {place : Place} {t : HostType} {v : Value} {items : List Value}
  {l : Literal}

/-- Where a list or a stream is encoded as JSON lines, the new object is just the texts of the items
in order, with a line feed after each.  No text has a byte in it that ends a line, so cutting the
object at its line feeds gives the texts back, and there are as many lines as items.  A URI that is
made for a stream is new, so what the stream reads from storage meanwhile is not what is written. -/
theorem read_toLiteral_lines (resolved : e.setup.registry.resolve t = .ok .jsonLines)
    (hitems : e.session.Gives v items)
    (fresh : ∀ id, v = .stream id → e.session.store.Fresh (nextUri e.session))
    (hrun : (convert fun u ↦ u.toLiteral place t v).run e = (.ok l, e')) :
    ∃ js, Value.itemsToJson place.path 0 items = .ok js ∧
      l = .blob ⟨nextUri e.session, blobType⟩ ∧
      e'.session.store.read (nextUri e.session) = .ok (linesOf js) ∧
      (∀ j ∈ js, LineReader.lineFeed ∉ textBytes j ∧ LineReader.carriageReturn ∉ textBytes j) ∧
      (linesOf js).splitOn LineReader.lineFeed = js.map textBytes ++ [[]] ∧
      (linesOf js).count LineReader.lineFeed = items.length := by
  obtain ⟨js, hjs, hfiles⟩ := files_of_toLiteral resolved hitems fresh hrun
  refine ⟨js, hjs, hfiles.1, hfiles.read, fun j _ ↦ notMem_textBytes j, splitOn_linesOf js, ?_⟩
  rw [count_linesOf, length_of_itemsToJson hjs]

/-- An engine that can store lists as JSON lines, in files, with a stream of two strings. -/
def stringsEngine : Engine :=
  { linesEngine with
    session :=
      { linesEngine.session with
        store := .inFiles ['/', 'd'] "a"
        streams := [.items [.ok (.scalar (.string "x\ny")), .ok (.scalar (.string ""))]] } }

theorem fresh_stringsEngine : stringsEngine.session.store.Fresh (nextUri stringsEngine.session) := by
  have hnew : (stringsEngine.session.store.exists? (nextUri stringsEngine.session)).toOption =
      some false := by decide +kernel
  right
  cases hexists : stringsEngine.session.store.exists? (nextUri stringsEngine.session) with
  | error f =>
    rw [hexists] at hnew
    cases hnew
  | ok b =>
    rw [hexists] at hnew
    cases hnew
    rfl

/-- A line feed in a string is escaped, and an empty string has a line as well. -/
theorem read_toLiteral_lines_strings : ∃ l e',
    (convert fun u ↦ u.toLiteral .root (.named typeName) (.stream 0)).run stringsEngine =
      (.ok l, e') ∧
    e'.session.store.read (nextUri stringsEngine.session) =
      .ok (Text.bytes "\"x\\ny\"\n\"\"\n") := by
  have resolved : stringsEngine.setup.registry.resolve (.named typeName) = .ok .jsonLines := rfl
  have hdelivers : Delivers 0 [.scalar (.string "x\ny"), .scalar (.string "")] none
      stringsEngine.session := .item rfl (.item rfl (.ends rfl rfl))
  have hok : ((convert fun u ↦ u.toLiteral .root (.named typeName) (.stream 0)).outcome
      stringsEngine).isOk = true := by decide +kernel
  obtain ⟨l, hl⟩ := exists_of_isOk hok
  obtain ⟨e', hrun⟩ := outcome_eq_ok.mp hl
  obtain ⟨js, hjs, -, hread, -⟩ :=
    read_toLiteral_lines resolved (.stream hdelivers) (fun _ _ ↦ fresh_stringsEngine) hrun
  cases hjs
  exact ⟨l, e', hrun, hread⟩

end Engine

end Interchange
