import Interchange.Proofs.Conversion.Canon
import Interchange.Proofs.Conversion.Predicting
import Interchange.Proofs.Streams

/-!
# Reading JSON lines

An object that holds text is read as a stream of the documents on its lines, blank lines left out.
A line that is no document ends the stream with a fault, which stands at the number of the line
among those that are not blank.  Nothing is read before it is asked for, so the documents before
such a line are delivered whatever comes after them.
-/

namespace Interchange

open Session Attempt

namespace JsonLines

variable {path : Path} {position : Nat} {line : List Char} {lines : List (List Char)} {j : Json}

/-! ## Documents on lines -/

/-- The items on lines: the documents before the first line that is none. -/
def documents (lines : List (List Char)) : List Value :=
  ((lines.map Json.ofText?).takeWhile Option.isSome).filterMap (Option.map .ofJson)

/-- The fault at the first line that is no document, given the position of the first of all. -/
def malformed? (path : Path) (position : Nat) (lines : List (List Char)) : Option Fault :=
  (lines.findIdx? fun line ↦ (Json.ofText? line).isNone).map fun i ↦
    .malformedDocument (path.child (.index (position + i)))

@[simp] theorem documents_nil : documents [] = [] := rfl

@[simp] theorem malformed?_nil : malformed? path position [] = none := rfl

theorem documents_cons_of_some (h : Json.ofText? line = some j) (lines : List (List Char)) :
    documents (line :: lines) = .ofJson j :: documents lines := by
  simp [documents, h]

theorem documents_cons_of_none (h : Json.ofText? line = none) (lines : List (List Char)) :
    documents (line :: lines) = [] := by
  simp [documents, h]

theorem malformed?_cons_of_some (h : Json.ofText? line = some j) (path : Path) (position : Nat)
    (lines : List (List Char)) :
    malformed? path position (line :: lines) = malformed? path (position + 1) lines := by
  simp [malformed?, List.findIdx?_cons, h, Function.comp_def, Nat.add_assoc, Nat.add_comm 1]

theorem malformed?_cons_of_none (h : Json.ofText? line = none) (path : Path) (position : Nat)
    (lines : List (List Char)) :
    malformed? path position (line :: lines) =
      some (.malformedDocument (path.child (.index position))) := by
  simp [malformed?, List.findIdx?_cons, h]

/-! ## Streams of documents -/

variable {s : Session} {place : Place} {reader : LineReader} {id read : Nat} {l : Literal}

/-- Text that is read line by line delivers the documents on its lines. -/
theorem delivers_documents {text : List Char} (hid : id < s.streams.length)
    (hsource : s.source id = .lines reader place read)
    (hr : reader.Holds s.store (Text.bytes (String.ofList text)))
    (hmark : s.isCancelled place.token = false) (hlines : Text.shownLines text = lines) :
    Delivers id (documents lines) (malformed? place.path read lines) s := by
  induction lines generalizing s text reader read with
  | nil =>
    obtain ⟨reader', -, -, -, hline⟩ := LineReader.nextLine?_text hr
    rw [hlines] at hline
    have hnext := Source.next_lines_of_none read hmark hline
    rw [← hsource] at hnext
    exact .ends (run_pull_eq_iff.mpr ⟨_, hnext, rfl⟩) (source_setSource_self hid)
  | cons line lines ih =>
    obtain ⟨reader', rest, hr', hrest, hline⟩ := LineReader.nextLine?_text hr
    rw [hlines] at hrest hline
    cases hj : Json.ofText? line with
    | none =>
      have hnext := Source.next_lines_of_malformed read hmark hline hj
      rw [← hsource] at hnext
      rw [documents_cons_of_none hj, malformed?_cons_of_none hj]
      exact .fails (run_pull_eq_iff.mpr ⟨_, hnext, rfl⟩) (source_setSource_self hid)
    | some j =>
      have hnext := Source.next_lines_of_document read hmark hline hj
      rw [← hsource] at hnext
      rw [documents_cons_of_some hj, malformed?_cons_of_some hj]
      have hid' : id < (s.setSource id (.lines reader' place (read + 1))).streams.length := by
        rw [length_streams_setSource]
        exact hid
      exact .item (run_pull_eq_iff.mpr ⟨_, hnext, rfl⟩)
        (ih hid' (source_setSource_self hid) hr' hmark hrest)

/-- An object that can be read decodes as a stream of its lines, in whatever format it is. -/
theorem run_decode_of_read {uri format : String} {bytes : List UInt8}
    (h : s.store.read uri = .ok bytes) (place : Place) :
    ∃ reader : LineReader, reader.Holds s.store bytes ∧
      (decode place (.blob ⟨uri, ⟨format, .single⟩⟩)).run s =
        (.ok (.stream s.streams.length), (s.addStream (.lines reader place 0)).2) := by
  obtain ⟨source, hopen, hbytes⟩ := bind_eq_ok.mp h
  refine ⟨⟨source, []⟩, ⟨bytes, hbytes, rfl⟩, ?_⟩
  show (lookStore (·.openForRead uri) >>= _).run s = _
  rw [run_bind, run_lookStore, hopen]
  rfl

/-- A stream that was added delivers the documents on the lines of the text that its reader has. -/
theorem delivers_addStream {text : List Char}
    (hr : reader.Holds s.store (Text.bytes (String.ofList text)))
    (hmark : s.isCancelled place.token = false) :
    Delivers s.streams.length (documents (Text.shownLines text))
      (malformed? place.path 0 (Text.shownLines text)) (s.addStream (.lines reader place 0)).2 := by
  refine delivers_documents ?_ ?_ hr hmark rfl
  · simp [addStream]
  · simp [addStream, Session.source]

end JsonLines

/-! ## Conversions at streams of JSON lines -/

section

variable {u : Setup} {e : Engine} {place : Place} {t : HostType} {s : Session} {l : Literal}
  {lines : List (List Char)}

namespace Setup

theorem run_toValue_lines (resolved : u.registry.resolve t = .ok .jsonLines)
    (hmark : s.isCancelled place.token = false) :
    (u.toValue place t l).run s = (JsonLines.decode place l).run s := by
  rw [toValue, toValueBy, Registry.decode_of_resolve resolved]
  show (suspend (some u.delegate) place fun _ ↦ JsonLines.decode place l).run s = _
  rw [suspend, run_bind_of_ok (run_get s), hmark]
  rfl

end Setup

namespace Engine

open JsonLines

/-- A stored object whose bytes are text is converted to a stream.  Pulls of it give the documents
on the lines that are not blank, in order, up to the first line that is none.  There the pull is a
fault at the number of that line, and else the stream just ends; every later pull gives nothing
more. -/
theorem pulls_toValue_lines {uri format text : String} {bytes : List UInt8}
    (resolved : e.setup.registry.resolve t = .ok .jsonLines)
    (hmark : e.session.isCancelled place.token = false)
    (hbytes : e.session.store.read uri = .ok bytes) (htext : Text.ofBytes? bytes = some text)
    (hlines : Text.shownLines text.toList = lines) :
    ∃ id e', (convert fun u ↦ u.toValue place t (.blob ⟨uri, ⟨format, .single⟩⟩)).run e =
        (.ok (.stream id), e') ∧
      ∀ n, pulls id ((documents lines).length + 1 + n) e'.session =
        (documents lines).map (fun v ↦ .ok (some v)) ++
          ending (malformed? place.path 0 lines) :: List.replicate n (.ok none) := by
  subst hlines
  obtain ⟨reader, hr, hrun⟩ := run_decode_of_read hbytes place
  have hvalue := (Setup.run_toValue_lines resolved hmark).trans hrun
  rw [← Text.bytes_of_ofBytes? htext, ← String.ofList_toList (s := text)] at hr
  exact ⟨_, _, run_convert_of_run hvalue, (delivers_addStream hr hmark).pulls_eq⟩

/-- An engine that can store lists as JSON lines, with an object that was put into its store. -/
def linesEngineWith (uri : String) (bytes : List UInt8) : Engine :=
  { linesEngine with
    session := { linesEngine.session with store := linesEngine.session.store.put uri bytes } }

/-- Blank lines are left out and not counted, and what follows a line that is no document is not
delivered. -/
theorem pulls_toValue_lines_point : ∃ id e',
    (convert fun u ↦ u.toValue .root (.named typeName)
        (.blob ⟨"memory://o", ⟨"JSONL", .single⟩⟩)).run
      (linesEngineWith "memory://o" (Text.bytes "[]\r\n \n\n\x7b\n5")) = (.ok (.stream id), e') ∧
    pulls id 4 e'.session = [.ok (some (.list [])),
      .error (.malformedDocument (Path.root.child (.index 1))), .ok none, .ok none] := by
  let bytes := Text.bytes "[]\r\n \n\n\x7b\n5"
  let e := linesEngineWith "memory://o" bytes
  have resolved : e.setup.registry.resolve (.named typeName) = .ok .jsonLines := rfl
  have hmark : e.session.isCancelled Place.root.token = false := rfl
  have hbytes : e.session.store.read "memory://o" = .ok bytes := rfl
  have hlines : Text.shownLines ("[]\r\n \n\n\x7b\n5").toList = [['[', ']'], ['{'], ['5']] := by
    decide
  obtain ⟨id, e', hrun, hpulls⟩ :=
    pulls_toValue_lines resolved hmark hbytes (Text.ofBytes?_bytes _) hlines
  have hdocument : Json.ofText? ['[', ']'] = some (.array []) := rfl
  have hbroken : Json.ofText? ['{'] = none := rfl
  have hn := hpulls 2
  rw [documents_cons_of_some hdocument, documents_cons_of_none hbroken,
    malformed?_cons_of_some hdocument, malformed?_cons_of_none hbroken] at hn
  exact ⟨id, e', hrun, hn⟩

end Engine

end

end Interchange
