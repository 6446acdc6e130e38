import Interchange.Proofs.Conversion.Steady

/-!
# Reading and writing by shape undo each other

A literal that is read by its shape is written again as it was, but without the wrappers of unions:
a value does not tell which member it was written as.  A value that is written by its shape is read
again as it was, but without the names of records.  What is lost in either direction is lost at the
first crossing, so nothing more is lost at a second one.
-/

namespace Interchange

open Session Attempt

namespace Literal

mutual

/-- A literal with its value in place of every union wrapper in it. -/
def unwrapped : Literal → Literal
  | scalar s => scalar s
  | blob b => blob b
  | collection items => collection (unwrappedItems items)
  | mapping entries => mapping (unwrappedEntries entries)
  | record fields => record (unwrappedEntries fields)
  | union _ l => unwrapped l

def unwrappedItems : List Literal → List Literal
  | [] => []
  | l :: ls => unwrapped l :: unwrappedItems ls

def unwrappedEntries : List (String × Literal) → List (String × Literal)
  | [] => []
  | (name, l) :: es => (name, unwrapped l) :: unwrappedEntries es

end

end Literal

section

variable {stream : Path → Nat → Conversion Literal} {s : Session}

/-- What is read from a literal is written as the literal without wrappers. -/
abbrev IsRewritten (stream : Path → Nat → Conversion Literal) (s : Session) (l : Literal) : Prop :=
  ∀ path, (literalBy stream path l.value).run s = (.ok l.unwrapped, s)

theorem run_literalsBy_values {ls : List Literal} (h : ∀ l ∈ ls, IsRewritten stream s l)
    (path : Path) (i : Nat) :
    (literalsBy stream path i (Literal.values ls)).run s = (.ok (Literal.unwrappedItems ls), s) := by
  induction ls generalizing i with
  | nil => rfl
  | cons l ls ih =>
    obtain ⟨hl, hls⟩ := List.forall_mem_cons.mp h
    rw [Literal.values, literalsBy, run_bind_of_ok (hl _), run_bind_of_ok (ih hls _)]
    rfl

theorem run_literalEntriesBy_entryValues {es : List (String × Literal)}
    (h : ∀ e ∈ es, IsRewritten stream s e.2) (path : Path) (segment : String → Segment) :
    (literalEntriesBy stream path segment (Literal.entryValues es)).run s =
      (.ok (Literal.unwrappedEntries es), s) := by
  induction es with
  | nil => rfl
  | cons e es ih =>
    obtain ⟨he, hes⟩ := List.forall_mem_cons.mp h
    rw [Literal.entryValues, literalEntriesBy, run_bind_of_ok (he _), run_bind_of_ok (ih hes)]
    rfl

/-- Every literal can be read by its shape and written again. -/
theorem run_literalBy_value (l : Literal) : IsRewritten stream s l := by
  intro path
  induction l generalizing path with
  | scalar | blob => rfl
  | collection items ih => exact run_map_of_ok (run_literalsBy_values ih path 0) _
  | mapping entries ih => exact run_map_of_ok (run_literalEntriesBy_entryValues ih path .key) _
  | record fields ih => exact run_map_of_ok (run_literalEntriesBy_entryValues ih path .field) _
  | union type l ih => exact ih path

end

namespace Value

variable {v : Value} (onWorker : Bool) (path : Path)

/-- Writing a value without streams by its shape leaves the session as it is. -/
theorem run_literal (hv : v.StreamFree) (s : Session) :
    (v.literal onWorker path).run s = ((v.literal onWorker path).outcome s, s) := by
  have hsteady : Steady (fun _ : Session ↦ True) (v.literal onWorker path) :=
    steady_literal hv onWorker path
  obtain ⟨o, ho⟩ := hsteady
  rw [outcome, ho s trivial]

/-- A value without streams and foreign values is written, and read again but for the names of
records. -/
theorem exists_run_literal (hv : v.StreamFree) (hkeys : v.foreignKeys = []) (s : Session) :
    ∃ l, (v.literal onWorker path).run s = (.ok l, s) ∧ l.value = v.eraseNames := by
  have hrun := run_literal onWorker path hv s
  cases hout : (v.literal onWorker path).outcome s with
  | ok l =>
    rw [hout] at hrun
    exact ⟨l, hrun, literal_value hv hrun⟩
  | error f =>
    rw [hout] at hrun
    have hends := ends_literal (I := fun _ ↦ True) hv onWorker path
    obtain ⟨-, key, hkey, -⟩ := hends.of_error trivial hrun
    rw [hkeys] at hkey
    cases hkey

/-- A value without streams is refused for the first foreign value in it. -/
theorem run_literal_of_foreign (hv : v.StreamFree) {key : String} {keys : List String}
    (hkeys : v.foreignKeys = key :: keys) (s : Session) :
    (v.literal onWorker path).run s = (.error (.unsupportedType key), s) := by
  have hrun := run_literal onWorker path hv s
  have hends := ends_literal (I := fun _ ↦ True) hv onWorker path
  cases hout : (v.literal onWorker path).outcome s with
  | ok l =>
    rw [hout] at hrun
    obtain ⟨-, hnone⟩ := hends.of_ok trivial hrun
    cases hnone.symm.trans hkeys
  | error f =>
    rw [hout] at hrun
    obtain ⟨-, key', hkey', rfl⟩ := hends.of_error trivial hrun
    rw [hkeys] at hkey'
    cases hkey'
    exact hrun

/-- Reading by shape and writing by shape are retractions of each other.  Every literal is written
again without the wrappers of unions.  Every value without streams and foreign values is written,
and read again without the names of records.  Of values without streams just those with a foreign
value are refused, for the first one in the order of items and entries. -/
theorem literal_retraction (onWorker : Bool) (path : Path) (s : Session) :
    (∀ l : Literal, (l.value.literal onWorker path).run s = (.ok l.unwrapped, s)) ∧
    (∀ v : Value, v.StreamFree → v.foreignKeys = [] →
      ∃ l, (v.literal onWorker path).run s = (.ok l, s) ∧ l.value = v.eraseNames) ∧
    ∀ v : Value, v.StreamFree → ∀ key keys, v.foreignKeys = key :: keys →
      (v.literal onWorker path).run s = (.error (.unsupportedType key), s) := by
  refine ⟨fun l ↦ run_literalBy_value l path, ?_, ?_⟩
  · intro v hv hkeys
    exact exists_run_literal onWorker path hv hkeys s
  · intro v hv key keys hkeys
    exact run_literal_of_foreign onWorker path hv hkeys s

/-- An integer in a list is written again without its tag, and a point in a list is read again
without its name.  Of two foreign values in a map the one under the lesser key is refused. -/
theorem literal_retraction_point :
    ((Literal.collection [.union (.primitive .integer) (.scalar (.integer 5))]).value.literal false
        .root).run (.start (.inMemory "")) =
      (.ok (.collection [.scalar (.integer 5)]), .start (.inMemory "")) ∧
    (∃ l, ((list [record "point" [("x", scalar (.integer 5))]]).literal false .root).run
        (.start (.inMemory "")) = (.ok l, .start (.inMemory "")) ∧
      l.value = list [record Option.none [("x", scalar (.integer 5))]]) ∧
    ((map [("a", list [foreign "first" (.ofInt 1) 0]),
        ("b", foreign "second" (.ofInt 2) 1)]).literal false .root).run (.start (.inMemory "")) =
      (.error (.unsupportedType "first"), .start (.inMemory "")) := by
  obtain ⟨hread, hwritten, hrefused⟩ := literal_retraction false .root (.start (.inMemory ""))
  let point : Value := list [record "point" [("x", scalar (.integer 5))]]
  have hpoint : point.StreamFree := ⟨⟨trivial, trivial⟩, trivial⟩
  let pair : Value :=
    map [("a", list [foreign "first" (.ofInt 1) 0]), ("b", foreign "second" (.ofInt 2) 1)]
  have hpair : pair.StreamFree := ⟨⟨trivial, trivial⟩, trivial, trivial⟩
  exact ⟨hread _, hwritten point hpoint rfl, hrefused pair hpair "first" ["second"] rfl⟩

end Value

end Interchange
