import Interchange.Proofs.Storage.Store

/-!
# Storages that are shared

Several writers and readers use a storage at once, and the steps of one come between those of the
others in any order.

In memory an object is published whole.  What is stored under a URI can be told from the past alone:
it is what was put there last, or what the writer had written that last published there.  So opening
an object and writing to it shows nowhere, what happens to one object leaves the others as they are,
and a reader has the object as it was when the reader opened it.
-/

namespace Interchange.Storage

/-! ## Acts -/

/-- What is done with a storage.  Writers and readers are numbered as they open. -/
inductive Act where
  | put (uri : String) (bytes : List UInt8)
  | openForWrite (uri : String)
  | write (writer : Nat) (bytes : List UInt8)
  | flush (writer : Nat)
  | shutdown (writer : Nat)
  | openForRead (uri : String)
  | fetch (reader : Nat)
  | exists? (uri : String)

/-- An open object, with what was read of it so far. -/
structure Reading where
  got : List UInt8
  source : Store.Source

/-- A storage with those who write to it and read from it. -/
structure Sharing where
  store : Store
  writers : List Draft
  readers : List Reading

namespace Sharing

/-- A storage that nobody uses yet. -/
def unused (store : Store) : Sharing := ⟨store, [], []⟩

/-- Publishes what a writer wrote. -/
def publish (s : Sharing) (writer : Nat) : Sharing :=
  match s.writers[writer]? with
  | none => s
  | some d => { s with store := s.store.publish d }

/-- What an act comes to.  Where it is refused, there is no new writer and no new reader. -/
def step (s : Sharing) : Act → Sharing
  | .put uri bytes => { s with store := s.store.put uri bytes }
  | .openForWrite uri => match (Store.openForWrite uri).run s.store with
    | (.ok d, store) => { s with store, writers := s.writers ++ [d] }
    | (.error _, store) => { s with store }
  | .write w bytes => match s.writers[w]? with
    | none => s
    | some d =>
      { s with store := (s.store.write d bytes).1,
               writers := s.writers.set w (s.store.write d bytes).2 }
  | .flush w => s.publish w
  | .shutdown w => s.publish w
  | .openForRead uri => match s.store.openForRead uri with
    | .ok source => { s with readers := s.readers ++ [⟨[], source⟩] }
    | .error _ => s
  | .fetch r => match s.readers[r]? with
    | none => s
    | some reading => match s.store.fetch reading.source with
      | .ok (next, source) => { s with readers := s.readers.set r ⟨reading.got ++ next, source⟩ }
      | .error _ => s
  | .exists? _ => s

/-- What acts come to, one after another.  The latest one is the first of the list. -/
def after (s : Sharing) : List Act → Sharing
  | [] => s
  | act :: past => (s.after past).step act

end Sharing

/-! ## The past of a storage in memory -/

namespace Act

/-- The URIs of the writers. -/
def targets : List Act → List String
  | [] => []
  | openForWrite uri :: past =>
    if Store.memoryScheme <+: uri.toList then targets past ++ [uri] else targets past
  | _ :: past => targets past

/-- All that a writer wrote since it was opened. -/
def written (w : Nat) : List Act → List UInt8
  | [] => []
  | write w' bytes :: past =>
    if w' = w ∧ w < (targets past).length then written w past ++ bytes else written w past
  | _ :: past => written w past

/-- The object that an act publishes, and under which URI. -/
def published? (past : List Act) : Act → Option (String × List UInt8)
  | put uri bytes => some (uri, bytes)
  | flush w | shutdown w => (targets past)[w]?.map fun uri ↦ (uri, written w past)
  | _ => none

/-- What was published last under a URI. -/
def stored? (uri : String) : List Act → Option (List UInt8)
  | [] => none
  | act :: past => match act.published? past with
    | none => stored? uri past
    | some (other, bytes) => if other = uri then some bytes else stored? uri past

/-- The objects of the readers, each as it was when the reader opened it. -/
def snapshots : List Act → List (List UInt8)
  | [] => []
  | openForRead uri :: past =>
    if Store.memoryScheme <+: uri.toList then snapshots past ++ (stored? uri past).toList
    else snapshots past
  | _ :: past => snapshots past

variable {uri : String} {past : List Act} {act : Act}

/-- An act that publishes nothing under a URI leaves what is stored there. -/
theorem stored?_cons_of_ne (h : ∀ bytes, act.published? past ≠ some (uri, bytes)) :
    stored? uri (act :: past) = stored? uri past := by
  rw [stored?]
  split
  · rfl
  · next other bytes hpublished =>
    rw [if_neg]
    rintro rfl
    exact h bytes hpublished

theorem length_targets_le (act : Act) (past : List Act) :
    (targets past).length ≤ (targets (act :: past)).length := by
  cases act with
  | openForWrite uri =>
    rw [targets]
    split
    · rw [List.length_append]
      exact Nat.le_add_right _ _
    · exact Nat.le_refl _
  | _ => exact Nat.le_refl _

/-- Nothing is written before the writer is opened. -/
theorem written_of_unopened {w : Nat} (h : (targets past).length ≤ w) : written w past = [] := by
  induction past with
  | nil => rfl
  | cons act past ih =>
    replace ih := ih (Nat.le_trans (length_targets_le act past) h)
    cases act with
    | write w' bytes => exact (if_neg fun hw ↦ Nat.not_lt_of_le h hw.2).trans ih
    | _ => exact ih

/-- Snapshots are only added to. -/
theorem snapshots_append (later past : List Act) :
    ∃ more, snapshots (later ++ past) = snapshots past ++ more := by
  induction later with
  | nil => exact ⟨[], (List.append_nil _).symm⟩
  | cons act later ih =>
    obtain ⟨more, hmore⟩ := ih
    cases act with
    | openForRead uri =>
      rw [List.cons_append, snapshots, hmore]
      split
      · exact ⟨_, List.append_assoc _ _ _⟩
      · exact ⟨more, rfl⟩
    | _ => exact ⟨more, hmore⟩

end Act

/-! ## Objects in memory -/

namespace Store

variable {s : Store} {uri : String} {d : Draft}

theorem checkMemory_of_memory (h : memoryScheme <+: uri.toList) : checkMemory uri = .ok () :=
  if_pos (List.isPrefixOf_iff_prefix.mpr h)

theorem checkMemory_of_not_memory (h : ¬ memoryScheme <+: uri.toList) :
    checkMemory uri = .error (.invalidUri uri) :=
  if_neg fun hp ↦ h (List.isPrefixOf_iff_prefix.mp hp)

theorem write_of_isInMemory (h : s.isInMemory = true) (d : Draft) (bytes : List UInt8) :
    s.write d bytes = (s, d.append bytes) := by
  obtain ⟨medium, area⟩ := s
  cases medium with
  | memory objects => rfl
  | files root tree => cases h

theorem run_openForWrite_of_isInMemory (h : s.isInMemory = true) (uri : String) :
    (openForWrite uri).run s = ((checkMemory uri).map fun _ ↦ ⟨uri, none, []⟩, s) := by
  obtain ⟨medium, area⟩ := s
  cases medium with
  | memory objects => rfl
  | files root tree => cases h

theorem openForRead_of_isInMemory (h : s.isInMemory = true) (huri : memoryScheme <+: uri.toList) :
    s.openForRead uri = match s.get? uri with
      | none => .error (.notFound uri)
      | some bytes => .ok (.bytes bytes) := by
  obtain ⟨medium, area⟩ := s
  cases medium with
  | memory objects =>
    rw [openForRead, checkMemory_of_memory huri]
    rfl
  | files root tree => cases h

theorem openForRead_of_not_memory (h : s.isInMemory = true)
    (huri : ¬ memoryScheme <+: uri.toList) : s.openForRead uri = .error (.invalidUri uri) := by
  obtain ⟨medium, area⟩ := s
  cases medium with
  | memory objects =>
    rw [openForRead, checkMemory_of_not_memory huri]
    rfl
  | files root tree => cases h

theorem exists?_of_isInMemory (h : s.isInMemory = true) (huri : memoryScheme <+: uri.toList) :
    s.exists? uri = .ok (s.get? uri).isSome := by
  obtain ⟨medium, area⟩ := s
  cases medium with
  | memory objects =>
    rw [exists?, checkMemory_of_memory huri]
    rfl
  | files root tree => cases h

end Store

namespace Reading

/-- All bytes of an object that was opened as it was, read or not. -/
def whole? (reading : Reading) : Option (List UInt8) :=
  match reading.source with
  | .bytes rest => some (reading.got ++ rest)
  | .file _ _ => none

variable {reading : Reading} {bytes : List UInt8}

theorem exists_rest_of_whole? (h : reading.whole? = some bytes) :
    ∃ rest, reading.source = .bytes rest ∧ reading.got ++ rest = bytes := by
  unfold whole? at h
  split at h
  · next rest hsource => exact ⟨rest, hsource, Option.some.inj h⟩
  · cases h

end Reading

namespace Sharing

open Act

variable {s : Sharing} {past : List Act}

/-- A storage in memory is what its past says. -/
structure Follows (past : List Act) (s : Sharing) : Prop where
  isInMemory : s.store.isInMemory = true
  get?_eq : ∀ uri, s.store.get? uri = stored? uri past
  writers_eq : s.writers = (targets past).mapIdx fun w uri ↦ ⟨uri, none, written w past⟩
  readers_eq : s.readers.map Reading.whole? = (snapshots past).map some

theorem Follows.writer_eq (h : s.Follows past) (w : Nat) :
    s.writers[w]? = (targets past)[w]?.map fun uri ↦ ⟨uri, none, written w past⟩ := by
  rw [h.writers_eq, List.getElem?_mapIdx]

/-- What is put is published. -/
theorem Follows.put (h : s.Follows past) {act : Act} {uri : String} {bytes : List UInt8}
    (hpublished : act.published? past = some (uri, bytes)) (other : String) :
    (s.store.put uri bytes).get? other = stored? other (act :: past) := by
  rw [stored?, hpublished]
  by_cases heq : uri = other
  · subst heq
    exact (Store.get?_put h.isInMemory uri bytes).trans (if_pos rfl).symm
  · rw [Store.get?_put_of_ne (Ne.symm heq), h.get?_eq]
    exact (if_neg heq).symm

theorem Follows.openForWrite (h : s.Follows past) (uri : String) :
    (s.step (.openForWrite uri)).Follows (.openForWrite uri :: past) := by
  rw [step, Store.run_openForWrite_of_isInMemory h.isInMemory]
  by_cases huri : Store.memoryScheme <+: uri.toList
  · rw [Store.checkMemory_of_memory huri]
    refine ⟨h.isInMemory, h.get?_eq, ?_, h.readers_eq⟩
    show s.writers ++ [⟨uri, none, []⟩] = _
    rw [targets, if_pos huri, List.mapIdx_concat, h.writers_eq]
    show _ = _ ++ [(⟨uri, none, written _ past⟩ : Draft)]
    rw [written_of_unopened (Nat.le_refl _)]
    rfl
  · rw [Store.checkMemory_of_not_memory huri]
    refine ⟨h.isInMemory, h.get?_eq, ?_, h.readers_eq⟩
    rw [targets, if_neg huri]
    exact h.writers_eq

theorem Follows.write (h : s.Follows past) (w : Nat) (bytes : List UInt8) :
    (s.step (.write w bytes)).Follows (.write w bytes :: past) := by
  rw [step]
  cases huri : (targets past)[w]? with
  | none =>
    have hunopened : ¬ w < (targets past).length :=
      Nat.not_lt_of_le (List.getElem?_eq_none_iff.mp huri)
    have hwritten : ∀ w', Act.written w' (.write w bytes :: past) = Act.written w' past := by
      intro w'
      refine if_neg ?_
      rintro ⟨rfl, hw⟩
      exact hunopened hw
    rw [h.writer_eq, huri]
    refine ⟨h.isInMemory, h.get?_eq, ?_, h.readers_eq⟩
    simp only [hwritten]
    exact h.writers_eq
  | some uri =>
    obtain ⟨hopened, -⟩ := List.getElem?_eq_some_iff.mp huri
    rw [h.writer_eq, huri]
    dsimp only [Option.map_some]
    rw [Store.write_of_isInMemory h.isInMemory]
    refine ⟨h.isInMemory, h.get?_eq, List.ext_getElem? fun w' ↦ ?_, h.readers_eq⟩
    show (s.writers.set w _)[w']? = ((targets past).mapIdx _)[w']?
    rw [List.getElem?_mapIdx]
    by_cases hw : w = w'
    · subst hw
      have hlength : w < s.writers.length := by rwa [h.writers_eq, List.length_mapIdx]
      rw [List.getElem?_set_self hlength, huri, Option.map_some, Act.written,
        if_pos ⟨rfl, hopened⟩]
      rfl
    · rw [List.getElem?_set_ne hw, h.writer_eq, Act.written, if_neg fun hand ↦ hw hand.1]

theorem Follows.flush (h : s.Follows past) (w : Nat) :
    (s.step (.flush w)).Follows (.flush w :: past) := by
  have hpublished : (Act.flush w).published? past =
      (targets past)[w]?.map fun uri ↦ (uri, Act.written w past) := rfl
  rw [step, publish, h.writer_eq]
  cases huri : (targets past)[w]? with
  | none =>
    rw [huri] at hpublished
    refine ⟨h.isInMemory, fun uri ↦ ?_, h.writers_eq, h.readers_eq⟩
    rw [stored?, hpublished]
    exact h.get?_eq uri
  | some uri =>
    rw [huri] at hpublished
    refine ⟨?_, h.put hpublished, h.writers_eq, h.readers_eq⟩
    exact (Store.isInMemory_publish s.store _).trans h.isInMemory

/-- Shutting down publishes as flushing does. -/
theorem Follows.shutdown (h : s.Follows past) (w : Nat) :
    (s.step (.shutdown w)).Follows (.shutdown w :: past) :=
  have hflush := h.flush w
  ⟨hflush.isInMemory, hflush.get?_eq, hflush.writers_eq, hflush.readers_eq⟩

theorem Follows.openForRead (h : s.Follows past) (uri : String) :
    (s.step (.openForRead uri)).Follows (.openForRead uri :: past) := by
  rw [step]
  by_cases huri : Store.memoryScheme <+: uri.toList
  · rw [Store.openForRead_of_isInMemory h.isInMemory huri, h.get?_eq]
    cases hstored : stored? uri past with
    | none =>
      refine ⟨h.isInMemory, h.get?_eq, h.writers_eq, ?_⟩
      rw [snapshots, if_pos huri, hstored, Option.toList_none, List.append_nil]
      exact h.readers_eq
    | some bytes =>
      refine ⟨h.isInMemory, h.get?_eq, h.writers_eq, ?_⟩
      rw [snapshots, if_pos huri, hstored, Option.toList_some, List.map_append, List.map_append,
        h.readers_eq]
      rfl
  · rw [Store.openForRead_of_not_memory h.isInMemory huri]
    refine ⟨h.isInMemory, h.get?_eq, h.writers_eq, ?_⟩
    rw [snapshots, if_neg huri]
    exact h.readers_eq

/-- What a reader fetches goes from what is left of its object to what it got. -/
theorem Follows.fetch (h : s.Follows past) (r : Nat) :
    (s.step (.fetch r)).Follows (.fetch r :: past) := by
  rw [step]
  cases hreading : s.readers[r]? with
  | none => exact ⟨h.isInMemory, h.get?_eq, h.writers_eq, h.readers_eq⟩
  | some reading =>
    obtain ⟨got, source⟩ := reading
    obtain ⟨hr, hget⟩ := List.getElem?_eq_some_iff.mp hreading
    have hwhole : (s.readers.map Reading.whole?)[r]? = some (Reading.whole? ⟨got, source⟩) := by
      rw [List.getElem?_map, hreading]
      rfl
    rw [h.readers_eq, List.getElem?_map] at hwhole
    obtain ⟨bytes, -, hbytes⟩ := Option.map_eq_some_iff.mp hwhole
    obtain ⟨rest, hsource, -⟩ := Reading.exists_rest_of_whole? hbytes.symm
    dsimp only at hsource
    subst hsource
    refine ⟨h.isInMemory, h.get?_eq, h.writers_eq, ?_⟩
    have hsame : Reading.whole? ⟨got ++ rest, .bytes []⟩ = Reading.whole? s.readers[r] := by
      rw [hget]
      exact congrArg some (List.append_nil _)
    have hlength : r < (s.readers.map Reading.whole?).length := by rwa [List.length_map]
    show (s.readers.set r ⟨got ++ rest, .bytes []⟩).map Reading.whole? = _
    rw [List.map_set, hsame, ← List.getElem_map Reading.whole? (h := hlength),
      List.set_getElem_self]
    exact h.readers_eq

/-- Each act leaves a storage in memory as its past says then. -/
theorem Follows.step (h : s.Follows past) (act : Act) : (s.step act).Follows (act :: past) := by
  cases act with
  | put uri bytes =>
    refine ⟨?_, h.put rfl, h.writers_eq, h.readers_eq⟩
    exact (Store.isInMemory_publish s.store ⟨uri, none, bytes⟩).trans h.isInMemory
  | openForWrite uri => exact h.openForWrite uri
  | write w bytes => exact h.write w bytes
  | flush w => exact h.flush w
  | shutdown w => exact h.shutdown w
  | openForRead uri => exact h.openForRead uri
  | fetch r => exact h.fetch r
  | exists? uri => exact ⟨h.isInMemory, h.get?_eq, h.writers_eq, h.readers_eq⟩

/-- A storage in memory after all that was done with it. -/
def inMemory (area : String) (past : List Act) : Sharing := (unused (.inMemory area)).after past

theorem follows_inMemory (area : String) (past : List Act) :
    (inMemory area past).Follows past := by
  induction past with
  | nil => exact ⟨rfl, fun _ ↦ rfl, rfl, rfl⟩
  | cons act past ih => exact ih.step act

theorem Follows.length_readers (h : s.Follows past) :
    s.readers.length = (snapshots past).length := by
  rw [← List.length_map Reading.whole?, h.readers_eq, List.length_map]

/-- Each reader has its snapshot: what it got, and what it has yet to fetch. -/
theorem Follows.exists_reader (h : s.Follows past) {r : Nat} {bytes : List UInt8}
    (hr : (snapshots past)[r]? = some bytes) :
    ∃ got rest, got ++ rest = bytes ∧ s.readers[r]? = some ⟨got, .bytes rest⟩ := by
  obtain ⟨reading, hreading, hwhole⟩ : ∃ reading, s.readers[r]? = some reading ∧
      reading.whole? = some bytes := by
    rw [← Option.map_eq_some_iff, ← List.getElem?_map, h.readers_eq, List.getElem?_map, hr]
    rfl
  obtain ⟨got, source⟩ := reading
  obtain ⟨rest, rfl, hrest⟩ := Reading.exists_rest_of_whole? hwhole
  exact ⟨got, rest, hrest, hreading⟩

/-- What a reader of bytes fetches is all that is left of them, and then it has everything. -/
theorem readers_step_fetch {r : Nat} {got rest : List UInt8}
    (hr : s.readers[r]? = some ⟨got, .bytes rest⟩) :
    s.store.fetch (.bytes rest) = .ok (rest, .bytes []) ∧
      (s.step (.fetch r)).readers[r]? = some ⟨got ++ rest, .bytes []⟩ := by
  obtain ⟨hlength, -⟩ := List.getElem?_eq_some_iff.mp hr
  refine ⟨rfl, ?_⟩
  rw [step, hr]
  exact List.getElem?_set_self hlength

/-- An object in memory is always whole: under each URI stands what was published there last, which
is what was put there or all that a writer had written by then.  It is what is found and read under
the URI, and an act that publishes nothing there leaves it.  A reader that opens it has all of it,
whatever is done later: whenever the reader fetches, it is given what it did not get yet, and has
the whole object from then on. -/
theorem published_whole (area : String) (past : List Act) :
    (∀ uri, (inMemory area past).store.get? uri = stored? uri past) ∧
    (∀ uri, Store.memoryScheme <+: uri.toList →
      (inMemory area past).store.exists? uri = .ok (stored? uri past).isSome ∧
      (inMemory area past).store.read uri = match stored? uri past with
        | none => .error (.notFound uri)
        | some bytes => .ok bytes) ∧
    (∀ act uri, (∀ bytes, act.published? past ≠ some (uri, bytes)) →
      (inMemory area (act :: past)).store.get? uri = (inMemory area past).store.get? uri) ∧
    ∀ uri bytes, Store.memoryScheme <+: uri.toList → stored? uri past = some bytes → ∀ later,
      let r := (inMemory area past).readers.length
      let s := inMemory area (later ++ .openForRead uri :: past)
      ∃ reading next left, s.readers[r]? = some reading ∧
        s.store.fetch reading.source = .ok (next, left) ∧ reading.got ++ next = bytes ∧
        (inMemory area (.fetch r :: later ++ .openForRead uri :: past)).readers[r]? =
          some ⟨bytes, left⟩ := by
  have h := follows_inMemory area past
  refine ⟨h.get?_eq, fun uri huri ↦ ⟨?_, ?_⟩, fun act uri hact ↦ ?_, ?_⟩
  · rw [Store.exists?_of_isInMemory h.isInMemory huri, h.get?_eq]
  · rw [Store.read, Store.openForRead_of_isInMemory h.isInMemory huri, h.get?_eq]
    cases stored? uri past <;> rfl
  · rw [(follows_inMemory area (act :: past)).get?_eq, h.get?_eq, stored?_cons_of_ne hact]
  · intro uri bytes huri hstored later r s
    have hr : (snapshots (later ++ .openForRead uri :: past))[
        (inMemory area past).readers.length]? = some bytes := by
      obtain ⟨more, hmore⟩ := snapshots_append later (.openForRead uri :: past)
      rw [hmore, snapshots, if_pos huri, hstored, h.length_readers, List.append_assoc,
        List.getElem?_append_right (Nat.le_refl _), Nat.sub_self]
      rfl
    obtain ⟨got, rest, rfl, hreading⟩ := (follows_inMemory area _).exists_reader hr
    obtain ⟨hfetch, hfetched⟩ := readers_step_fetch hreading
    exact ⟨_, rest, _, hreading, hfetch, rfl, hfetched⟩

/-- Two writers of one object wrote to it, and the first one flushed. -/
def flushedOnce : List Act :=
  [.flush 0, .write 1 [2], .write 0 [1], .openForWrite "memory://raw/a",
    .openForWrite "memory://raw/a"]

/-- A reader that opens the object then and fetches has what the first writer wrote, also once the
second one has flushed. -/
theorem published_whole_flushedOnce :
    (∃ left, (inMemory "raw" (.fetch 0 :: .flush 1 :: .openForRead "memory://raw/a" ::
      flushedOnce)).readers[0]? = some ⟨[1], left⟩) ∧
    (inMemory "raw" (.flush 1 :: .openForRead "memory://raw/a" :: flushedOnce)).store.get?
      "memory://raw/a" = some [2] := by
  obtain ⟨reading, next, left, -, -, -, hfetched⟩ :=
    (published_whole "raw" flushedOnce).2.2.2 "memory://raw/a" [1] (by decide) (by decide)
      [.flush 1]
  have hstored := (published_whole "raw"
    (.flush 1 :: .openForRead "memory://raw/a" :: flushedOnce)).1 "memory://raw/a"
  exact ⟨⟨left, hfetched⟩, hstored.trans (by decide)⟩

end Sharing

end Interchange.Storage
