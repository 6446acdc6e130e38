import Interchange.Proofs.Lines
import Interchange.Session

/-!
# What streams deliver

Pulling an item of a stream changes nothing but the stream's source, and what comes only depends on
the source, the stored objects and the marks.  So what a stream delivers from now on is settled:
some items, and then nothing more or a failure.  After either the stream is over.
-/

namespace Interchange

open Session Attempt

namespace Source

/-- What a source gives next, and what is left of it, given the stored objects and the marks under
which work is cancelled. -/
def next (onWorker : Bool) (store : Storage.Store) (cancelled : Option String → Bool) :
    Source → Except Fault (Option Value) × Source
  | .over | items [] => (.ok none, .over)
  | items (.error e :: _) => (.error e, .over)
  | items (.ok v :: rest) => (.ok (some v), items rest)
  | lines reader place read =>
    if onWorker then (.error .workerReentry, .over)
    else if cancelled place.token then (.error .cancelled, .over)
    else match reader.nextLine? store with
      | .error e => (.error (.storage e), .over)
      | .ok (none, _) => (.ok none, .over)
      | .ok (some line, reader) => match Json.ofText? line with
        | none => (.error (.malformedDocument (place.path.child (.index read))), .over)
        | some j => (.ok (some (.ofJson j)), lines reader place (read + 1))

section

variable {store : Storage.Store} {cancelled : Option String → Bool} {reader reader' : LineReader}
  {place : Place} {line : List Char} {j : Json} (read : Nat)

theorem next_lines_of_none (hmark : cancelled place.token = false)
    (hline : reader.nextLine? store = .ok (none, reader')) :
    (lines reader place read).next false store cancelled = (.ok none, .over) := by
  simp [next, hmark, hline]

theorem next_lines_of_document (hmark : cancelled place.token = false)
    (hline : reader.nextLine? store = .ok (some line, reader')) (hj : Json.ofText? line = some j) :
    (lines reader place read).next false store cancelled =
      (.ok (some (.ofJson j)), lines reader' place (read + 1)) := by
  simp [next, hmark, hline, hj]

theorem next_lines_of_malformed (hmark : cancelled place.token = false)
    (hline : reader.nextLine? store = .ok (some line, reader')) (hj : Json.ofText? line = none) :
    (lines reader place read).next false store cancelled =
      (.error (.malformedDocument (place.path.child (.index read))), .over) := by
  simp [next, hmark, hline, hj]

end

end Source

namespace Session

variable {s : Session} {id : Nat} {source source' : Source}

@[simp] theorem store_setSource : (s.setSource id source).store = s.store := rfl

@[simp] theorem length_streams_setSource :
    (s.setSource id source).streams.length = s.streams.length := List.length_set

theorem setSource_setSource :
    (s.setSource id source).setSource id source' = s.setSource id source' := by
  simp [setSource, List.set_set]

theorem source_setSource : (s.setSource id source).source id =
    if id < s.streams.length then source else .over := by
  unfold Session.source setSource
  dsimp only
  split
  · next h =>
    rw [List.getElem?_set_self h]
    rfl
  · next h => simp [h]

theorem source_setSource_self (h : id < s.streams.length) :
    (s.setSource id source).source id = source := by
  rw [source_setSource, if_pos h]

theorem run_lookStore {α : Type} (look : Storage.Store → Except Storage.Fault α) :
    (lookStore look).run s = ((look s.store).mapError .storage, s) := rfl

/-- The next document is that of the next line, and the stream goes on after it. -/
theorem run_nextDocument (reader : LineReader) (place : Place) (read : Nat) :
    (nextDocument reader place read id).run (s.setSource id .over) =
      (((Source.lines reader place read).next false s.store fun _ ↦ false).1,
        s.setSource id ((Source.lines reader place read).next false s.store fun _ ↦ false).2) := by
  rw [nextDocument, run_bind, run_lookStore, store_setSource]
  simp only [Source.next]
  rcases reader.nextLine? s.store with e | ⟨_ | line, reader⟩
  · rfl
  · rfl
  · dsimp only [Except.mapError]
    cases Json.ofText? line with
    | none => rfl
    | some j =>
      rw [run_bind_of_ok (run_modify _ _), setSource_setSource]
      rfl

/-- Pulling an item takes it from the source of the stream, and changes nothing else. -/
theorem run_pull (onWorker : Bool) : (pull onWorker id).run s =
    (((s.source id).next onWorker s.store s.isCancelled).1,
      s.setSource id ((s.source id).next onWorker s.store s.isCancelled).2) := by
  rw [pull, run_bind_of_ok (run_get s), run_bind_of_ok (run_modify _ s)]
  generalize s.source id = source
  rcases source with (_ | ⟨e | v, rest⟩) | ⟨reader, place, read⟩ | _
  · rfl
  · rfl
  · rw [run_bind_of_ok (run_modify _ _), setSource_setSource]
    rfl
  · cases onWorker with
    | true => rfl
    | false =>
      show ((get : Conversion Session) >>= _).run (s.setSource id .over) = _
      rw [run_bind_of_ok (run_get _)]
      have hmark : (s.setSource id .over).isCancelled place.token = s.isCancelled place.token := rfl
      rw [hmark, Source.next]
      cases s.isCancelled place.token with
      | true => rfl
      | false => exact run_nextDocument reader place read
  · rfl

/-! ## What is delivered -/

/-- A stream delivers these items, one pull after the other, and then nothing more or a failure;
after that it is over. -/
inductive Delivers (id : Nat) : List Value → Option Fault → Session → Prop
  | ends {s s' : Session} (h : (pull false id).run s = (.ok none, s')) (hs : s'.source id = .over) :
    Delivers id [] none s
  | fails {s s' : Session} {f : Fault} (h : (pull false id).run s = (.error f, s'))
    (hs : s'.source id = .over) : Delivers id [] (some f) s
  | item {s s' : Session} {v : Value} {vs : List Value} {f : Option Fault}
    (h : (pull false id).run s = (.ok (some v), s')) (rest : Delivers id vs f s') :
    Delivers id (v :: vs) f s

variable {s' : Session} {vs : List Value} {v : Value} {f : Option Fault}

theorem run_pull_eq_iff {outcome : Except Fault (Option Value)} :
    (pull false id).run s = (outcome, s') ↔ ∃ source,
      (s.source id).next false s.store s.isCancelled = (outcome, source) ∧
        s' = s.setSource id source := by
  rw [run_pull]
  constructor
  · rintro ⟨⟩
    exact ⟨_, rfl, rfl⟩
  · rintro ⟨source, h, rfl⟩
    rw [h]

/-- A stream that is over delivers nothing. -/
theorem delivers_of_over (h : s.source id = .over) : Delivers id [] none s := by
  have hnext : (s.source id).next false s.store s.isCancelled = (.ok none, .over) := by rw [h]; rfl
  refine .ends (run_pull_eq_iff.mpr ⟨_, hnext, rfl⟩) ?_
  rw [source_setSource]
  split <;> rfl

/-- What a stream delivers is settled. -/
theorem Delivers.unique {vs' : List Value} {f' : Option Fault} (h : Delivers id vs f s)
    (h' : Delivers id vs' f' s) : vs = vs' ∧ f = f' := by
  induction h generalizing vs' f' with
  | ends hrun =>
    cases h' with
    | ends => exact ⟨rfl, rfl⟩
    | fails hrun' | item hrun' => cases hrun.symm.trans hrun'
  | fails hrun =>
    cases h' with
    | fails hrun' =>
      cases hrun.symm.trans hrun'
      exact ⟨rfl, rfl⟩
    | ends hrun' | item hrun' => cases hrun.symm.trans hrun'
  | item hrun _ ih =>
    cases h' with
    | item hrun' rest =>
      cases hrun.symm.trans hrun'
      obtain ⟨rfl, rfl⟩ := ih rest
      exact ⟨rfl, rfl⟩
    | ends hrun' | fails hrun' => cases hrun.symm.trans hrun'

/-- What is delivered only depends on the streams, the stored objects and the marks. -/
theorem Delivers.congr {t : Session} (h : Delivers id vs f s) (hstreams : t.streams = s.streams)
    (hstore : t.store = s.store) (hmarks : t.marks = s.marks) : Delivers id vs f t := by
  -- the same source is there, and it gives the same
  have hpull {t s s' : Session} {outcome : Except Fault (Option Value)}
      (hstreams : t.streams = s.streams) (hstore : t.store = s.store) (hmarks : t.marks = s.marks)
      (hrun : (pull false id).run s = (outcome, s')) : ∃ t', (pull false id).run t = (outcome, t') ∧
        t'.streams = s'.streams ∧ t'.store = s'.store ∧ t'.marks = s'.marks := by
    obtain ⟨source, hnext, rfl⟩ := run_pull_eq_iff.mp hrun
    refine ⟨t.setSource id source, run_pull_eq_iff.mpr ⟨source, ?_, rfl⟩, ?_, hstore, hmarks⟩
    · have hsource : t.source id = s.source id := by rw [Session.source, hstreams]; rfl
      have hcancelled : t.isCancelled = s.isCancelled := by
        funext token
        rw [isCancelled, isCancelled, mark?, mark?, hmarks]
      rw [hsource, hcancelled, hstore]
      exact hnext
    · simp only [setSource, hstreams]
  induction h generalizing t with
  | ends hrun hs =>
    obtain ⟨t', hrun', hstreams', -, -⟩ := hpull hstreams hstore hmarks hrun
    exact .ends hrun' (by rw [Session.source, hstreams']; exact hs)
  | fails hrun hs =>
    obtain ⟨t', hrun', hstreams', -, -⟩ := hpull hstreams hstore hmarks hrun
    exact .fails hrun' (by rw [Session.source, hstreams']; exact hs)
  | item hrun _ ih =>
    obtain ⟨t', hrun', hstreams', hstore', hmarks'⟩ := hpull hstreams hstore hmarks hrun
    exact .item hrun' (ih hstreams' hstore' hmarks')

theorem lt_of_source_ne_over (h : s.source id ≠ .over) : id < s.streams.length := by
  refine Nat.lt_of_not_le fun hge ↦ h ?_
  rw [Session.source, List.getElem?_eq_none hge]
  rfl

/-- A pull that gives an item leaves fewer of them. -/
theorem remaining_lt_of_pull (h : (pull false id).run s = (.ok (some v), s')) :
    s'.remaining id < s.remaining id := by
  obtain ⟨source, hnext, rfl⟩ := run_pull_eq_iff.mp h
  have hid : id < s.streams.length := by
    apply lt_of_source_ne_over
    intro hover
    rw [hover] at hnext
    cases hnext
  unfold remaining
  rw [source_setSource_self hid, store_setSource]
  rcases hsource : s.source id with rest | ⟨reader, place, read⟩ | _
  · rw [hsource] at hnext
    rcases rest with _ | ⟨e | v, rest⟩ <;> cases hnext
    exact Nat.lt_succ_self _
  · rw [hsource, Source.next, if_neg Bool.false_ne_true] at hnext
    split at hnext
    · cases hnext
    · split at hnext
      · cases hnext
      · cases hnext
      · next line reader' hline =>
        obtain ⟨n, n', hsize, hsize', hlt⟩ := LineReader.size_of_nextLine? hline
        split at hnext <;> cases hnext
        dsimp only
        rw [hsize, hsize']
        exact hlt
  · rw [hsource] at hnext
    cases hnext

/-- A stream delivers no more items than it can still give. -/
theorem Delivers.length_le (h : Delivers id vs f s) : vs.length ≤ s.remaining id := by
  induction h with
  | ends | fails => exact Nat.zero_le _
  | item hrun _ ih => exact Nat.succ_le_of_lt (Nat.lt_of_le_of_lt ih (remaining_lt_of_pull hrun))

/-- Pulling so many items gives the first ones, and the others are left. -/
theorem Delivers.run_pullUpTo (h : Delivers id vs none s) (n : Nat) : ∃ s',
    (pullUpTo false id n).run s = (.ok (vs.take n), s') ∧ Delivers id (vs.drop n) none s' ∧
      s'.store = s.store ∧ s'.minted = s.minted := by
  induction n generalizing s vs with
  | zero => exact ⟨s, rfl, h, rfl, rfl⟩
  | succ n ih =>
    cases h with
    | ends hrun hs =>
      rw [pullUpTo, run_bind_of_ok hrun]
      obtain ⟨_, -, rfl⟩ := run_pull_eq_iff.mp hrun
      exact ⟨_, rfl, delivers_of_over hs, rfl, rfl⟩
    | item hrun rest =>
      obtain ⟨s'', hothers, hrest, hstore, hminted⟩ := ih rest
      rw [pullUpTo, run_bind_of_ok hrun]
      dsimp only
      rw [run_bind_of_ok hothers]
      obtain ⟨_, -, rfl⟩ := run_pull_eq_iff.mp hrun
      exact ⟨_, rfl, hrest, hstore, hminted⟩

/-! ## Pulls while objects are written -/

theorem next_of_keeps {store store' : Storage.Store} {cancelled : Option String → Bool}
    {item : Option Value} (hstore : store.Keeps store')
    (h : source.next false store cancelled = (.ok item, source')) :
    source.next false store' cancelled = (.ok item, source') := by
  rcases source with (_ | ⟨e | v, rest⟩) | ⟨reader, place, read⟩ | _
  · exact h
  · exact h
  · exact h
  · rw [Source.next, if_neg Bool.false_ne_true] at h ⊢
    split
    · next hmark =>
      rw [if_pos hmark] at h
      cases h
    · next hmark =>
      rw [if_neg hmark] at h
      cases hline : reader.nextLine? store with
      | error e =>
        rw [hline] at h
        cases h
      | ok outcome =>
        rw [hline] at h
        rw [LineReader.nextLine?_of_keeps hstore hline]
        exact h
  · exact h

/-- A pull that does not fail comes to the same where everything that can be read is the same. -/
theorem run_pull_of_keeps {store : Storage.Store} {item : Option Value}
    (hstore : s.store.Keeps store) (h : (pull false id).run s = (.ok item, s')) :
    (pull false id).run { s with store } = (.ok item, { s' with store }) := by
  obtain ⟨source, hnext, rfl⟩ := run_pull_eq_iff.mp h
  exact run_pull_eq_iff.mpr ⟨source, next_of_keeps hstore hnext, rfl⟩

theorem run_pullUpTo_of_keeps {store : Storage.Store} {n : Nat} {items : List Value}
    (hstore : s.store.Keeps store) (h : (pullUpTo false id n).run s = (.ok items, s')) :
    (pullUpTo false id n).run { s with store } = (.ok items, { s' with store }) := by
  induction n generalizing s items with
  | zero =>
    cases h
    rfl
  | succ n ih =>
    obtain ⟨item, s₁, hrun, h⟩ := run_bind_eq_ok.mp h
    have hstore₁ : s₁.store.Keeps store := by
      obtain ⟨_, -, rfl⟩ := run_pull_eq_iff.mp hrun
      exact hstore
    rw [pullUpTo, run_bind_of_ok (run_pull_of_keeps hstore hrun)]
    cases item with
    | none =>
      cases h
      rfl
    | some v =>
      obtain ⟨vs, s₂, hothers, h⟩ := run_bind_eq_ok.mp h
      cases h
      dsimp only
      rw [run_bind_of_ok (ih hstore₁ hothers)]
      rfl

/-! ## Pulls in a row -/

/-- What so many pulls in a row give. -/
def pulls (id : Nat) : Nat → Session → List (Except Fault (Option Value))
  | 0, _ => []
  | n + 1, s => ((pull false id).run s).1 :: pulls id n ((pull false id).run s).2

theorem pulls_succ {outcome : Except Fault (Option Value)}
    (h : (pull false id).run s = (outcome, s')) (n : Nat) :
    pulls id (n + 1) s = outcome :: pulls id n s' := by
  rw [pulls, h]

/-- A stream that is over stays over. -/
theorem pulls_of_over (h : s.source id = .over) (n : Nat) :
    pulls id n s = List.replicate n (.ok none) := by
  induction n generalizing s with
  | zero => rfl
  | succ n ih =>
    cases delivers_of_over h with
    | ends hrun hs => rw [pulls_succ hrun, ih hs, List.replicate_succ]

/-- How a stream ends: with nothing more, or a failure. -/
def ending : Option Fault → Except Fault (Option Value)
  | none => .ok none
  | some f => .error f

/-- Pulls give the items in order and then how the stream ends, once; every later pull gives nothing
more. -/
theorem Delivers.pulls_eq (h : Delivers id vs f s) (n : Nat) :
    pulls id (vs.length + 1 + n) s =
      vs.map (fun v ↦ .ok (some v)) ++ ending f :: List.replicate n (.ok none) := by
  induction h with
  | ends hrun hs | fails hrun hs =>
    rw [List.length_nil, Nat.zero_add, Nat.add_comm, pulls_succ hrun, pulls_of_over hs]
    rfl
  | @item s s' v vs f hrun _ ih =>
    have hlength : (v :: vs).length + 1 + n = (vs.length + 1 + n) + 1 := by
      rw [List.length_cons]
      omega
    rw [hlength, pulls_succ hrun, ih]
    rfl

end Session

end Interchange
