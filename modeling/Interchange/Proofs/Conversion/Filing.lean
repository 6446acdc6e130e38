import Interchange.Proofs.Conversion.Storing
import Interchange.Proofs.Json.Value
import Interchange.Proofs.Streams

/-!
# What is filed as JSON lines

Where a list or a stream is stored with success, all its items have JSON values, and the object
under the new URI is just their lines, one after the other.  Into how many chunks the items of a
stream come makes no difference.

A stream may read another object of the same store while its items are written.  What is written so
far does not change what it gives, unless the new URI is one of an object that is there.
-/

namespace Interchange

open Session Attempt

/-- A list gives its items, and a stream those that it delivers if it does not fail. -/
inductive Session.Gives (s : Session) : Value → List Value → Prop
  | list (items : List Value) : Gives s (.list items) items
  | stream {id : Nat} {items : List Value} (h : Delivers id items none s) :
    Gives s (.stream id) items

namespace JsonLines

/-- The lines of JSON values. -/
def linesOf (js : List Json) : List UInt8 :=
  js.flatMap fun j ↦ Text.bytes (String.ofList (j.text ++ ['\n']))

theorem linesOf_append (js ks : List Json) : linesOf (js ++ ks) = linesOf js ++ linesOf ks :=
  List.flatMap_append

/-- The URI under which the next stream is stored. -/
def nextUri (s : Session) : String := s.store.newUri (segment (s.minted + 1)) hint

variable {s s' : Session} {base : Storage.Store} {path : Path} {d d' : Storage.Draft}
  {vs ws : List Value} {i : Nat} {next : Conversion (List Value)} {fuel : Nat} {place : Place}
  {v : Value} {l : Literal}

/-! ## Writing lines -/

theorem run_writeBytes_filled (hs : s.store = base.filled d) (bytes : List UInt8) :
    (writeBytes d bytes).run s =
      (.ok (d.append bytes), { s with store := base.filled (d.append bytes) }) := by
  rw [writeBytes, run_bind_of_ok (run_get s), hs, Storage.Store.write_filled]
  rfl

theorem run_writeBytes (hs : s.store.isInMemory = true) (d : Storage.Draft) (bytes : List UInt8) :
    (writeBytes d bytes).run s = (.ok (d.append bytes), s) := by
  have hfilled := Storage.Store.filled_of_isInMemory hs
  rw [run_writeBytes_filled (hfilled d).symm, hfilled]

/-- Items that are written have JSON values, and what is written are their lines. -/
theorem of_run_writeItems (hs : s.store = base.filled d)
    (h : (writeItems path d i vs).run s = (.ok d', s')) :
    ∃ js, Value.itemsToJson path i vs = .ok js ∧ d' = d.append (linesOf js) ∧
      s' = { s with store := base.filled d' } := by
  induction vs generalizing s d i with
  | nil =>
    cases h
    refine ⟨[], rfl, (Storage.Draft.append_nil _).symm, ?_⟩
    rw [← hs]
  | cons v vs ih =>
    obtain ⟨bytes, hline, h⟩ := run_ofExcept_bind_eq_ok.mp h
    rw [run_bind_of_ok (run_writeBytes_filled hs bytes)] at h
    obtain ⟨js, hjs, rfl, rfl⟩ := ih rfl h
    rw [line_eq] at hline
    obtain ⟨j, hj, rfl⟩ := map_eq_ok.mp hline
    refine ⟨j :: js, ?_, ?_, rfl⟩
    · rw [Value.itemsToJson, hj, ok_bind, hjs]
      rfl
    · rw [Storage.Draft.append_append]
      rfl

theorem itemsToJson_append {js ks : List Json} (hjs : Value.itemsToJson path i vs = .ok js)
    (hks : Value.itemsToJson path (i + vs.length) ws = .ok ks) :
    Value.itemsToJson path i (vs ++ ws) = .ok (js ++ ks) := by
  induction vs generalizing i js with
  | nil =>
    cases hjs
    exact hks
  | cons v vs ih =>
    obtain ⟨j, hj, h⟩ := bind_eq_ok.mp hjs
    obtain ⟨others, hothers, h⟩ := bind_eq_ok.mp h
    cases h
    have hall : Value.itemsToJson path (i + 1) (vs ++ ws) = .ok (others ++ ks) := by
      apply ih hothers
      rw [Nat.add_right_comm]
      exact hks
    rw [List.cons_append, Value.itemsToJson, hj, ok_bind, hall]
    rfl

/-- A step takes chunks off the items that are left, and stores nothing, whatever was written to a
draft that was opened when these objects were stored. -/
structure Supplies (base : Storage.Store) (d : Storage.Draft) (next : Conversion (List Value))
    (left : List Value → Session → Prop) : Prop where
  run_next : ∀ {vs s} (bytes : List UInt8), left vs s → s.store = base.filled (d.append bytes) →
    ∃ n s', 0 < n ∧ next.run s = (.ok (vs.take n), s') ∧ left (vs.drop n) s' ∧ s'.store = s.store
  /-- Writing to a draft leaves what is left. -/
  of_write : ∀ {vs s} (d : Storage.Draft), left vs s → left vs { s with store := base.filled d }

/-- All that is left is written, whatever the chunks. -/
theorem of_run_writeChunks {left : List Value → Session → Prop} {written : List UInt8}
    (hnext : Supplies base d next left) (hleft : left vs s)
    (hs : s.store = base.filled (d.append written)) (hfuel : vs.length ≤ fuel)
    (h : (writeChunks path next fuel (d.append written) i).run s = (.ok d', s')) :
    ∃ js, Value.itemsToJson path i vs = .ok js ∧ d' = d.append (written ++ linesOf js) ∧
      s'.store = base.filled d' := by
  induction fuel generalizing vs s written i with
  | zero =>
    obtain rfl := List.eq_nil_of_length_eq_zero (Nat.le_zero.mp hfuel)
    cases h
    exact ⟨[], rfl, congrArg d.append (List.append_nil written).symm, hs⟩
  | succ fuel ih =>
    obtain ⟨n, s₁, hn, hrun, hleft, hstore⟩ := hnext.run_next written hleft hs
    rw [writeChunks, run_bind_of_ok hrun] at h
    cases vs with
    | nil =>
      rw [List.take_nil] at h
      cases h
      exact ⟨[], rfl, congrArg d.append (List.append_nil written).symm, hstore.trans hs⟩
    | cons v vs =>
      obtain ⟨n, rfl⟩ : ∃ m, n = m + 1 := ⟨n - 1, (Nat.sub_add_cancel hn).symm⟩
      obtain ⟨d₁, s₂, hitems, h⟩ := run_bind_eq_ok.mp h
      obtain ⟨js, hjs, rfl, rfl⟩ := of_run_writeItems (hstore.trans hs) hitems
      have hshorter : ((v :: vs).drop (n + 1)).length ≤ fuel := by
        rw [List.length_drop]
        rw [List.length_cons] at hfuel ⊢
        omega
      rw [Storage.Draft.append_append] at h
      obtain ⟨ks, hks, rfl, hstore'⟩ := ih (hnext.of_write _ hleft) rfl hshorter h
      refine ⟨js ++ ks, ?_, ?_, hstore'⟩
      · rw [← List.take_append_drop (n + 1) (v :: vs)]
        exact itemsToJson_append hjs hks
      · rw [linesOf_append, List.append_assoc]

/-! ## Storing items -/

theorem of_run_openForWrite {uri : String}
    (h : (onStore (Storage.Store.openForWrite uri)).run s = (.ok d, s')) :
    ∃ base, Storage.Store.Opens uri s.store d base ∧ s' = { s with store := base } := by
  rw [onStore, run_mapError, run_focus] at h
  obtain ⟨hd, rfl⟩ := Prod.mk.inj h
  cases houtcome : ((Storage.Store.openForWrite uri).run s.store).1 with
  | error e =>
    rw [houtcome] at hd
    cases hd
  | ok d' =>
    rw [houtcome] at hd
    cases hd
    exact ⟨_, Storage.Store.opens_of_run (Prod.ext houtcome rfl), rfl⟩

/-- In memory a new URI is one that can be written to. -/
theorem run_openForWrite_newUri (hs : s.store.isInMemory = true) (segment hint : String) :
    (onStore (Storage.Store.openForWrite (s.store.newUri segment hint))).run s =
      (.ok ⟨s.store.newUri segment hint, none, []⟩, s) := by
  have hcheck := Storage.Store.checkMemory_newUri hs segment hint
  generalize s.store.newUri segment hint = uri at hcheck ⊢
  have hopen : (Storage.Store.openForWrite uri).run s.store = (.ok ⟨uri, none, []⟩, s.store) := by
    cases hmedium : s.store.medium with
    | memory objects =>
      dsimp only [Storage.Store.openForWrite, Attempt.run]
      rw [hmedium, hcheck]
      rfl
    | files root tree =>
      rw [Storage.Store.isInMemory, hmedium] at hs
      cases hs
  rw [onStore, run_mapError, run_focus, hopen]
  rfl

/-- Objects are stored after others: one more, under the URI that was made, with the lines of these
JSON values. -/
def Files (s : Session) (l : Literal) (js : List Json) (store : Storage.Store) : Prop :=
  l = .blob ⟨nextUri s, blobType⟩ ∧ ∃ d base, Storage.Store.Opens (nextUri s) s.store d base ∧
    store = (base.filled (d.append (linesOf js))).publish (d.append (linesOf js))

theorem Files.congr {s₁ : Session} {js : List Json} {store : Storage.Store}
    (h : Files s₁ l js store) (hstore : s₁.store = s.store) (hminted : s₁.minted = s.minted) :
    Files s l js store := by
  have huri : nextUri s₁ = nextUri s := by rw [nextUri, nextUri, hstore, hminted]
  obtain ⟨hl, d, base, opens, hwritten⟩ := h
  rw [huri] at hl opens
  rw [hstore] at opens
  exact ⟨hl, d, base, opens, hwritten⟩

/-- What is stored with success are the lines of all items, those at hand and those that are left,
as one object under a new URI. -/
theorem of_run_store {left : List Value → Session → Prop}
    (hnext : ∀ {d base}, Storage.Store.Opens (nextUri s) s.store d base →
      Supplies base d next left ∧ left ws { s with store := base, minted := s.minted + 1 })
    (hfuel : ws.length ≤ fuel) (h : (store path next fuel vs).run s = (.ok l, s')) :
    ∃ js, Value.itemsToJson path 0 (vs ++ ws) = .ok js ∧ Files s l js s'.store := by
  cases vs with
  | nil => cases h
  | cons v vs =>
    have huri : (newUri hint).run s = (.ok (nextUri s), { s with minted := s.minted + 1 }) := rfl
    obtain ⟨first, hfirst, h⟩ := run_ofExcept_bind_eq_ok.mp h
    rw [run_bind_of_ok huri] at h
    obtain ⟨d, s₂, hopen, h⟩ := run_bind_eq_ok.mp h
    obtain ⟨base, opens, rfl⟩ := of_run_openForWrite hopen
    obtain ⟨hsupplies, hleft⟩ := hnext opens
    rw [run_bind_of_ok (run_writeBytes_filled opens.filled_self.symm first)] at h
    obtain ⟨d₁, s₃, hitems, h⟩ := run_bind_eq_ok.mp h
    obtain ⟨js, hjs, rfl, rfl⟩ := of_run_writeItems rfl hitems
    rw [Storage.Draft.append_append] at h
    obtain ⟨d₂, s₄, hchunks, h⟩ := run_bind_eq_ok.mp h
    obtain ⟨ks, hks, rfl, hstore⟩ :=
      of_run_writeChunks hsupplies (hsupplies.of_write _ hleft) rfl hfuel hchunks
    cases h
    rw [line_eq] at hfirst
    obtain ⟨j, hj, rfl⟩ := map_eq_ok.mp hfirst
    have hlines : linesOf (j :: (js ++ ks)) =
        Text.bytes (String.ofList (j.text ++ ['\n'])) ++ linesOf js ++ linesOf ks := by
      rw [List.append_assoc, ← linesOf_append]
      rfl
    refine ⟨j :: (js ++ ks), ?_, rfl, d, base, opens, ?_⟩
    · have hothers : Value.itemsToJson path (0 + 1) (vs ++ ws) = .ok (js ++ ks) := by
        apply itemsToJson_append hjs
        rw [Nat.add_comm _ vs.length]
        exact hks
      rw [List.cons_append, Value.itemsToJson, hj, ok_bind, hothers]
      rfl
    · rw [hlines, ← hstore]

theorem supplies_pure_nil (base : Storage.Store) (d : Storage.Draft) :
    Supplies base d (pure []) fun ws _ ↦ ws = [] where
  run_next := by
    rintro ws s bytes rfl -
    exact ⟨1, s, Nat.one_pos, rfl, rfl, rfl⟩
  of_write _ h := h

/-- Items of a stream are supplied as if nothing were written meanwhile. -/
theorem supplies_pullUpTo {store : Storage.Store}
    (hkeeps : ∀ bytes, store.Keeps (base.filled (d.append bytes))) (id : Nat) :
    Supplies base d (pullUpTo false id chunk) fun ws s ↦ Delivers id ws none { s with store } where
  run_next := by
    intro ws s bytes hws hs
    obtain ⟨s', hrun, hrest, hstore, -⟩ := hws.run_pullUpTo chunk
    have hrun' := run_pullUpTo_of_keeps (s := { s with store }) (hkeeps bytes) hrun
    rw [← hs] at hrun'
    have hrest' : Delivers id (ws.drop chunk) none { s' with store } := by
      obtain rfl : s'.store = store := hstore
      exact hrest
    exact ⟨chunk, { s' with store := s.store }, by decide, hrun', hrest', rfl⟩
  of_write _ h := h

/-- What is encoded with success is filed, all of it. -/
theorem of_run_encode {items : List Value} (hv : s.Gives v items)
    (fresh : ∀ id, v = .stream id → s.store.Fresh (nextUri s))
    (h : (encode place v).run s = (.ok l, s')) :
    ∃ js, Value.itemsToJson place.path 0 items = .ok js ∧ Files s l js s'.store := by
  cases hv with
  | list =>
    have hfiles := of_run_store (fun _ ↦ ⟨supplies_pure_nil _ _, rfl⟩) (Nat.le_refl _) h
    rwa [List.append_nil] at hfiles
  | @stream id _ hid =>
    obtain ⟨s₁, hrun, hrest, hstore, hminted⟩ := hid.run_pullUpTo chunk
    rw [encode, run_bind_of_ok (run_get s), run_bind_of_ok hrun] at h
    have hfuel : (items.drop chunk).length ≤ s.remaining id := by
      rw [List.length_drop]
      exact Nat.le_trans (Nat.sub_le _ _) hid.length_le
    have huri : nextUri s₁ = nextUri s := by rw [nextUri, nextUri, hstore, hminted]
    have fresh₁ : s₁.store.Fresh (nextUri s₁) := by
      rw [huri, hstore]
      exact fresh id rfl
    obtain ⟨js, hjs, hfiles⟩ := of_run_store (s := s₁) (fun opens ↦
      ⟨supplies_pullUpTo (opens.keeps fresh₁) id, hrest.congr rfl rfl rfl⟩) hfuel h
    rw [List.take_append_drop] at hjs
    exact ⟨js, hjs, hfiles.congr hstore hminted⟩

/-- An object in memory holds the lines of these JSON values, and this literal refers to it. -/
def Filed (s : Session) (l : Literal) (js : List Json) : Prop :=
  ∃ uri, l = .blob ⟨uri, blobType⟩ ∧ Storage.Store.checkMemory uri = .ok () ∧
    s.store.get? uri = some (linesOf js)

theorem Files.filed {js : List Json} (hs : s.store.isInMemory = true)
    (h : Files s l js s'.store) : Filed s' l js := by
  obtain ⟨rfl, d, base, opens, hstore⟩ := h
  obtain ⟨rfl, rfl, hcheck⟩ := opens.of_isInMemory hs
  rw [Storage.Store.filled_of_isInMemory hs] at hstore
  refine ⟨_, rfl, hcheck, ?_⟩
  rw [hstore]
  exact Storage.Store.get?_put hs _ _

/-- The object that is filed is there to be read. -/
theorem Files.read {js : List Json} {store : Storage.Store} (h : Files s l js store) :
    store.read (nextUri s) = .ok (linesOf js) := by
  obtain ⟨-, d, base, opens, rfl⟩ := h
  exact opens.read_publish _

end JsonLines

end Interchange
