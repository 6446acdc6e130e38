import Interchange.Proofs.Conversion.Encoding
import Interchange.Proofs.Storage.Store

/-!
# How storing a list ends

A list that is stored as a stream of JSON lines is refused if it is empty or an item is no JSON
value, as its check says, and otherwise stored: in memory this does not fail, files may refuse.
-/

namespace Interchange

open Session Attempt

/-- A session that remembers all that is known, in which no work is cancelled under a mark, and
whose objects are kept in memory or in files. -/
structure Session.Ready (r : Registry) (known : Knowledge) (token : Option String)
    (inMemory : Bool) (s : Session) : Prop where
  recalls : s.Recalls r known
  uncancelled : s.isCancelled token = false
  medium : s.store.isInMemory = inMemory

/-- A fault of storage, which memory does not have. -/
def StorageFault (inMemory : Bool) (f : Fault) : Prop :=
  inMemory = false ∧ ∃ e, f = .storage e

section

variable {r : Registry} {known : Knowledge} {token : Option String} {inMemory : Bool}
  {s : Session} {path : Path} {d : Storage.Draft}

/-- Steps that only store objects or make URIs leave a session ready. -/
theorem Session.Ready.stores (h : s.Ready r known token inMemory) {store : Storage.Store}
    (hm : store.isInMemory = s.store.isInMemory) (minted : Nat) :
    ({ s with store, minted } : Session).Ready r known token inMemory :=
  ⟨⟨h.recalls.coherent, h.recalls.knows⟩, h.uncancelled, hm.trans h.medium⟩

/-- In a ready session, describing a type that is known comes to what is known. -/
theorem Session.ends_describe_ready {E : Fault → Prop} {t : HostType} {d : Descriptor}
    (h : known t d) (levels : Nat) (place : Place) :
    Ends (Ready r known token inMemory) (· = d) E (r.describe levels place t) := by
  intro s hs
  rw [run_describe_of_known (hs.recalls.knows t d h)]
  exact ⟨hs, rfl⟩

namespace JsonLines

theorem ends_newUri : Ends (Ready r known token inMemory)
    (fun uri ↦ inMemory = true → Storage.Store.checkMemory uri = .ok ()) (StorageFault inMemory)
    (newUri hint) := by
  intro s hs
  refine ⟨hs.stores rfl _, fun hm ↦ ?_⟩
  exact Storage.Store.checkMemory_newUri (hs.medium.trans hm) _ _

theorem ends_openForWrite {uri : String}
    (h : inMemory = true → Storage.Store.checkMemory uri = .ok ()) :
    Ends (Ready r known token inMemory) (fun _ ↦ True) (StorageFault inMemory)
      (onStore (Storage.Store.openForWrite uri)) := by
  intro s hs
  obtain ⟨hmedium, herror⟩ := Storage.Store.run_openForWrite s.store uri
  rw [onStore, run_mapError, run_focus]
  refine ⟨hs.stores hmedium s.minted, ?_⟩
  cases hopen : ((Storage.Store.openForWrite uri).run s.store).1 with
  | ok d => trivial
  | error e =>
    refine ⟨?_, e, rfl⟩
    cases hm : inMemory with
    | false => rfl
    | true => cases (h hm).symm.trans (herror e (hs.medium.trans hm) hopen)

theorem ends_writeBytes {E : Fault → Prop} (d : Storage.Draft) (bytes : List UInt8) :
    Ends (Ready r known token inMemory) (fun _ ↦ True) E (writeBytes d bytes) := by
  intro s hs
  exact ⟨hs.stores (Storage.Store.isInMemory_write _ _ _) s.minted, trivial⟩

/-- The line of an item is that of its JSON value. -/
theorem line_eq (path : Path) (i : Nat) (v : Value) : line path i v =
    (v.toJson (path.child (.index i))).map
      fun j ↦ Text.bytes (String.ofList (j.text ++ ['\n'])) := by
  rw [line]
  cases v.toJson (path.child (.index i)) <;> rfl

theorem itemsToJson_of_line_error {i : Nat} {v : Value} {f : Fault}
    (h : line path i v = .error f) (vs : List Value) :
    Value.itemsToJson path i (v :: vs) = .error f := by
  rw [line_eq] at h
  rw [Value.itemsToJson]
  cases hj : v.toJson (path.child (.index i)) with
  | error e =>
    rw [hj] at h
    cases h
    rfl
  | ok j =>
    rw [hj] at h
    cases h

theorem itemsToJson_of_line_ok {i : Nat} {v : Value} {bytes : List UInt8}
    (h : line path i v = .ok bytes) (vs : List Value) :
    ∃ j, Value.itemsToJson path i (v :: vs) =
      (Value.itemsToJson path (i + 1) vs).map (j :: ·) := by
  rw [line_eq] at h
  rw [Value.itemsToJson]
  cases hj : v.toJson (path.child (.index i)) with
  | error e =>
    rw [hj] at h
    cases h
  | ok j =>
    refine ⟨j, ?_⟩
    cases Value.itemsToJson path (i + 1) vs <;> rfl

/-- Items are written just if they have JSON values. -/
theorem ends_writeItems (d : Storage.Draft) (i : Nat) (vs : List Value) :
    Ends (Ready r known token inMemory) (fun _ ↦ ∃ js, Value.itemsToJson path i vs = .ok js)
      (fun f ↦ Value.itemsToJson path i vs = .error f ∨ StorageFault inMemory f)
      (writeItems path d i vs) := by
  induction vs generalizing d i with
  | nil => exact .pure ⟨[], rfl⟩
  | cons v vs ih =>
    refine .bind_ofExcept (fun f hf ↦ .inl (itemsToJson_of_line_error hf vs)) fun bytes hline ↦ ?_
    obtain ⟨j, hj⟩ := itemsToJson_of_line_ok hline vs
    rw [hj]
    refine (ends_writeBytes d bytes).bind fun d _ ↦ (ih d (i + 1)).mono ?_ ?_
    · rintro _ ⟨js, hjs⟩
      exact ⟨j :: js, by rw [hjs]; rfl⟩
    · rintro f (hf | hf)
      · exact .inl (by rw [hf]; rfl)
      · exact .inr hf

theorem check_list_eq {t : HostType} {levels : Nat} {place : Place}
    (resolved : r.resolve t = .ok .jsonLines) (vs : List Value) :
    r.check levels place t (.list vs) = (Value.itemsToJson place.path 0 vs).map fun _ ↦ () :=
  Registry.check_of_resolve resolved

/-- A list is stored just if it has an item and all its items have JSON values. -/
theorem ends_store {t : HostType} {levels : Nat} {place : Place}
    (resolved : r.resolve t = .ok .jsonLines) (vs : List Value) :
    Registry.EndsEncoding r (Ready r known token inMemory) (StorageFault inMemory) levels place t
      (.list vs) (.blob blobType) (store place.path (pure []) 0 vs) := by
  have hcheck : r.check levels place t (.list vs) = _ := check_list_eq resolved vs
  have hfault {f : Fault} (hf : Value.itemsToJson place.path 0 vs = .error f) :
      r.Faults levels place t (.list vs) f := by
    rw [hf] at hcheck
    exact .here (.inr hcheck)
  cases vs with
  | nil => exact .throw (.inl (.here (.inl (.nothing resolved))))
  | cons v vs =>
    refine .bind_ofExcept (fun f hf ↦ .inl (hfault (itemsToJson_of_line_error hf vs)))
      fun first hline ↦ ?_
    obtain ⟨j, hj⟩ := itemsToJson_of_line_ok hline vs
    refine (ends_newUri.mono (fun _ h ↦ h) fun _ h ↦ .inr h).bind fun uri huri ↦ ?_
    refine ((ends_openForWrite huri).mono (fun _ h ↦ h) fun _ h ↦ .inr h).bind fun d _ ↦ ?_
    refine (ends_writeBytes d first).bind fun d _ ↦ ?_
    refine ((ends_writeItems d 1 vs).mono (fun _ h ↦ h) ?_).bind fun d hwritten ↦ ?_
    · refine fun f hf ↦ hf.imp_left fun hf ↦ hfault ?_
      rw [hj, hf]
      rfl
    · obtain ⟨js, hjs⟩ := hwritten
      refine Ends.bind (P := fun _ ↦ True) (.pure trivial) fun d _ ↦ ?_
      refine Ends.bind (P := fun _ ↦ True) ?_ fun _ _ ↦ .pure ⟨?_, ?_⟩
      · intro s hs
        exact ⟨hs.stores (Storage.Store.isInMemory_publish _ _) s.minted, trivial⟩
      · simp [Literal.conforms, Descriptor.someMember]
      · refine Registry.encodable_leaf resolved rfl ?_ ?_
        · intro f hf
          cases hf
        · rw [hcheck, hj, hjs]
          rfl

/-- A list of JSON values is stored on the worker; other values without streams are refused as their
check refuses them. -/
theorem ends_encode {t : HostType} {levels : Nat} {place : Place} {v : Value} (ask : Delegate)
    (resolved : r.resolve t = .ok .jsonLines) (htoken : place.token = token) (hv : v.StreamFree) :
    Registry.EndsEncoding r (Ready r known token inMemory) (StorageFault inMemory) levels place t v
      (.blob blobType) (suspend (some ask) place fun _ ↦ encode place v) := by
  have hwork : Registry.EndsEncoding r (Ready r known token inMemory) (StorageFault inMemory) levels
      place t v (.blob blobType) (encode place v) := by
    cases v with
    | list vs => exact ends_store resolved vs
    | stream => exact hv.elim
    | _ => exact .of_check (Registry.check_of_resolve resolved)
  intro s hs
  have hmark : (s.isCancelled place.token) = false := htoken ▸ hs.uncancelled
  have hrun : (suspend (some ask) place fun _ ↦ encode place v).run s = (encode place v).run s := by
    rw [suspend, run_bind_of_ok (run_get s), hmark]
    rfl
  rw [hrun]
  exact hwork s hs

end JsonLines

end

end Interchange
