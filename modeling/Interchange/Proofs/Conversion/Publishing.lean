import Interchange.Proofs.Conversion.Retrieval

/-!
# Storing JSON lines in memory is all or nothing

In memory, what is written goes to a draft, and the draft is published in the last step.  Before
that step neither pulling items nor writing lines changes the stored objects, wherever they fail;
after it nothing can fail any more, since what is returned conforms to the descriptor of the type.
So an encoding that fails leaves the stored objects as they were, and one that succeeds puts one
object under the URI that it made.
-/

namespace Interchange

open Session Attempt

/-- The stored objects are these, and so many URIs were made. -/
structure Session.StoresJust (store : Storage.Store) (minted : Nat) (s : Session) : Prop where
  store_eq : s.store = store
  minted_eq : s.minted = minted

/-- However a step ends, it stores nothing and makes no URI. -/
abbrev StoresNothing {α : Type} (store : Storage.Store) (minted : Nat) (x : Conversion α) : Prop :=
  Ends (Session.StoresJust store minted) (fun _ ↦ True) (fun _ ↦ True) x

variable {s : Session} {store : Storage.Store} {minted : Nat}

namespace Session

theorem storesNothing_pull (onWorker : Bool) (id : Nat) :
    StoresNothing store minted (pull onWorker id) := by
  intro s hs
  rw [run_pull]
  refine ⟨⟨hs.store_eq, hs.minted_eq⟩, ?_⟩
  dsimp only
  split <;> trivial

/-- Pulling items stores nothing, even if the source fails. -/
theorem storesNothing_pullUpTo (onWorker : Bool) (id n : Nat) :
    StoresNothing store minted (pullUpTo onWorker id n) := by
  induction n with
  | zero => exact .pure trivial
  | succ n ih =>
    refine (storesNothing_pull onWorker id).bind fun v _ ↦ ?_
    cases v with
    | none => exact .pure trivial
    | some v => exact ih.bind fun _ _ ↦ .pure trivial

end Session

namespace JsonLines

variable {path : Path} {d : Storage.Draft} {next : Conversion (List Value)} {fuel : Nat}
  {vs : List Value} {place : Place} {v : Value} {uri : String}

/-- A step stores nothing, and what it returns is a draft for this URI. -/
abbrev Drafts (store : Storage.Store) (minted : Nat) (uri : String)
    (x : Conversion Storage.Draft) : Prop :=
  Ends (StoresJust store minted) (·.uri = uri) (fun _ ↦ True) x

section

variable (hmemory : store.isInMemory = true) (hd : d.uri = uri)

include hmemory hd

theorem drafts_writeBytes (bytes : List UInt8) :
    Drafts store minted uri (writeBytes d bytes) := by
  intro s hs
  rw [run_writeBytes (hs.store_eq ▸ hmemory)]
  exact ⟨hs, hd⟩

/-- Writing items stores nothing, even if one of them is no JSON value. -/
theorem drafts_writeItems (position : Nat) :
    Drafts store minted uri (writeItems path d position vs) := by
  induction vs generalizing d position with
  | nil => exact .pure hd
  | cons v vs ih =>
    refine .bind_ofExcept (fun _ _ ↦ trivial) fun bytes _ ↦ ?_
    exact (drafts_writeBytes hmemory hd bytes).bind fun d hd ↦ ih hd _

/-- Writing chunk after chunk stores nothing, even if the source of the chunks fails. -/
theorem drafts_writeChunks (hnext : StoresNothing store minted next) (position : Nat) :
    Drafts store minted uri (writeChunks path next fuel d position) := by
  induction fuel generalizing d position with
  | zero => exact .pure hd
  | succ fuel ih =>
    refine hnext.bind fun items _ ↦ ?_
    cases items with
    | nil => exact .pure hd
    | cons v vs => exact (drafts_writeItems hmemory hd position).bind fun d hd ↦ ih hd _

end

/-- Either there is no literal and nothing is stored, or there is one that refers to an object, and
just this object is stored. -/
def AllOrNothing (s : Session) : Except Fault Literal × Session → Prop
  | (.error _, s') => s'.store = s.store
  | (.ok l, s') =>
    l = .blob ⟨nextUri s, blobType⟩ ∧ ∃ bytes, s'.store = s.store.put (nextUri s) bytes

theorem AllOrNothing.congr {s₁ : Session} {outcome : Except Fault Literal × Session}
    (h : AllOrNothing s₁ outcome) (hs : StoresJust s.store s.minted s₁) :
    AllOrNothing s outcome := by
  have huri : nextUri s₁ = nextUri s := by rw [nextUri, nextUri, hs.store_eq, hs.minted_eq]
  rcases outcome with ⟨f | l, s'⟩
  · exact h.trans hs.store_eq
  · rwa [AllOrNothing, huri, hs.store_eq] at h

/-- A draft is published in the end, if there is one. -/
theorem allOrNothing_publish {x : Conversion Storage.Draft} {s₁ : Session}
    (hx : Drafts s.store (s.minted + 1) (nextUri s) x)
    (hs : StoresJust s.store (s.minted + 1) s₁) :
    AllOrNothing s ((do
      let d ← x
      modify fun s ↦ { s with store := s.store.publish d }
      return .blob ⟨nextUri s, blobType⟩ : Conversion Literal).run s₁) := by
  rw [run_bind]
  rcases hrun : x.run s₁ with ⟨f | d, s₂⟩
  · exact (hx.of_error hs hrun).1.store_eq
  · obtain ⟨hs₂, huri⟩ := hx.of_ok hs hrun
    refine ⟨rfl, d.written, ?_⟩
    rw [← hs₂.store_eq, ← huri]
    rfl

theorem allOrNothing_store (hmemory : s.store.isInMemory = true)
    (hnext : StoresNothing s.store (s.minted + 1) next) :
    AllOrNothing s ((JsonLines.store path next fuel vs).run s) := by
  cases vs with
  | nil => exact rfl
  | cons v vs =>
    cases hline : line path 0 v with
    | error f =>
      rw [JsonLines.store, hline]
      exact rfl
    | ok first =>
      let s₁ : Session := { s with minted := s.minted + 1 }
      have hs₁ : StoresJust s.store (s.minted + 1) s₁ := ⟨rfl, rfl⟩
      have hmemory₁ : s₁.store.isInMemory = true := hmemory
      have huri : (newUri hint).run s = (.ok (nextUri s), s₁) := rfl
      have hopen : (onStore (Storage.Store.openForWrite (nextUri s))).run s₁ =
          (.ok ⟨nextUri s, none, []⟩, s₁) := run_openForWrite_newUri hmemory₁ _ _
      have hdraft : Drafts s.store (s.minted + 1) (nextUri s) (do
          let d ← writeBytes ⟨nextUri s, none, []⟩ first
          let d ← writeItems path d 1 vs
          writeChunks path next fuel d (vs.length + 1)) :=
        (drafts_writeBytes hmemory rfl first).bind fun _ hd ↦
          (drafts_writeItems hmemory hd 1).bind fun _ hd ↦ drafts_writeChunks hmemory hd hnext _
      have hpublish := allOrNothing_publish hdraft hs₁
      rw [JsonLines.store, hline, run_bind_of_ok (run_ofExcept _ _), run_bind_of_ok huri,
        run_bind_of_ok hopen]
      simpa only [bind_assoc] using hpublish

/-- Lists and streams are stored as a whole or not at all, and nothing else is stored. -/
theorem allOrNothing_encode (hmemory : s.store.isInMemory = true) :
    AllOrNothing s ((encode place v).run s) := by
  cases v with
  | list items => exact allOrNothing_store hmemory (.pure trivial)
  | stream id =>
    rw [encode, run_bind_of_ok (run_get s), run_bind]
    rcases hrun : (pullUpTo false id chunk).run s with ⟨f | items, s₁⟩
    · exact ((storesNothing_pullUpTo false id chunk).of_error ⟨rfl, rfl⟩ hrun).1.store_eq
    · have hs₁ : StoresJust s.store s.minted s₁ :=
        ((storesNothing_pullUpTo false id chunk).of_ok ⟨rfl, rfl⟩ hrun).1
      have hmemory₁ : s₁.store.isInMemory = true := hs₁.store_eq ▸ hmemory
      exact (allOrNothing_store hmemory₁ (storesNothing_pullUpTo false id chunk)).congr hs₁
  | _ => exact rfl

end JsonLines

namespace Setup

open JsonLines

variable {u : Setup} {place : Place} {t : HostType} {v : Value}

/-- Streams of JSON lines are described by the type of what is stored. -/
theorem run_describe_lines (place : Place) (resolved : u.registry.resolve t = .ok .jsonLines)
    (hs : s.Coherent u.registry) :
    ∃ ds, (u.describe place t).run s = (.ok (.blob blobType), s.recalling ds) := by
  rw [describe, Registry.describe_eq, Registry.describeStep, run_remembering, resolved]
  cases hremembered : s.described? t with
  | none => exact ⟨_, rfl⟩
  | some d =>
    cases hs t d hremembered with
    | intro _ resolved' composed _ =>
      cases resolved.symm.trans resolved'
      cases composed
      exact ⟨s.described, rfl⟩

theorem allOrNothing_toLiteral (resolved : u.registry.resolve t = .ok .jsonLines)
    (hs : s.Coherent u.registry) (hmemory : s.store.isInMemory = true) :
    AllOrNothing s ((u.toLiteral place t v).run s) := by
  obtain ⟨ds, hd⟩ := run_describe_lines place resolved hs
  have hencode : AllOrNothing s ((u.encode place t v (.blob blobType)).run (s.recalling ds)) := by
    rw [Setup.encode, Registry.encode_of_resolve resolved]
    show AllOrNothing s ((suspend (some u.delegate) place fun _ ↦ JsonLines.encode place v).run _)
    rw [suspend, run_bind_of_ok (run_get _)]
    cases (s.recalling ds).isCancelled place.token with
    | true => exact rfl
    | false => exact (allOrNothing_encode (s := s.recalling ds) hmemory).congr ⟨rfl, rfl⟩
  show AllOrNothing s ((u.describe place t >>= _).run s)
  rw [run_bind_of_ok hd]
  show AllOrNothing s ((u.encode place t v (.blob blobType) >>= _).run (s.recalling ds))
  rw [run_bind]
  rcases hrun : (u.encode place t v (.blob blobType)).run (s.recalling ds) with ⟨f | l, s'⟩
  · rwa [hrun] at hencode
  · rw [hrun] at hencode
    -- What was stored conforms to its type, so the literal is not refused after all.
    have hconforms : l.conforms (.blob blobType) = true := by
      rw [hencode.1]
      simp [Literal.conforms, Descriptor.someMember]
    dsimp only
    rw [verified_of_conforms hconforms]
    exact hencode

end Setup

namespace Engine

open JsonLines

variable {e e' : Engine}

/-- Encoding as JSON lines is all or nothing in memory, for whatever list, stream or other value: if
it fails, the stored objects are as before, and if it succeeds, the literal refers to the object
under the URI that was made, which is there, and every other object is as before. -/
theorem toLiteral_lines_allOrNothing (he : e.Reachable)
    (resolved : e.setup.registry.resolve (.named typeName) = .ok .jsonLines)
    (hmemory : e.session.store.isInMemory = true) (place : Place) (v : Value) :
    (∀ f e', (convert fun u ↦ u.toLiteral place (.named typeName) v).run e = (.error f, e') →
      e'.session.store = e.session.store) ∧
    ∀ l e', (convert fun u ↦ u.toLiteral place (.named typeName) v).run e = (.ok l, e') →
      l = .blob ⟨nextUri e.session, blobType⟩ ∧
      (∃ bytes, e'.session.store = e.session.store.put (nextUri e.session) bytes ∧
        e'.session.store.get? (nextUri e.session) = some bytes) ∧
      ∀ uri, uri ≠ nextUri e.session →
        e'.session.store.get? uri = e.session.store.get? uri := by
  have hall : AllOrNothing e.session
      ((e.setup.toLiteral place (.named typeName) v).run e.session) :=
    Setup.allOrNothing_toLiteral resolved he.coherent hmemory
  constructor
  · intro f e' hrun
    rcases hs' : (e.setup.toLiteral place (.named typeName) v).run e.session with ⟨outcome, s'⟩
    rw [run_convert_of_run hs'] at hrun
    cases hrun
    rw [hs'] at hall
    exact hall
  · intro l e' hrun
    obtain ⟨s', hs', rfl⟩ := run_convert_eq_ok.mp hrun
    rw [hs'] at hall
    obtain ⟨hl, bytes, hput⟩ := hall
    have hstore : s'.store = e.session.store.put (nextUri e.session) bytes := hput
    refine ⟨hl, ⟨bytes, hput, ?_⟩, fun uri huri ↦ ?_⟩
    · rw [hstore, Storage.Store.get?_put hmemory]
    · rw [hstore, Storage.Store.get?_put_of_ne huri]

/-- A list is not stored where its last item is no JSON value, and stored where all items are. -/
theorem toLiteral_lines_allOrNothing_list :
    (∃ f e', (convert fun u ↦ u.toLiteral .root (.named typeName)
        (.list [.scalar (.integer 5), .blob ⟨"memory://a", blobType⟩])).run linesEngine =
          (.error f, e') ∧
      e'.session.store = linesEngine.session.store) ∧
    ∃ l e', (convert fun u ↦ u.toLiteral .root (.named typeName)
        (.list [.scalar (.integer 5)])).run linesEngine = (.ok l, e') ∧
      l = .blob ⟨nextUri linesEngine.session, blobType⟩ ∧
      e'.session.store.get? "memory://a" = linesEngine.session.store.get? "memory://a" := by
  have hall := toLiteral_lines_allOrNothing reachable_linesEngine resolve_linesEngine rfl .root
  constructor
  · obtain ⟨f, e', hrun⟩ : ∃ f e', (convert fun u ↦ u.toLiteral .root (.named typeName)
        (.list [.scalar (.integer 5), .blob ⟨"memory://a", blobType⟩])).run linesEngine =
          (.error f, e') := ⟨_, _, rfl⟩
    exact ⟨f, e', hrun, (hall _).1 f e' hrun⟩
  · obtain ⟨l, e', hrun⟩ : ∃ l e', (convert fun u ↦ u.toLiteral .root (.named typeName)
        (.list [.scalar (.integer 5)])).run linesEngine = (.ok l, e') := ⟨_, _, rfl⟩
    obtain ⟨hl, -, hothers⟩ := (hall _).2 l e' hrun
    exact ⟨l, e', hrun, hl, hothers _ (by decide)⟩

end Engine

end Interchange
