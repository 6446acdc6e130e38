import Interchange.Conversion.JsonLines
import Interchange.Conversion.Untyped
import Interchange.Proofs.Attempt
import Interchange.Proofs.Induction

/-!
# Steps that have nothing to do with descriptors

Pulling items from streams, work on stored objects and marks, writing values by their own shape and
storing streams: all these are blind to the descriptors that a session remembers.  They neither look
at them nor change them.

A property of steps is compositional if blind steps have it and if it passes to a bind.  Whatever is
built from blind steps and steps with such a property has the property too.
-/

namespace Interchange

open Attempt

/-- The same descriptors are remembered. -/
def Session.SameDescribed (s s' : Session) : Prop := s'.described = s.described

/-- A step of a conversion does not change what is remembered, however it ends. -/
abbrev Quiet {α : Type} (x : Conversion α) : Prop := Within Session.SameDescribed x

/-- The same session, but with these descriptors remembered. -/
def Session.recalling (s : Session) (ds : List (HostType × Descriptor)) : Session :=
  { s with described := ds }

/-- A step of a conversion comes to the same whatever is remembered, and leaves that alone. -/
def Blind {α : Type} (x : Conversion α) : Prop :=
  ∀ s ds, x.run (s.recalling ds) = ((x.run s).1, (x.run s).2.recalling ds)

namespace Blind

variable {α β : Type} {x : Conversion α} {k : α → Conversion β}

theorem quiet (h : Blind x) : Quiet x := by
  intro s
  have hs : x.run s = ((x.run s).1, (x.run s).2.recalling s.described) := h s s.described
  show (x.run s).2.described = s.described
  rw [hs]
  rfl

theorem ofExcept (r : Except Fault α) : Blind (.ofExcept r : Conversion α) := fun _ _ ↦ rfl

theorem pure (a : α) : Blind (pure a : Conversion α) := fun _ _ ↦ rfl

theorem throw (e : Fault) : Blind (throw e : Conversion α) := fun _ _ ↦ rfl

theorem modify {f : Session → Session} (h : ∀ s ds, f (s.recalling ds) = (f s).recalling ds) :
    Blind (modify f : Conversion PUnit) := fun s ds ↦ congrArg (Prod.mk _) (h s ds)

theorem bind (hx : Blind x) (hk : ∀ a, Blind (k a)) : Blind (x >>= k) := by
  intro s ds
  rw [run_bind, run_bind, hx s ds]
  rcases x.run s with ⟨e | a, s'⟩
  · rfl
  · exact hk a s' ds

theorem map (hx : Blind x) (f : α → β) : Blind (f <$> x) := by
  rw [map_eq_pure_bind]
  exact hx.bind fun _ ↦ .pure _

/-- What is looked up in a session is not what it remembers. -/
theorem get_bind {k : Session → Conversion β} (hk : ∀ s, Blind (k s))
    (h : ∀ s ds, k (s.recalling ds) = k s) : Blind (get >>= k) := by
  intro s ds
  rw [run_bind_of_ok (run_get _), run_bind_of_ok (run_get _), h]
  exact hk s s ds

theorem guard {c : Bool} (e : Fault) (hx : Blind x) :
    Blind (do
      if c then MonadExcept.throw e
      x) := by
  cases c with
  | false => exact hx
  | true => exact .bind (.throw e) fun _ ↦ hx

end Blind

/-- A property of steps that blind ones have and that passes to a bind. -/
structure Compositional (P : ∀ α : Type, Conversion α → Prop) : Prop where
  blind : ∀ {α : Type} {x : Conversion α}, Blind x → P α x
  /-- What follows only has to do with values that are returned. -/
  bind_of_run : ∀ {α β : Type} {x : Conversion α} {k : α → Conversion β}, P α x →
    (∀ s a s', x.run s = (.ok a, s') → P β (k a)) → P β (x >>= k)

namespace Compositional

variable {P : ∀ α : Type, Conversion α → Prop} {α β : Type} {x : Conversion α}
  {k : α → Conversion β}

theorem pure (hP : Compositional P) (a : α) : P α (pure a) := hP.blind (.pure a)

theorem throw (hP : Compositional P) (e : Fault) : P α (throw e) := hP.blind (.throw e)

theorem ofExcept (hP : Compositional P) (r : Except Fault α) : P α (.ofExcept r) :=
  hP.blind (.ofExcept r)

theorem bind (hP : Compositional P) (hx : P α x) (hk : ∀ a, P β (k a)) : P β (x >>= k) :=
  hP.bind_of_run hx fun _ a _ _ ↦ hk a

theorem map (hP : Compositional P) (hx : P α x) (f : α → β) : P β (f <$> x) := by
  rw [map_eq_pure_bind]
  exact hP.bind hx fun _ ↦ hP.pure _

/-- What follows an outcome that does not depend on the session only has to do with its value. -/
theorem bind_ofExcept (hP : Compositional P) {r : Except Fault α}
    (h : ∀ a, r = .ok a → P β (k a)) : P β (.ofExcept r >>= k) := by
  refine hP.bind_of_run (hP.ofExcept r) ?_
  intro s a s' hrun
  exact h a (congrArg Prod.fst hrun)

/-- What is looked up in a session is not what it remembers. -/
theorem get_bind (hP : Compositional P) (f : Session → α)
    (hf : ∀ s ds, f (s.recalling ds) = f s) (hk : ∀ a, P β (k a)) :
    P β (get >>= fun s ↦ k (f s)) := by
  have hlook : Blind (get >>= fun s ↦ Pure.pure (f s) : Conversion α) :=
    .get_bind (fun _ ↦ .pure _) fun s ds ↦ by rw [hf]
  have hbind := hP.bind (hP.blind hlook) hk
  simpa only [bind_assoc, pure_bind] using hbind

theorem guard (hP : Compositional P) {c : Bool} (e : Fault) (hx : P α x) :
    P α (do
      if c then MonadExcept.throw e
      x) := by
  cases c with
  | false => exact hx
  | true => exact hP.throw e

end Compositional

namespace Session

theorem setMark_recalling (s : Session) (ds : List (HostType × Descriptor)) (token : String)
    (m : Mark) : (s.recalling ds).setMark token m = (s.setMark token m).recalling ds := by
  have hmark : (s.recalling ds).mark? (some token) = s.mark? (some token) := rfl
  unfold setMark
  rw [hmark]
  split <;> rfl

/-! ## Objects and streams -/

theorem blind_newUri (hint : String) : Blind (newUri hint) := fun _ _ ↦ rfl

theorem blind_onStore {α : Type} (step : Attempt Storage.Store Storage.Fault α) :
    Blind (onStore step) := by
  intro s ds
  simp only [onStore, run_mapError, run_focus]
  rfl

theorem blind_lookStore {α : Type} (look : Storage.Store → Except Storage.Fault α) :
    Blind (lookStore look) := .get_bind (fun _ ↦ .ofExcept _) fun _ _ ↦ rfl

theorem blind_nextDocument (reader : LineReader) (place : Place) (read id : Nat) :
    Blind (nextDocument reader place read id) := by
  refine .bind (blind_lookStore _) ?_
  intro line
  rcases line with ⟨_ | line, reader⟩
  · exact .pure _
  · dsimp only
    split
    · exact .throw _
    · exact .bind (.modify fun _ _ ↦ rfl) fun _ ↦ .pure _

theorem blind_pull (onWorker : Bool) (id : Nat) : Blind (pull onWorker id) := by
  refine .get_bind (fun s ↦ .bind (.modify fun _ _ ↦ rfl) fun _ ↦ ?_) fun _ _ ↦ rfl
  split
  · exact .pure _
  · exact .pure _
  · exact .throw _
  · exact .bind (.modify fun _ _ ↦ rfl) fun _ ↦ .pure _
  · exact .guard _ (.get_bind (fun _ ↦ .guard _ (blind_nextDocument _ _ _ _)) fun _ _ ↦ rfl)

theorem blind_pullUpTo (onWorker : Bool) (id n : Nat) : Blind (pullUpTo onWorker id n) := by
  induction n with
  | zero => exact .pure _
  | succ n ih =>
    refine .bind (blind_pull onWorker id) ?_
    intro v
    cases v with
    | none => exact .pure _
    | some v => exact .bind ih fun _ ↦ .pure _

theorem blind_drain (onWorker : Bool) (id : Nat) : Blind (drain onWorker id) :=
  .get_bind (fun _ ↦ blind_pullUpTo onWorker id _) fun _ _ ↦ rfl

end Session

/-! ## Values by their own shape -/

section

variable {stream : Path → Nat → Conversion Literal} {path : Path}

theorem blind_literalsBy {vs : List Value}
    (h : ∀ v ∈ vs, ∀ path, Blind (literalBy stream path v)) (i : Nat) :
    Blind (literalsBy stream path i vs) := by
  induction vs generalizing i with
  | nil => exact .pure _
  | cons v vs ih =>
    obtain ⟨hv, hvs⟩ := List.forall_mem_cons.mp h
    exact .bind (hv _) fun _ ↦ .bind (ih hvs _) fun _ ↦ .pure _

theorem blind_literalEntriesBy {segment : String → Segment} {es : List (String × Value)}
    (h : ∀ e ∈ es, ∀ path, Blind (literalBy stream path e.2)) :
    Blind (literalEntriesBy stream path segment es) := by
  induction es with
  | nil => exact .pure _
  | cons e es ih =>
    obtain ⟨he, hes⟩ := List.forall_mem_cons.mp h
    exact .bind (he _) fun _ ↦ .bind (ih hes) fun _ ↦ .pure _

theorem blind_literalBy (h : ∀ path id, Blind (stream path id)) (path : Path) (v : Value) :
    Blind (literalBy stream path v) := by
  induction v generalizing path with
  | scalar | blob => exact .pure _
  | list items ih => exact (blind_literalsBy ih 0).map _
  | map entries ih => exact (blind_literalEntriesBy ih).map _
  | record name fields ih => exact (blind_literalEntriesBy ih).map _
  | stream id => exact h path id
  | foreign => exact .throw _

end

theorem blind_literalOfStream (onWorker : Bool) (levels : Nat) (path : Path) (id : Nat) :
    Blind (literalOfStream onWorker levels path id) := by
  induction levels generalizing path id with
  | zero => exact .throw _
  | succ levels ih =>
    refine .bind (Session.blind_drain onWorker id) fun items ↦ .guard _ ?_
    exact (blind_literalsBy (fun v _ path ↦ blind_literalBy ih path v) 0).map _

theorem Value.blind_literal (onWorker : Bool) (path : Path) (v : Value) :
    Blind (v.literal onWorker path) :=
  .get_bind (fun _ ↦ blind_literalBy (blind_literalOfStream onWorker _) path v) fun _ _ ↦ rfl

/-! ## Streams of JSON lines -/

namespace JsonLines

theorem blind_writeBytes (d : Storage.Draft) (bytes : List UInt8) : Blind (writeBytes d bytes) :=
  fun _ _ ↦ rfl

theorem blind_writeItems (path : Path) (d : Storage.Draft) (position : Nat) (vs : List Value) :
    Blind (writeItems path d position vs) := by
  induction vs generalizing d position with
  | nil => exact .pure _
  | cons v vs ih =>
    exact .bind (.ofExcept _) fun _ ↦ .bind (blind_writeBytes _ _) fun _ ↦ ih _ _

theorem blind_writeChunks {next : Conversion (List Value)} (hnext : Blind next) (path : Path)
    (fuel : Nat) (d : Storage.Draft) (position : Nat) :
    Blind (writeChunks path next fuel d position) := by
  induction fuel generalizing d position with
  | zero => exact .pure _
  | succ fuel ih =>
    refine .bind hnext ?_
    intro items
    cases items with
    | nil => exact .pure _
    | cons v vs => exact .bind (blind_writeItems _ _ _ _) fun _ ↦ ih _ _

theorem blind_store {next : Conversion (List Value)} (hnext : Blind next) (path : Path)
    (fuel : Nat) (vs : List Value) : Blind (store path next fuel vs) := by
  cases vs with
  | nil => exact .throw _
  | cons v vs =>
    exact .bind (.ofExcept _) fun _ ↦ .bind (Session.blind_newUri _) fun _ ↦
      .bind (Session.blind_onStore _) fun _ ↦ .bind (blind_writeBytes _ _) fun _ ↦
      .bind (blind_writeItems _ _ _ _) fun _ ↦ .bind (blind_writeChunks hnext _ _ _ _) fun _ ↦
      .bind (.modify fun _ _ ↦ rfl) fun _ ↦ .pure _

theorem blind_encode (place : Place) (v : Value) : Blind (encode place v) := by
  cases v with
  | list items => exact blind_store (.pure _) _ _ _
  | stream id =>
    exact .get_bind (fun _ ↦ .bind (Session.blind_pullUpTo _ _ _) fun items ↦
      blind_store (Session.blind_pullUpTo _ _ _) _ _ items) fun _ _ ↦ rfl
  | _ => exact .throw _

theorem blind_decode (place : Place) (l : Literal) : Blind (decode place l) := by
  unfold decode
  split
  · exact .bind (Session.blind_lookStore _) fun _ _ _ ↦ rfl
  · exact .throw _

end JsonLines

end Interchange
