import Interchange.Engine
import Interchange.Proofs.Conversion.Keeping
import Mathlib.Logic.Relation

/-!
# Histories of engines

Whatever an engine has been asked for, what its session remembers is described as its registry has
it: conversions keep that, and a change of the registry forgets everything.  A call that converts
also forgets nothing, so what was described once stays known until the registry changes.
-/

namespace Interchange

open Session Attempt

/-! ## Conversions to native types -/

namespace Native

variable {α : Type} {read : Value → Conversion α}

theorem blind_readEach (h : ∀ v, Blind (read v)) (vs : List Value) : Blind (readEach read vs) := by
  induction vs with
  | nil => exact .pure _
  | cons v vs ih => exact .bind (h v) fun _ ↦ .bind ih fun _ ↦ .pure _

theorem blind_readEntries (h : ∀ v, Blind (read v)) (es : List (String × Value)) :
    Blind (readEntries read es) := by
  induction es with
  | nil => exact .pure _
  | cons e es ih => exact .bind (h e.2) fun _ ↦ .bind ih fun _ ↦ .pure _

theorem blind_ofValue (n : Native) (v : Value) : Blind (n.ofValue v) := by
  induction n generalizing v with
  | list n ih =>
    cases v with
    | list vs => exact blind_readEach ih vs
    | stream id => exact .bind (blind_drain false id) fun vs ↦ blind_readEach ih vs
    | _ => exact .throw _
  | option n ih =>
    cases v with
    | scalar s =>
      cases s with
      | none => exact .pure _
      | _ => exact (ih _).map _
    | _ => exact (ih _).map _
  | entries n ih =>
    cases v with
    | map es => exact blind_readEntries ih es
    | _ => exact .throw _
  | int32 =>
    rcases v with s | _ | _ | _ | _ | _ | _
    · cases s with
      | integer x =>
        dsimp only [ofValue]
        split
        · exact .pure _
        · exact .throw _
      | _ => exact .throw _
    all_goals exact .throw _
  | _ =>
    rcases v with s | _ | _ | _ | _ | _ | _
    · cases s with
      | _ => first | exact .pure _ | exact .throw _
    all_goals exact .throw _

end Native

/-! ## Calls of setups -/

namespace Setup

variable {u : Setup} {worker : Option Delegate} {place : Place}

section

variable {P : ∀ α : Type, Conversion α → Prop}

theorem toLiteralBy_of_pervades (hP : Pervades u.registry P)
    (hw : ∀ ask, worker = some ask → ask.Has P) (place : Place) (t : HostType) (v : Value) :
    P _ (u.toLiteralBy worker place t v) :=
  hP.bind (hP.describe _ _ _) fun d ↦ hP.bind (hP.encode hw _ _ _ _ d) fun _ ↦ hP.ofExcept _

theorem toValueBy_of_pervades (hP : Pervades u.registry P)
    (hw : ∀ ask, worker = some ask → ask.Has P) (place : Place) (t : HostType) (l : Literal) :
    P _ (u.toValueBy worker place t l) := hP.decode hw _ _ _ _

/-- What the worker can ask a setup for has every property that pervades. -/
theorem delegate_has (hP : Pervades u.registry P) {ask : Delegate}
    (h : some u.delegate = some ask) : ask.Has P := by
  have hnone (ask : Delegate) (h : none = some ask) : ask.Has P := nomatch h
  cases h
  exact ⟨toLiteralBy_of_pervades hP hnone .root, toValueBy_of_pervades hP hnone .root⟩

/-- Conversions between values and literals have every property that pervades. -/
theorem toLiteral_of_pervades (hP : Pervades u.registry P) (place : Place) (t : HostType)
    (v : Value) : P _ (u.toLiteral place t v) :=
  toLiteralBy_of_pervades hP (fun _ ↦ delegate_has hP) place t v

theorem toValue_of_pervades (hP : Pervades u.registry P) (place : Place) (t : HostType)
    (l : Literal) : P _ (u.toValue place t l) :=
  toValueBy_of_pervades hP (fun _ ↦ delegate_has hP) place t l

end

/-- What the worker can ask a setup for keeps sessions coherent. -/
theorem keeping_delegate {ask : Delegate} (h : some u.delegate = some ask) :
    ask.Keeping u.registry := delegate_has (pervades_keeps _) h

theorem keeps_toLiteral (place : Place) (t : HostType) (v : Value) :
    Keeps u.registry (u.toLiteral place t v) := toLiteral_of_pervades (pervades_keeps _) place t v

theorem keeps_toValue (place : Place) (t : HostType) (l : Literal) :
    Keeps u.registry (u.toValue place t l) := toValue_of_pervades (pervades_keeps _) place t l

theorem keeps_inferAs (t : HostType) (d : Descriptor) : Keeps u.registry (u.inferAs t d) :=
  .bind (.ofExcept _) fun c ↦ Registry.keeps_inferAs _ c _ d

theorem keeps_describeNamed (types : List (String × HostType)) :
    Keeps u.registry (u.describeNamed types) := by
  induction types with
  | nil => exact .pure _
  | cons input types ih =>
    exact .bind (.ofExcept _) fun place ↦ .bind (keeps_describe _ place _) fun d ↦
      .bind ih fun _ ↦ .pure _

theorem keeps_toLiteralsOf (values : Entries Value) (types : List (String × HostType)) :
    Keeps u.registry (u.toLiteralsOf values types) := by
  induction types with
  | nil => exact .pure _
  | cons input types ih =>
    unfold toLiteralsOf
    split
    · exact .throw _
    · exact .bind (.ofExcept _) fun place ↦ .bind (keeps_toLiteral place _ _) fun l ↦
        .bind ih fun _ ↦ .pure _

theorem keeps_toLiterals (types : Entries HostType) (values : Entries Value) :
    Keeps u.registry (u.toLiterals types values) := by
  unfold toLiterals
  split
  · exact .throw _
  · exact keeps_toLiteralsOf values types

theorem keeps_toValues (literals : Entries Literal) (types : List (String × HostType)) :
    Keeps u.registry (u.toValues literals types) := by
  induction types with
  | nil => exact .pure _
  | cons input types ih =>
    refine .bind (.ofExcept _) ?_
    intro place
    split
    · exact .throw _
    · exact .bind (keeps_toValue place _ _) fun l ↦ .bind ih fun _ ↦ .pure _

end Setup

/-! ## Calls of engines -/

/-- A conversion that an engine is called for. -/
inductive Call : {α : Type} → (Setup → Conversion α) → Prop
  | describe (place : Place) (t : HostType) : Call fun u ↦ u.describe place t
  | infer (place : Place) (d : Descriptor) : Call fun u ↦ u.infer place d
  | inferAs (t : HostType) (d : Descriptor) : Call fun u ↦ u.inferAs t d
  | encode (place : Place) (t : HostType) (v : Value) (d : Descriptor) :
      Call fun u ↦ u.encode place t v d
  | toLiteral (place : Place) (t : HostType) (v : Value) : Call fun u ↦ u.toLiteral place t v
  | toValue (place : Place) (t : HostType) (l : Literal) : Call fun u ↦ u.toValue place t l
  | describeNamed (types : List (String × HostType)) : Call fun u ↦ u.describeNamed types
  | toLiterals (types : Entries HostType) (values : Entries Value) :
      Call fun u ↦ u.toLiterals types values
  | toValues (literals : Entries Literal) (types : List (String × HostType)) :
      Call fun u ↦ u.toValues literals types
  | toLiteralNative (n : Native) (x : n.Carrier) : Call fun u ↦ u.toLiteralNative n x
  | toNative (n : Native) (l : Literal) : Call fun u ↦ u.toNative n l
  /-- What is done to streams, marks and stored objects beside conversions. -/
  | other {α : Type} (x : Conversion α) (quiet : Quiet x) : Call fun _ ↦ x

theorem Call.keeps {α : Type} {x : Setup → Conversion α} (h : Call x) (u : Setup) :
    Keeps u.registry (x u) := by
  cases h with
  | describe place t => exact keeps_describe _ place t
  | infer place d => exact Registry.keeps_infer _ place d
  | inferAs t d => exact Setup.keeps_inferAs t d
  | encode place t v d => exact Registry.keeps_encode (fun _ ↦ Setup.keeping_delegate) _ place t v d
  | toLiteral place t v => exact Setup.keeps_toLiteral place t v
  | toValue place t l => exact Setup.keeps_toValue place t l
  | describeNamed types => exact Setup.keeps_describeNamed types
  | toLiterals types values => exact Setup.keeps_toLiterals types values
  | toValues literals types => exact Setup.keeps_toValues literals types
  | toLiteralNative n x => exact Setup.keeps_toLiteral _ _ _
  | toNative n l =>
    exact .bind (Setup.keeps_toValue _ _ _) fun v ↦ (Native.blind_ofValue n v).quiet.keeps
  | other x quiet => exact quiet.keeps

namespace Engine

open Relation

variable {e e' : Engine}

theorem run_convert {α : Type} (x : Setup → Conversion α) (e : Engine) : (convert x).run e =
    (((x e.setup).run e.session).1, { e with session := ((x e.setup).run e.session).2 }) := rfl

theorem run_convert_of_run {α : Type} {x : Setup → Conversion α} {r : Except Fault α}
    {s' : Session} (h : (x e.setup).run e.session = (r, s')) :
    (convert x).run e = (r, { e with session := s' }) := by
  rw [run_convert, h]

theorem run_convert_eq_ok {α : Type} {x : Setup → Conversion α} {a : α} :
    (convert x).run e = (.ok a, e') ↔
      ∃ s', (x e.setup).run e.session = (.ok a, s') ∧ { e with session := s' } = e' := by
  rw [run_convert]
  rcases (x e.setup).run e.session with ⟨r, s'⟩
  simp [and_assoc]

section

variable {α : Type} {a : α} {I : Session → Prop} {P : α → Prop} {E : Fault → Prop}
  (x : Setup → Conversion α)

/-- A conversion of an engine comes to a value as promised or to a fault as allowed. -/
theorem outcome_of_ends (h : Ends I P E (x e.setup)) (hs : I e.session) :
    (∃ a, (convert x).outcome e = .ok a ∧ P a) ∨
      ∃ f, (convert x).outcome e = .error f ∧ E f := by
  rcases hrun : (x e.setup).run e.session with ⟨f | a, s'⟩
  · exact .inr ⟨f, outcome_of_run (run_convert_of_run hrun), (h.of_error hs hrun).2⟩
  · exact .inl ⟨a, outcome_of_run (run_convert_of_run hrun), (h.of_ok hs hrun).2⟩

theorem of_outcome_eq_ok (h : Ends I P E (x e.setup)) (hs : I e.session)
    (ha : (convert x).outcome e = .ok a) : P a := by
  rcases outcome_of_ends x h hs with ⟨a', ha', hP⟩ | ⟨f, hf, -⟩
  · cases ha.symm.trans ha'
    exact hP
  · cases ha.symm.trans hf

end

/-- One conversion leads from an engine to another. -/
inductive Converts : Engine → Engine → Prop
  | call {α : Type} {x : Setup → Conversion α} (call : Call x) (e : Engine) :
      Converts e ((convert x).run e).2

/-- One call leads from an engine to another: a conversion, or a change of the registry that may
fail. -/
inductive Steps : Engine → Engine → Prop
  | converts {e e' : Engine} (h : Converts e e') : Steps e e'
  | register (k : Key) (c : Converter) (e : Engine) : Steps e ((register k c).run e).2
  | unregister (k : Key) (e : Engine) : Steps e ((unregister k).run e).2
  | declareParents (child : String) (parents : List String) (e : Engine) :
      Steps e ((declareParents child parents).run e).2
  | declareRecord (s : Schema) (e : Engine) : Steps e ((declareRecord s).run e).2

/-- An engine that was called for whatever since it was started. -/
def Reachable (e : Engine) : Prop :=
  ∃ settings registry worker store, ReflTransGen Steps (start settings registry worker store) e

/-- A registration that is refused changes nothing. -/
theorem run_register (k : Key) (c : Converter) (e : Engine) : (register k c).run e =
    match e.setup.registry.register k c false with
    | .ok (previous, r) => (.ok previous, e.setRegistry r)
    | .error f => (.error f, e) := by
  rw [register, run_bind_of_ok (run_get e), run_bind, run_ofExcept]
  cases e.setup.registry.register k c false <;> rfl

/-- A removal that is refused or finds nothing changes nothing. -/
theorem run_unregister (k : Key) (e : Engine) : (unregister k).run e =
    match e.setup.registry.unregister k with
    | .ok (some removed, r) => (.ok (some removed), e.setRegistry r)
    | .ok (none, _) => (.ok none, e)
    | .error f => (.error f, e) := by
  rw [unregister, run_bind_of_ok (run_get e), run_bind, run_ofExcept]
  rcases e.setup.registry.unregister k with _ | ⟨_ | _, _⟩ <;> rfl

theorem reachable_start (settings : Settings) (registry : Registry) (worker : Worker)
    (store : Storage.Store) : (start settings registry worker store).Reachable :=
  ⟨settings, registry, worker, store, .refl⟩

theorem Reachable.step (he : e.Reachable) (h : Steps e e') : e'.Reachable := by
  obtain ⟨settings, registry, worker, store, he⟩ := he
  exact ⟨settings, registry, worker, store, he.tail h⟩

/-- An engine that was called for whatever, and has a setup now. -/
structure Under (u : Setup) (e : Engine) : Prop where
  reachable : e.Reachable
  setup_eq : e.setup = u

/-- What the session remembers is described as the registry has it. -/
def Coherent (e : Engine) : Prop := e.session.Coherent e.setup.registry

theorem coherent_setRegistry (r : Registry) (e : Engine) : (e.setRegistry r).Coherent :=
  coherent_of_described_eq_nil rfl

theorem Converts.setup_eq (h : Converts e e') : e'.setup = e.setup := by
  cases h
  rfl

theorem Converts.grows (h : Converts e e') : Grows e.setup.registry e.session e'.session := by
  cases h with
  | call call => exact call.keeps e.setup e.session

theorem Steps.coherent (h : Steps e e') (he : e.Coherent) : e'.Coherent := by
  cases h with
  | converts h =>
    rw [Coherent, h.setup_eq]
    exact (h.grows he).1
  | register k c =>
    rw [run_register]
    split
    · exact coherent_setRegistry _ e
    · exact he
  | unregister k =>
    rw [run_unregister]
    split
    · exact coherent_setRegistry _ e
    · exact he
    · exact he
  | declareParents child parents => exact coherent_setRegistry _ e
  | declareRecord s => exact coherent_setRegistry _ e

/-- In whatever state an engine is, what its session remembers is described as its registry has
it. -/
theorem Reachable.coherent (h : e.Reachable) : e.Coherent := by
  obtain ⟨settings, registry, worker, store, h⟩ := h
  induction h with
  | refl => exact coherent_of_described_eq_nil rfl
  | tail _ h ih => exact h.coherent ih

/-- Conversions keep the setup, and what is known stays known. -/
theorem converts_grows (h : ReflTransGen Converts e e') :
    e'.setup = e.setup ∧ Grows e.setup.registry e.session e'.session := by
  induction h with
  | refl => exact ⟨rfl, refl_of _ _⟩
  | tail _ h ih =>
    obtain ⟨hsetup, hgrows⟩ := ih
    refine ⟨h.setup_eq.trans hsetup, trans_of _ hgrows ?_⟩
    rw [← hsetup]
    exact h.grows

end Engine

end Interchange
