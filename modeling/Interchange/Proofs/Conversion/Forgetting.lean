import Interchange.Proofs.Conversion.Anew

/-!
# Conversions with nothing remembered

A type that is remembered is taken from memory wherever it occurs, also where there are too few
levels to describe it.  So an engine that forgets may refuse for want of levels what it would have
converted otherwise.  This is all that forgetting can do: the outcomes of conversions are the same
but for such a refusal, since it is a compositional property of steps to come to the same in a
session that remembers less.
-/

namespace Interchange

open Session Attempt

variable {r : Registry} {s s' : Session} {t : HostType} {d : Descriptor} {α : Type}

/-! ## Sessions that remember less -/

namespace Session

/-- A session remembers less than a coherent one, and is the same otherwise. -/
structure Behind (r : Registry) (s s' : Session) : Prop where
  coherent : s'.Coherent r
  inside : Inside s'.known s' s

theorem Coherent.behind (h : s.Coherent r) : Behind r s.forget s where
  coherent := h
  inside := ⟨rfl, fun _ _ hd ↦ nomatch hd⟩

theorem Behind.remember (h : Behind r s s') (hc : (s'.remember t d).Coherent r) :
    Behind r (s.remember t d) (s'.remember t d) where
  coherent := hc
  inside := by
    constructor
    · rw [Session.remember, h.inside.same]
      rfl
    · intro t' d' hd
      rw [known_remember] at hd ⊢
      split at hd
      · next ht => rwa [if_pos ht]
      · next ht =>
        rw [if_neg ht]
        exact h.inside.knows t' d' hd

end Session

/-! ## Steps that come to the same -/

/-- A step comes to the same in two sessions, and leaves the first one behind the second, unless it
is refused in the first for want of levels. -/
def Agrees (r : Registry) (x : Conversion α) (s s' : Session) : Prop :=
  (∃ path, x.outcome s = .error (.nestingLimit path)) ∨
    x.outcome s = x.outcome s' ∧ Behind r (x.run s).2 (x.run s').2

theorem Agrees.of_run {x y : Conversion α} (h : Agrees r x s s') (hs : y.run s = x.run s)
    (hs' : y.run s' = x.run s') : Agrees r y s s' := by
  rw [Agrees, outcome, outcome, hs, hs']
  exact h

/-- A step comes to the same in a session that remembers less, unless it is refused there for want
of levels. -/
def Indifferent (r : Registry) (x : Conversion α) : Prop := ∀ s s', Behind r s s' → Agrees r x s s'

theorem Blind.indifferent {x : Conversion α} (h : Blind x) : Indifferent r x := by
  intro s s' hs
  have hrun : x.run s = ((x.run s').1, (x.run s').2.recalling s.described) := by
    have hrecalling := h s' s.described
    rwa [recalling, ← hs.inside.same] at hrecalling
  have hquiet : (x.run s').2.described = s'.described := h.quiet s'
  refine .inr ⟨outcome_of_run hrun, (grows_of_described_eq hquiet hs.coherent).1, ?_⟩
  rw [hrun, known_of_described_eq hquiet]
  exact ⟨rfl, hs.inside.knows⟩

/-- A bind agrees if its first step does and what follows agrees where that has led. -/
theorem Agrees.bind {β : Type} {x : Conversion α} {k : α → Conversion β} (h : Agrees r x s s')
    (hk : ∀ a, (x.run s').1 = .ok a → Behind r (x.run s).2 (x.run s').2 →
      Agrees r (k a) (x.run s).2 (x.run s').2) : Agrees r (x >>= k) s s' := by
  rcases h with ⟨path, hpath⟩ | ⟨heq, hs⟩
  · exact .inl ⟨path, outcome_of_run (run_bind_of_error (Prod.ext hpath rfl) k)⟩
  · rcases hrun' : x.run s' with ⟨o, u'⟩
    have hrun : x.run s = (o, (x.run s).2) := Prod.ext (heq.trans (outcome_of_run hrun')) rfl
    rw [hrun'] at hs hk
    cases o with
    | error e =>
      rw [Agrees, outcome, outcome, run_bind_of_error hrun, run_bind_of_error hrun']
      exact .inr ⟨rfl, hs⟩
    | ok a =>
      rw [Agrees, outcome, outcome, run_bind_of_ok hrun, run_bind_of_ok hrun']
      exact hk a rfl hs

theorem compositional_indifferent (r : Registry) : Compositional fun _ x ↦ Indifferent r x where
  blind h := h.indifferent
  bind_of_run hx hk := fun s s' hs ↦
    (hx s s' hs).bind fun a ha hs ↦ hk s' a _ (Prod.ext ha rfl) _ _ hs

/-! ## Describing -/

/-- A type that only one session remembers is described in the other as it is remembered. -/
theorem agrees_describe_of_known (hs : Behind r s s') (ht : s'.known t d) (levels : Nat)
    (place : Place) : Agrees r (r.describe levels place t) s s' := by
  have hrun' := run_describe_of_known (r := r) ht levels place
  have hends := (hs.coherent t d ht).ends_describe s'.known_unique s' levels place
  rcases hrun : (r.describe levels place t).run s with ⟨e | d', u⟩
  · obtain ⟨-, -, path, rfl⟩ := hends.of_error hs.inside hrun
    exact .inl ⟨path, outcome_of_run hrun⟩
  · obtain ⟨hu, rfl⟩ := hends.of_ok hs.inside hrun
    rw [Agrees, outcome_of_run hrun, outcome_of_run hrun', hrun, hrun']
    exact .inr ⟨rfl, hs.coherent, hu⟩

theorem Session.Behind.described?_eq_none (hs : Behind r s s') (ht : s'.described? t = none) :
    s.described? t = none := by
  cases hd : s.described? t with
  | none => rfl
  | some d => cases ht.symm.trans (hs.inside.knows t d hd)

/-- A type that neither session remembers is remembered by both in the end. -/
theorem Indifferent.agrees_remembering {x : Conversion Descriptor} (hx : Indifferent r x)
    (hs : Behind r s s') (ht : s'.described? t = none)
    (hc : ((remembering t x).run s').2.Coherent r) : Agrees r (remembering t x) s s' := by
  have hrun (u : Session) (hu : u.described? t = none) :
      (remembering t x).run u = (x >>= fun d ↦ do modify (·.remember t d); return d).run u := by
    rw [remembering, run_bind_of_ok (run_get u), hu]
  rw [hrun s' ht] at hc
  refine ((hx s s' hs).bind fun d hd hs ↦ ?_).of_run (hrun s (hs.described?_eq_none ht))
    (hrun s' ht)
  rw [run_bind_of_ok (Prod.ext hd rfl)] at hc
  exact .inr ⟨rfl, hs.remember hc⟩

theorem indifferent_describe (levels : Nat) (place : Place) (t : HostType) :
    Indifferent r (r.describe levels place t) := by
  induction levels, t using HostType.levels_induction generalizing place with
  | step levels t deeper ih =>
    intro s s' hs
    cases ht : s'.described? t with
    | some d => exact agrees_describe_of_known hs ht levels place
    | none =>
      have hc := (keeps_describe levels place t s' hs.coherent).1
      rw [Registry.describe_eq] at hc ⊢
      have hP := compositional_indifferent r
      refine Indifferent.agrees_remembering (hP.bind (hP.ofExcept _) fun c ↦ ?_) hs ht hc
      refine hP.describeBy ?_ (fun part hp ↦ ih part hp place) c
      intro describe hd place t
      obtain ⟨n, hn, rfl⟩ := below_eq_some.mp hd
      exact deeper n hn t place

theorem pervades_indifferent (r : Registry) : Pervades r fun _ x ↦ Indifferent r x where
  toCompositional := compositional_indifferent r
  describe := indifferent_describe

/-! ## Engines that forget -/

namespace Engine

variable {e : Engine} {x : Setup → Conversion α}

/-- The same engine with nothing remembered. -/
def forgetting (e : Engine) : Engine := { e with session := e.session.forget }

/-- A call for a descriptor, a literal or a value. -/
inductive Asks : {α : Type} → (Setup → Conversion α) → Prop
  | describe (place : Place) (t : HostType) : Asks fun u ↦ u.describe place t
  | toLiteral (place : Place) (t : HostType) (v : Value) : Asks fun u ↦ u.toLiteral place t v
  | toValue (place : Place) (t : HostType) (l : Literal) : Asks fun u ↦ u.toValue place t l

theorem Asks.indifferent (h : Asks x) (u : Setup) : Indifferent u.registry (x u) := by
  have hP := pervades_indifferent u.registry
  cases h with
  | describe place t => exact indifferent_describe _ place t
  | toLiteral place t v => exact Setup.toLiteral_of_pervades hP place t v
  | toValue place t l => exact Setup.toValue_of_pervades hP place t l

/-- What an engine has described before makes no difference to descriptors, literals and values,
unless an engine that remembers nothing refuses them for want of levels. -/
theorem outcome_forgetting (he : e.Reachable) (h : Asks x) :
    (convert x).outcome e.forgetting = (convert x).outcome e ∨
      ∃ path, (convert x).outcome e.forgetting = .error (.nestingLimit path) := by
  rcases h.indifferent e.setup _ _ he.coherent.behind with hpath | ⟨heq, -⟩
  · exact .inr hpath
  · exact .inl heq

/-! ## A record within a record -/

def innerType : HostType := .record "inner" [("g", .ofKind .integer)] false

def outerType : HostType := .record "outer" [("f", innerType)] false

/-- An engine that takes values one level deep, and has described the inner record. -/
def shallowEngine : Engine :=
  let settings := { Settings.defaults with maxDepth := 1 }
  let e := start settings Registry.defaults ⟨Settings.sharedWorker⟩ (.inMemory "")
  ((convert fun u ↦ u.describe .root innerType).run e).2

theorem reachable_shallowEngine : shallowEngine.Reachable :=
  (reachable_start _ _ _ _).step (.converts (.call (.describe .root _) _))

/-- A record that is one level deep is described without memory as well. -/
theorem outcome_forgetting_inner :
    (convert fun u ↦ u.describe .root innerType).outcome shallowEngine.forgetting =
      .ok (.record [("g", .primitive .integer)]) := by
  rcases outcome_forgetting reachable_shallowEngine (.describe .root innerType) with h | ⟨path, h⟩
  · rw [h]
    rfl
  · cases h

/-- A record that is two levels deep is described only from memory. -/
theorem not_outcome_forgetting :
    ¬ ∀ (e : Engine) (α : Type) (x : Setup → Conversion α), e.Reachable → Asks x →
      (convert x).outcome e.forgetting = (convert x).outcome e := by
  intro h
  have hsame := h shallowEngine Descriptor _ reachable_shallowEngine (.describe .root outerType)
  have hcold : (convert fun u ↦ u.describe .root outerType).outcome shallowEngine.forgetting =
      .error (.nestingLimit [.field "f", .field "g"]) := rfl
  have hwarm : (convert fun u ↦ u.describe .root outerType).outcome shallowEngine =
      .ok (.record [("f", .record [("g", .primitive .integer)])]) := rfl
  rw [hcold, hwarm] at hsame
  cases hsame

end Engine

end Interchange
