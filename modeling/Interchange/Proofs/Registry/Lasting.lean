import Interchange.Proofs.Conversion.Anew
import Interchange.Proofs.Registry.History

/-!
# What stays in a registry

The converters for plain data and for references let no other converter take their key.  A change
that would is refused, and a refused change changes nothing.  So whatever an engine is called for,
each of their names leads to the same converter and is described in the same way: a record, a parent
or a wildcard under such a name never comes into play, since what is registered under a type's own
name comes first.
-/

namespace Interchange

open Relation

namespace Registry

variable {r : Registry} {k : Key} {c : Converter} {f : Fault}

/-! ## Changes that are refused -/

/-- Something is registered under a key that lets nothing else take it. -/
def Keeps (r : Registry) (k : Key) : Prop :=
  ∃ entry, r.get? k = some entry ∧ entry.converter.isOverridable = false

theorem isFree_eq_false : r.isFree k = false ↔ r.Keeps k := by
  unfold isFree Keeps
  cases r.get? k <;> simp

theorem register_eq_error {isDefault : Bool} :
    r.register k c isDefault = .error f ↔ f = .protectedKey k.text ∧ r.Keeps k := by
  rw [← isFree_eq_false]
  unfold register
  split
  · next hfree => simp [hfree]
  · next hfree => simp [hfree, eq_comm]

theorem unregister_eq_error :
    r.unregister k = .error f ↔ f = .protectedKey k.text ∧ r.Keeps k := by
  rw [← isFree_eq_false, isFree]
  unfold unregister
  split
  · simp
  · split
    · next hfree => simp [hfree]
    · next hfree => simp [hfree, eq_comm]

/-! ## Converters that stay -/

/-- The converters for plain data and for references, which stay where they are. -/
def lasting : List Converter :=
  Kind.all.map .primitive ++ [.reference "file" .single, .reference "directory" .multipart]

example : lasting.map (·.name) = ["none", "int", "float", "str", "bool", "datetime", "timedelta",
    "bytes", "file", "directory"] := rfl

/-- What holds for every kind of plain data and for both references holds of what stays. -/
theorem forall_lasting {P : Converter → Prop} (primitive : ∀ kind, P (.primitive kind))
    (file : P (.reference "file" .single)) (directory : P (.reference "directory" .multipart)) :
    ∀ c ∈ lasting, P c := by
  intro c hc
  rcases List.mem_append.mp hc with hc | hc
  · obtain ⟨kind, -, rfl⟩ := List.mem_map.mp hc
    exact primitive kind
  · rcases List.mem_cons.mp hc with rfl | hc
    · exact file
    · rw [List.mem_singleton.mp hc]
      exact directory

theorem get?_defaults_of_lasting :
    ∀ c ∈ lasting, defaults.get? (.exact c.name) = some ⟨c, true⟩ := by
  apply forall_lasting
  · intro kind
    cases kind <;> rfl
  · rfl
  · rfl

theorem not_isOverridable_of_lasting : ∀ c ∈ lasting, c.isOverridable = false := by
  apply forall_lasting
  · intro kind
    rfl
  · rfl
  · rfl

/-- What stays is described by itself, without anything one level further in. -/
theorem exists_isDescribed_of_lasting : ∀ c ∈ lasting, ∃ d : Descriptor, d.recordDepth = 0 ∧
    ∀ (r : Registry) (t : HostType), r.resolve t = .ok c → r.IsDescribed t d := by
  have hleaf (d : Descriptor) (c : Converter)
      (composed : ∀ (r : Registry) (t : HostType), r.Composes c [] t d) (r : Registry)
      (t : HostType) (resolved : r.resolve t = .ok c) : r.IsDescribed t d :=
    (composed r t).isDescribed resolved fun _ hp ↦ nomatch hp
  apply forall_lasting
  · intro kind
    exact ⟨.primitive kind, rfl, hleaf _ _ fun _ _ ↦ .primitive⟩
  · exact ⟨.blob ⟨"", .single⟩, rfl, hleaf _ _ fun _ _ ↦ .reference⟩
  · exact ⟨.blob ⟨"", .multipart⟩, rfl, hleaf _ _ fun _ _ ↦ .reference⟩

/-- After any history on the registry of the built-in converters, what stays is where it was. -/
theorem get?_after_of_lasting (hc : c ∈ lasting) (history : List Change) :
    (defaults.after history).get? (.exact c.name) = some ⟨c, true⟩ :=
  get?_after_of_protected history (get?_defaults_of_lasting c hc)
    (not_isOverridable_of_lasting c hc)

theorem resolve_of_get? {name : String} {entry : Registration}
    (h : r.get? (.exact name) = some entry) : r.resolve (.named name) = .ok entry.converter := by
  apply resolve_of_exact
  rw [← get?_exact, h]
  rfl

end Registry

/-! ## Calls of engines -/

namespace Engine

variable {e e' : Engine}

/-- A call that is meant to change the registry. -/
inductive Alters : {α : Type} → Request α → Prop
  | register (k : Key) (c : Converter) : Alters (register k c)
  | unregister (k : Key) : Alters (unregister k)
  | declareParents (child : String) (parents : List String) : Alters (declareParents child parents)
  | declareRecord (s : Schema) : Alters (declareRecord s)

/-- A call that is meant to change the registry and fails was for a key that something keeps, and
leaves the engine as it was. -/
theorem Alters.of_error {α : Type} {x : Request α} (h : Alters x) {f : Fault}
    (hx : x.run e = (.error f, e')) :
    e' = e ∧ ∃ k, f = .protectedKey k.text ∧ e.setup.registry.Keeps k := by
  cases h with
  | register k c =>
    rw [run_register] at hx
    split at hx
    · cases hx
    · next g herror =>
      cases hx
      exact ⟨rfl, k, Registry.register_eq_error.mp herror⟩
  | unregister k =>
    rw [run_unregister] at hx
    split at hx
    · cases hx
    · cases hx
    · next g herror =>
      cases hx
      exact ⟨rfl, k, Registry.unregister_eq_error.mp herror⟩
  | declareParents child parents => cases hx
  | declareRecord s => cases hx

/-- What a call leaves of the registry is what a change leaves of it, or the registry itself. -/
theorem Steps.registry_cases (h : Steps e e') : e'.setup.registry = e.setup.registry ∨
    ∃ change : Registry.Change, e'.setup.registry = change.apply e.setup.registry := by
  cases h with
  | converts h => exact .inl (congrArg Setup.registry h.setup_eq)
  | register k c =>
    rw [run_register]
    cases hr : e.setup.registry.register k c false with
    | error f => exact .inl rfl
    | ok changed =>
      refine .inr ⟨.register k c false, ?_⟩
      simp only [Registry.Change.apply, hr]
      rfl
  | unregister k =>
    rw [run_unregister]
    rcases hr : e.setup.registry.unregister k with f | ⟨_ | removed, r⟩
    · exact .inl rfl
    · exact .inl rfl
    · refine .inr ⟨.unregister k, ?_⟩
      simp only [Registry.Change.apply, hr]
      rfl
  | declareParents child parents => exact .inr ⟨.declareParents child parents, rfl⟩
  | declareRecord s => exact .inr ⟨.declareRecord s, rfl⟩

/-- What calls leave of the registry is what a history of changes leaves of it. -/
theorem exists_registry_eq_after (h : ReflTransGen Steps e e') :
    ∃ history, e'.setup.registry = e.setup.registry.after history := by
  induction h with
  | refl => exact ⟨[], rfl⟩
  | tail _ hstep ih =>
    obtain ⟨history, hhistory⟩ := ih
    rcases hstep.registry_cases with hsame | ⟨change, hchange⟩
    · exact ⟨history, hsame.trans hhistory⟩
    · refine ⟨history ++ [change], ?_⟩
      rw [hchange, hhistory, Registry.after_concat]

/-- A type that is converted by what stays is described in one way by all engines. -/
theorem exists_outcome_describe {c : Converter} (hc : c ∈ Registry.lasting) :
    ∃ d, ∀ (e : Engine) (t : HostType) (place : Place), e.Reachable →
      e.setup.registry.resolve t = .ok c →
      (convert fun u ↦ u.describe place t).outcome e = .ok d := by
  obtain ⟨d, hdepth, hd⟩ := Registry.exists_isDescribed_of_lasting c hc
  refine ⟨d, ?_⟩
  intro e t place he hresolve
  have hunder : e.Under e.setup := ⟨he, rfl⟩
  rcases hunder.outcome_describe (hd _ _ hresolve) place with houtcome | ⟨hdeep, -⟩
  · exact houtcome
  · rw [hdepth] at hdeep
    exact absurd hdeep (Nat.not_lt_zero _)

/-- Whatever an engine with the built-in converters was called for, plain data and references are
converted and described as at the start, and nothing can take their names.  Every call for a change
of the registry that is refused leaves the engine as it was. -/
theorem lasting_stays {settings : Settings} {worker : Worker} {store : Storage.Store}
    (h : ReflTransGen Steps (start settings Registry.defaults worker store) e) :
    (∀ c ∈ Registry.lasting,
      e.setup.registry.resolve (.named c.name) = .ok c ∧
      (∃ d, ∀ place, (convert fun u ↦ u.describe place (.named c.name)).outcome e = .ok d ∧
        (convert fun u ↦ u.describe place (.named c.name)).outcome
          (start settings Registry.defaults worker store) = .ok d) ∧
      (∀ c', (register (.exact c.name) c').run e = (.error (.protectedKey c.name), e)) ∧
      (unregister (.exact c.name)).run e = (.error (.protectedKey c.name), e)) ∧
    ∀ {α : Type} {x : Request α} {f : Fault} {e' : Engine}, Alters x → x.run e = (.error f, e') →
      e' = e ∧ ∃ k, f = .protectedKey k.text ∧ e.setup.registry.Keeps k := by
  refine ⟨?_, fun hx hrun ↦ hx.of_error hrun⟩
  intro c hc
  have hstart : (start settings Registry.defaults worker store).Reachable := reachable_start _ _ _ _
  have he : e.Reachable := ⟨_, _, _, _, h⟩
  obtain ⟨history, hhistory⟩ := exists_registry_eq_after h
  have hentry : e.setup.registry.get? (.exact c.name) = some ⟨c, true⟩ := by
    rw [hhistory]
    exact Registry.get?_after_of_lasting hc history
  have hkeeps : e.setup.registry.Keeps (.exact c.name) :=
    ⟨_, hentry, Registry.not_isOverridable_of_lasting c hc⟩
  have hresolve := Registry.resolve_of_get? hentry
  refine ⟨hresolve, ?_, ?_, ?_⟩
  · obtain ⟨d, hd⟩ := exists_outcome_describe hc
    have hresolve₀ := Registry.resolve_of_get? (Registry.get?_defaults_of_lasting c hc)
    exact ⟨d, fun place ↦ ⟨hd e _ place he hresolve, hd _ _ place hstart hresolve₀⟩⟩
  · intro c'
    rw [run_register, Registry.register_eq_error.mpr ⟨rfl, hkeeps⟩]
    rfl
  · rw [run_unregister, Registry.unregister_eq_error.mpr ⟨rfl, hkeeps⟩]
    rfl

/-- An engine where a record is declared under the name of the integers, which are given texts for a
parent, and where all that nothing else takes goes to streams. -/
def shadowedEngine : Engine :=
  let e := start Settings.defaults Registry.defaults ⟨Settings.sharedWorker⟩ (.inMemory "")
  let e := ((declareRecord ⟨"int", [("value", .ofKind .string)], false⟩).run e).2
  let e := ((declareParents "int" ["str"]).run e).2
  let e := ((register .wildcard .jsonLines).run e).2
  ((unregister (.exact "int")).run e).2

/-- Integers stay integers there, and their name is not given to streams. -/
theorem lasting_stays_shadowed :
    shadowedEngine.setup.registry.resolve (.named "int") = .ok (.primitive .integer) ∧
      (convert fun u ↦ u.describe .root (.named "int")).outcome shadowedEngine =
        .ok (.primitive .integer) ∧
      (register (.exact "int") .jsonLines).run shadowedEngine =
        (.error (.protectedKey "int"), shadowedEngine) := by
  have hsteps : ReflTransGen Steps (start Settings.defaults Registry.defaults
      ⟨Settings.sharedWorker⟩ (.inMemory "")) shadowedEngine :=
    (((ReflTransGen.single (.declareRecord _ _)).tail (.declareParents _ _ _)).tail
      (.register _ _ _)).tail (.unregister _ _)
  have hint : Converter.primitive .integer ∈ Registry.lasting := by
    simp [Registry.lasting, Kind.all]
  obtain ⟨hlasting, hrefused⟩ := lasting_stays hsteps
  obtain ⟨hresolve, ⟨d, hd⟩, hregister, -⟩ := hlasting _ hint
  have hd₀ : (convert fun u ↦ u.describe .root (.named "int")).outcome (start Settings.defaults
      Registry.defaults ⟨Settings.sharedWorker⟩ (.inMemory "")) = .ok (.primitive .integer) := rfl
  refine ⟨hresolve, ?_, hregister _⟩
  rw [← hd₀]
  exact (hd .root).1.trans (hd .root).2.symm

end Engine

end Interchange
