import Interchange.Proofs.Conversion.Agreement
import Interchange.Proofs.Conversion.Strict

/-!
# Round trips of native types

An element of a native type is written as a value of its host type, strictly of that type, and so
the value comes back from its literal as it was.  But optional types carry no tags: an optional
element that is there is written as the element itself.  Where that is written as none, which units
and optional elements may be, none is read.  So an element comes back with none in place of every
such one, and it comes back as it was just if there is none; in types without options of units or of
options there never is.
-/

namespace Interchange

open Attempt

namespace Native

/-- The element that comes back: what is there but is written as none comes back as none. -/
def reread : (n : Native) → n.Carrier → n.Carrier
  | list n, xs => xs.map n.reread
  | option _, none => none
  | option n, some x => if (n.toValue x).isNone then none else some (n.reread x)
  | entries n, es => es.map fun e ↦ (e.1, n.reread e.2)
  | int64, x => x
  | int32, x => x
  | binary64, x => x
  | bool, x => x
  | string, x => x
  | unit, x => x
  | timestamp, x => x
  | span, x => x

/-- Nothing in an element is there but written as none. -/
def Kept : (n : Native) → n.Carrier → Prop
  | list n, xs => ∀ x ∈ xs, n.Kept x
  | option _, none => True
  | option n, some x => (n.toValue x).isNone = false ∧ n.Kept x
  | entries n, es => ∀ e ∈ es, n.Kept e.2
  | _, _ => True

/-- Whether elements may be written as none. -/
def isNullable : Native → Bool
  | unit | option _ => true
  | _ => false

/-- Whether no option is over a type whose elements may be written as none. -/
def isLossless : Native → Bool
  | list n | entries n => n.isLossless
  | option n => !n.isNullable && n.isLossless
  | _ => true

theorem isNone_toValue {n : Native} (h : n.isNullable = false) (x : n.Carrier) :
    (n.toValue x).isNone = false := by
  cases n with
  | unit | option => cases h
  | _ => rfl

/-- An element comes back as it was just if nothing in it is there but written as none. -/
theorem reread_eq_self_iff (n : Native) (x : n.Carrier) : n.reread x = x ↔ n.Kept x := by
  induction n with
  | list n ih =>
    have hself : n.list.reread x = x ↔ x.map n.reread = x.map id := by rw [List.map_id]; rfl
    rw [hself, List.map_inj_left]
    exact forall₂_congr fun y _ ↦ ih y
  | option n ih =>
    cases x with
    | none => exact ⟨fun _ ↦ trivial, fun _ ↦ rfl⟩
    | some x =>
      rw [reread, Kept]
      cases (n.toValue x).isNone with
      | true => simp
      | false => simp [ih]
  | entries n ih =>
    have hself : n.entries.reread x = x ↔ x.map (fun e ↦ (e.1, n.reread e.2)) = x.map id := by
      rw [List.map_id]
      rfl
    rw [hself, List.map_inj_left]
    exact forall₂_congr fun e _ ↦ by simp [Prod.ext_iff, ih]
  | _ => exact ⟨fun _ ↦ trivial, fun _ ↦ rfl⟩

theorem kept_of_isLossless {n : Native} (h : n.isLossless = true) (x : n.Carrier) : n.Kept x := by
  induction n with
  | list n ih => exact fun x _ ↦ ih h x
  | entries n ih => exact fun e _ ↦ ih h e.2
  | option n ih =>
    cases x with
    | none => trivial
    | some x =>
      simp only [isLossless, Bool.and_eq_true, Bool.not_eq_true'] at h
      exact ⟨isNone_toValue h.1 x, ih h.2 x⟩
  | _ => trivial

/-! ## Reading what was written -/

theorem readEach_map {α β : Type} {read : Value → Conversion β} {write : α → Value} {f : α → β}
    (h : ∀ x, read (write x) = pure (f x)) (xs : List α) :
    readEach read (xs.map write) = pure (xs.map f) := by
  induction xs with
  | nil => rfl
  | cons x xs ih => rw [List.map_cons, readEach, h, pure_bind, ih, pure_bind, List.map_cons]

theorem readEntries_map {α β : Type} {read : Value → Conversion β} {write : α → Value} {f : α → β}
    (h : ∀ x, read (write x) = pure (f x)) (es : Entries α) :
    readEntries read (es.map fun e ↦ (e.1, write e.2)) = pure (es.map fun e ↦ (e.1, f e.2)) := by
  induction es with
  | nil => rfl
  | cons e es ih => rw [List.map_cons, readEntries, h, pure_bind, ih, pure_bind, List.map_cons]

theorem narrow?_toInt64 (x : Int32) : narrow? x.toInt64 = some x := by
  rw [narrow?, Int32.toInt32_toInt64, if_pos rfl]

/-- What is there is read as such, unless it is none. -/
theorem ofValue_option {n : Native} {v : Value} (h : v.isNone = false) :
    (option n).ofValue v = some <$> n.ofValue v := by
  cases v with
  | scalar s =>
    cases s with
    | none => cases h
    | _ => rfl
  | _ => rfl

/-- What is read from the value of an element. -/
theorem ofValue_toValue (n : Native) (x : n.Carrier) :
    n.ofValue (n.toValue x) = pure (n.reread x) := by
  induction n with
  | list n ih => exact readEach_map ih x
  | entries n ih => exact readEntries_map ih x
  | option n ih =>
    cases x with
    | none => rfl
    | some x =>
      show (option n).ofValue (n.toValue x) = _
      rw [reread]
      cases hx : (n.toValue x).isNone with
      | true =>
        rw [Value.eq_none_of_isNone hx]
        rfl
      | false =>
        rw [ofValue_option hx, ih]
        rfl
  | int32 =>
    show int32.ofValue (.scalar (.integer x.toInt64)) = _
    rw [ofValue, narrow?_toInt64]
    rfl
  | _ => rfl

/-! ## Values of native types -/

variable {r : Registry} {choice : Registry.Choice}

/-- The value of an element is strictly of its host type. -/
theorem strictly_toValue (hr : r.Standard) (n : Native) (x : n.Carrier) (levels : Nat)
    (place : Place) : r.Strictly choice levels place n.hostType (n.toValue x) := by
  induction n generalizing levels place with
  | list n ih =>
    refine .list (hr.resolve_generic (o := .sequence) rfl) fun item hitem ↦ ?_
    obtain ⟨y, -, hy⟩ := List.mem_map.mp (List.fst_mem_of_mem_zipIdx hitem)
    rw [← hy]
    exact ih y _ _
  | entries n ih =>
    refine .dict (hr.resolve_generic (o := .mapping) rfl) fun item hitem ↦ ?_
    obtain ⟨e, -, rfl⟩ := List.mem_map.mp hitem
    exact ih e.2 _ _
  | option n ih =>
    have hnullable : r.Nullable (.optional n.hostType) n.hostType :=
      .optional (hr.resolve_generic (o := .optional) rfl)
    cases x with
    | none => exact .absent hnullable
    | some x => exact .present hnullable (ih x _ _)
  | _ => exact .scalar (hr.resolve_ofKind _)

/-- There is no stream in the value of an element. -/
theorem streamFree_toValue (n : Native) (x : n.Carrier) : (n.toValue x).StreamFree := by
  induction n with
  | list n ih =>
    refine Value.streamFreeItems_iff.mpr fun v hv ↦ ?_
    obtain ⟨y, -, rfl⟩ := List.mem_map.mp hv
    exact ih y
  | entries n ih =>
    refine Value.streamFreeEntries_iff.mpr fun e he ↦ ?_
    obtain ⟨e, -, rfl⟩ := List.mem_map.mp he
    exact ih e.2
  | option n ih =>
    cases x with
    | none => trivial
    | some x => exact ih x
  | _ => trivial

/-- The host type of a native type is not converted as a record. -/
theorem resolve_hostType_ne_record (hr : r.Standard) (n : Native) :
    r.resolve n.hostType ≠ .ok .record := by
  intro h
  cases n with
  | list n => cases h.symm.trans (hr.resolve_generic (o := .sequence) rfl)
  | entries n => cases h.symm.trans (hr.resolve_generic (o := .mapping) rfl)
  | option n => cases h.symm.trans (hr.resolve_generic (o := .optional) rfl)
  | _ => cases h.symm.trans (hr.resolve_ofKind _)

/-- Host types of native types are only about such types. -/
theorem exists_hostType_of_contains (hr : r.Standard) {n : Native} {u : HostType}
    (h : Relation.ReflTransGen r.Contains n.hostType u) : ∃ m : Native, u = m.hostType := by
  induction h with
  | refl => exact ⟨n, rfl⟩
  | tail _ hstep ih =>
    obtain ⟨m, rfl⟩ := ih
    generalize ht : m.hostType = t at hstep
    cases hstep with
    | part mem =>
      subst ht
      cases m with
      | list m | entries m | option m => exact ⟨m, List.mem_singleton.mp mem⟩
      | _ => cases mem
    | field resolved =>
      subst ht
      exact absurd resolved (resolve_hostType_ne_record hr m)

theorem distinctFields_hostType (hr : r.Standard) (n : Native) : r.DistinctFields n.hostType := by
  intro u s hu resolved _
  obtain ⟨m, rfl⟩ := exists_hostType_of_contains hr hu
  exact absurd resolved (resolve_hostType_ne_record hr m)

end Native

namespace Engine

open Relation

variable {e e₁ e₂ : Engine} {n : Native} {x : n.Carrier} {l : Literal}

/-- An element that was converted to a literal comes back, with none in place of all that is there
but written as none, whatever was converted in between.  So it comes back as it was just if there is
no such thing in it, as always in types without options of units or of options. -/
theorem toNative_toLiteralNative (he : e.Reachable) (hr : e.setup.registry.Standard)
    (ordered : (n.toValue x).Ordered)
    (h : (convert fun u ↦ u.toLiteralNative n x).run e = (.ok l, e₁))
    (hc : ReflTransGen Converts e₁ e₂) :
    (convert fun u ↦ u.toNative n l).run e₂ = (.ok (n.reread x), e₂) ∧
      ((convert fun u ↦ u.toNative n l).outcome e₂ = .ok x ↔ n.Kept x) ∧
      (n.isLossless = true → (convert fun u ↦ u.toNative n l).outcome e₂ = .ok x) := by
  have hvalue := toValue_toLiteral he hr (Native.distinctFields_hostType hr n) ordered
    (Native.streamFree_toValue n x) h hc
  -- nothing is changed on the way to the literal and back: what is lost is lost in `toValue`
  have hcanon : e.setup.registry.canon (e.setup.levels .root) .root n.hostType (n.toValue x) =
      n.toValue x := Registry.canon_of_strictly (Native.strictly_toValue hr n x _ _)
  rw [hcanon] at hvalue
  have hrun : (convert fun u ↦ u.toNative n l).run e₂ = (.ok (n.reread x), e₂) := by
    obtain ⟨s', hs', hsession⟩ := run_convert_eq_ok.mp hvalue
    refine run_convert_eq_ok.mpr ⟨s', ?_, hsession⟩
    rw [Setup.toNative, run_bind_of_ok hs', Native.ofValue_toValue]
    rfl
  have hkept : (convert fun u ↦ u.toNative n l).outcome e₂ = .ok x ↔ n.Kept x := by
    rw [outcome_of_run hrun, Except.ok.injEq]
    exact n.reread_eq_self_iff x
  exact ⟨hrun, hkept, fun hn ↦ hkept.mpr (Native.kept_of_isLossless hn x)⟩

/-- Optional integers under names, which may be there or not. -/
theorem toNative_toLiteralNative_integers :
    (convert fun u ↦ u.toNative (.entries (.option .int64))
      (.mapping [("a", .scalar (.integer 5)), ("b", .none)])).outcome
      ((convert fun u ↦ u.toLiteralNative (.entries (.option .int64))
        [("a", some 5), ("b", none)]).run freshEngine).2 = .ok [("a", some 5), ("b", none)] := by
  have ordered : ((Native.entries (.option .int64)).toValue
      [("a", some (5 : Int64)), ("b", none)]).Ordered := by
    refine ⟨?_, trivial, trivial, trivial⟩
    decide +kernel
  have hl : (convert fun u ↦ u.toLiteralNative (.entries (.option .int64))
      [("a", some (5 : Int64)), ("b", none)]).run freshEngine =
        (.ok (.mapping [("a", .scalar (.integer 5)), ("b", .none)]), _) := Prod.ext rfl rfl
  exact (toNative_toLiteralNative reachable_freshEngine standard_freshEngine ordered hl .refl).2.2
    rfl

/-- An optional unit that is there is written as none, and comes back as none. -/
theorem not_toNative_toLiteralNative :
    ¬ ∀ (e e₁ : Engine) (n : Native) (x : n.Carrier) (l : Literal), e.Reachable →
      e.setup.registry.Standard → (n.toValue x).Ordered →
      (convert fun u ↦ u.toLiteralNative n x).run e = (.ok l, e₁) →
      (convert fun u ↦ u.toNative n l).outcome e₁ = .ok x := by
  intro h
  have hkept := h freshEngine _ (.option .unit) (some ()) .none reachable_freshEngine
    standard_freshEngine trivial (Prod.ext rfl rfl)
  cases hkept

end Engine

end Interchange
