import Interchange.Registry.Lookup
import Mathlib.Logic.Function.Iterate
import Mathlib.Logic.Relation

/-!
# Ancestors as reachable types

The walk through the declared parents finds the types that parents lead to, in whatever circles
they lead.  It never follows the parents of a type twice: what a path leads to beyond a type that
was followed is found from the parents of that type, so a path can be cut at its last visit there.

So a type is a subtype of just those that some number of steps to a parent lead to, and a subtype of
a subtype is a subtype.

What the walk finds comes in the order of a recursive visit that goes depth first and from left to
right (`Visits`), and a loop that knows no more than what it has found and what is pending (`turn`)
comes to the same.
-/

namespace Interchange.Registry

open Relation

/-! ## Paths that avoid types -/

/-- The parents that a table holds for a type. -/
def parentsIn (table : List (String × List String)) (name : String) : List String :=
  (table.lookup name).getD []

/-- A step to a parent, but to none of the types that were seen. -/
def Onward (table : List (String × List String)) (seen : List String) (a b : String) : Prop :=
  b ∉ seen ∧ b ∈ parentsIn table a

variable {table : List (String × List String)} {seen pending : List String}
  {name a b x : String}

theorem parentsIn_without_self : parentsIn (without table name) name = [] := by
  have hnone : (without table name).lookup name = none := by
    rw [List.lookup_eq_none_iff]
    intro p hp
    have hne : p.1 ≠ name := by simpa using (List.mem_filter.mp hp).2
    simpa using hne.symm
  rw [parentsIn, hnone]
  rfl

theorem parentsIn_without_of_ne (h : a ≠ name) :
    parentsIn (without table name) a = parentsIn table a := by
  unfold parentsIn without
  congr 1
  induction table with
  | nil => rfl
  | cons p table ih =>
    by_cases hp : p.1 = name
    · have hne : (a == p.1) = false := beq_eq_false_iff_ne.mpr (hp ▸ h)
      rw [List.filter_cons_of_neg (by simpa using hp), List.lookup_cons, hne]
      exact ih
    · rw [List.filter_cons_of_pos (by simpa using hp), List.lookup_cons, List.lookup_cons, ih]

/-- Without a type that was seen, the steps are those that neither start nor end there. -/
theorem onward_without :
    Onward (without table name) (name :: seen) a b ↔
      a ≠ name ∧ b ≠ name ∧ Onward table seen a b := by
  by_cases ha : a = name
  · subst ha
    simp [Onward, parentsIn_without_self]
  · simp [Onward, parentsIn_without_of_ne ha, ha, and_assoc]

/-- A path ends at a type, or can be cut at its last visit there. -/
theorem cut_path (name : String) (h : ReflTransGen (Onward table seen) a x) :
    x = name ∨ ∃ p, (p = a ∨ p ∈ parentsIn table name ∧ p ∉ seen) ∧ p ≠ name ∧
      ReflTransGen (Onward (without table name) (name :: seen)) p x := by
  induction h with
  | refl =>
    by_cases ha : a = name
    · exact .inl ha
    · exact .inr ⟨a, .inl rfl, ha, .refl⟩
  | @tail y z _ hyz ih =>
    by_cases hz : z = name
    · exact .inl hz
    · rcases ih with rfl | ⟨p, hp, hne, hpath⟩
      · exact .inr ⟨z, .inr ⟨hyz.2, hyz.1⟩, hz, .refl⟩
      · by_cases hy : y = name
        · subst hy
          exact .inr ⟨z, .inr ⟨hyz.2, hyz.1⟩, hz, .refl⟩
        · exact .inr ⟨p, hp, hne, hpath.tail (onward_without.mpr ⟨hy, hz, hyz⟩)⟩

theorem path_of_without
    (h : ReflTransGen (Onward (without table name) (name :: seen)) a x) :
    ReflTransGen (Onward table seen) a x :=
  ReflTransGen.mono (fun _ _ hab ↦ (onward_without.mp hab).2.2) _ _ h

/-! ## The walk -/

theorem without_of_lookup_eq_none (h : table.lookup name = none) : without table name = table := by
  rw [without, List.filter_eq_self]
  intro p hp
  have hne : name ≠ p.1 := by simpa using List.lookup_eq_none_iff.mp h p hp
  simpa using hne.symm

/-- One step of the walk: a type that was seen is passed over, and another one is followed. -/
theorem walk_cons : walk table seen (name :: pending) =
    if name ∈ seen then walk table seen pending
    else name :: walk (without table name) (name :: seen) (parentsIn table name ++ pending) := by
  rw [walk]
  split
  · rfl
  · split
    · next hnone =>
      rw [without_of_lookup_eq_none hnone, parentsIn, hnone]
      rfl
    · next parents hsome =>
      rw [parentsIn, hsome]
      rfl

/-- What holds at the end of a walk, and passes back over each of its steps, holds of every walk. -/
theorem walk_induction {P : List (String × List String) → List String → List String → Prop}
    (nil : ∀ table seen, P table seen [])
    (passed : ∀ table seen name pending, name ∈ seen → P table seen pending →
      P table seen (name :: pending))
    (followed : ∀ table seen name pending, name ∉ seen →
      P (without table name) (name :: seen) (parentsIn table name ++ pending) →
      P table seen (name :: pending)) (table : List (String × List String))
    (seen pending : List String) : P table seen pending := by
  induction table, seen, pending using walk.induct with
  | case1 table seen => exact nil table seen
  | case2 table seen name pending hmem ih => exact passed table seen name pending hmem ih
  | case3 table seen name pending hmem hnone ih =>
    refine followed table seen name pending hmem ?_
    rw [without_of_lookup_eq_none hnone, parentsIn, hnone]
    exact ih
  | case4 table seen name pending hmem parents hsome ih =>
    refine followed table seen name pending hmem ?_
    rw [parentsIn, hsome]
    exact ih

/-- The walk finds what is reached from a pending type past those already seen. -/
theorem mem_walk_iff : x ∈ walk table seen pending ↔
    ∃ p ∈ pending, p ∉ seen ∧ ReflTransGen (Onward table seen) p x := by
  induction table, seen, pending using walk_induction with
  | nil table seen => simp [walk]
  | passed table seen name pending hmem ih =>
    rw [walk_cons, if_pos hmem, ih]
    simp [hmem]
  | followed table seen name pending hmem ih =>
    rw [walk_cons, if_neg hmem, List.mem_cons, ih]
    constructor
    · rintro (rfl | ⟨p, hp, hseen, hpath⟩)
      · exact ⟨x, List.mem_cons_self, hmem, .refl⟩
      · obtain ⟨hne, hseen⟩ := List.ne_and_not_mem_of_not_mem_cons hseen
        have hpath := path_of_without hpath
        rcases List.mem_append.mp hp with hp | hp
        · exact ⟨name, List.mem_cons_self, hmem, .head ⟨hseen, hp⟩ hpath⟩
        · exact ⟨p, List.mem_cons_of_mem _ hp, hseen, hpath⟩
    · rintro ⟨p, hp, hseen, hpath⟩
      rcases cut_path name hpath with rfl | ⟨q, hq, hne, hrest⟩
      · exact .inl rfl
      · refine .inr ⟨q, ?_, ?_, hrest⟩
        · rcases hq with rfl | ⟨hq, -⟩
          · exact List.mem_append_right _ (List.mem_of_ne_of_mem hne hp)
          · exact List.mem_append_left _ hq
        · rcases hq with rfl | ⟨-, hq⟩
          · exact List.not_mem_cons_of_ne_of_not_mem hne hseen
          · exact List.not_mem_cons_of_ne_of_not_mem hne hq

/-! ## Ancestors -/

variable {r : Registry}

/-- A type is a direct parent of another one. -/
def Parent (r : Registry) (child parent : String) : Prop := parent ∈ r.parentsOf child

/-- The ancestors of a type are the other types that steps to parents lead to. -/
theorem mem_ancestors_iff : a ∈ r.ancestors name ↔ a ≠ name ∧ ReflTransGen r.Parent name a := by
  rw [ancestors, mem_walk_iff]
  constructor
  · rintro ⟨p, hp, hseen, hpath⟩
    have hne : p ≠ name := fun he ↦ hseen (he ▸ List.mem_cons_self)
    refine ⟨?_, .head hp (ReflTransGen.mono (fun _ _ hab ↦ hab.2) _ _ hpath)⟩
    cases hpath with
    | refl => exact hne
    | tail _ hlast => exact fun he ↦ hlast.1 (he ▸ List.mem_cons_self)
  · rintro ⟨hne, hpath⟩
    induction hpath with
    | refl => exact absurd rfl hne
    | @tail b c _ hbc ih =>
      have hseen : c ∉ [name] := fun hc ↦ hne (List.mem_singleton.mp hc)
      by_cases hb : b = name
      · subst hb
        exact ⟨c, hbc, hseen, .refl⟩
      · obtain ⟨p, hp, hp', hpath⟩ := ih hb
        exact ⟨p, hp, hp', hpath.tail ⟨hseen, hbc⟩⟩

/-- A type is a subtype of those that some number of steps to a parent lead to. -/
theorem isSubtype_iff : r.isSubtype a b = true ↔ ReflTransGen r.Parent a b := by
  rw [isSubtype, Bool.or_eq_true, decide_eq_true_eq, List.contains_iff_mem, mem_ancestors_iff]
  constructor
  · rintro (rfl | ⟨-, hpath⟩)
    · exact .refl
    · exact hpath
  · intro hpath
    by_cases he : a = b
    · exact .inl he
    · exact .inr ⟨Ne.symm he, hpath⟩

theorem isSubtype_refl (r : Registry) (name : String) : r.isSubtype name name = true :=
  isSubtype_iff.mpr .refl

theorem isSubtype_trans {c : String} (hab : r.isSubtype a b = true) (hbc : r.isSubtype b c = true) :
    r.isSubtype a c = true :=
  isSubtype_iff.mpr ((isSubtype_iff.mp hab).trans (isSubtype_iff.mp hbc))

/-! ## The order of the walk -/

/-- No type that was seen is found. -/
theorem notMem_of_mem_walk (h : x ∈ walk table seen pending) : x ∉ seen := by
  obtain ⟨p, -, hseen, hpath⟩ := mem_walk_iff.mp h
  cases hpath with
  | refl => exact hseen
  | tail _ hlast => exact hlast.1

theorem nodup_walk (table : List (String × List String)) (seen pending : List String) :
    (walk table seen pending).Nodup := by
  induction table, seen, pending using walk_induction with
  | nil table seen => simp [walk]
  | passed table seen name pending hmem ih =>
    rw [walk_cons, if_pos hmem]
    exact ih
  | followed table seen name pending hmem ih =>
    rw [walk_cons, if_neg hmem, List.nodup_cons]
    constructor
    · intro hfound
      exact notMem_of_mem_walk hfound List.mem_cons_self
    · exact ih

/-- Visiting pending types in turn, each new one followed by its parents right away, leads from the
types seen before to those seen after, in the order in which they are first seen. -/
inductive Visits (r : Registry) : List String → List String → List String → Prop
  | done (seen : List String) : Visits r seen [] seen
  | again {seen pending after : List String} {name : String} (mem : name ∈ seen)
      (rest : Visits r seen pending after) : Visits r seen (name :: pending) after
  | first {seen inside pending after : List String} {name : String} (new : name ∉ seen)
      (parents : Visits r (seen ++ [name]) (r.parentsOf name) inside)
      (rest : Visits r inside pending after) : Visits r seen (name :: pending) after

section

variable {before after after' more : List String}

/-- A visit comes to one end only. -/
theorem Visits.unique (h : r.Visits before pending after) (h' : r.Visits before pending after') :
    after = after' := by
  induction h generalizing after' with
  | done =>
    cases h'
    rfl
  | again mem _ ih =>
    cases h' with
    | again _ rest => exact ih rest
    | first new => exact absurd mem new
  | first new _ _ ihparents ihrest =>
    cases h' with
    | again mem => exact absurd mem new
    | first _ parents rest =>
      rw [← ihparents parents] at rest
      exact ihrest rest

/-- What is pending together is visited one part after the other. -/
theorem Visits.of_append (h : r.Visits before (pending ++ more) after) :
    ∃ between, r.Visits before pending between ∧ r.Visits between more after := by
  induction pending generalizing before with
  | nil => exact ⟨before, .done before, h⟩
  | cons name pending ih =>
    cases h with
    | again mem rest =>
      obtain ⟨between, hpending, hmore⟩ := ih rest
      exact ⟨between, .again mem hpending, hmore⟩
    | first new parents rest =>
      obtain ⟨between, hpending, hmore⟩ := ih rest
      exact ⟨between, .first new parents hpending, hmore⟩

/-- A table that lost only the parents of types that were seen loses no others with one more. -/
theorem parentsIn_without_eq (htable : ∀ a, a ∉ seen → parentsIn table a = r.parentsOf a) :
    ∀ a, a ∉ name :: seen → parentsIn (without table name) a = r.parentsOf a := by
  intro a ha
  obtain ⟨hne, ha⟩ := List.ne_and_not_mem_of_not_mem_cons ha
  rw [parentsIn_without_of_ne hne, htable a ha]

/-- The walk goes on as a visit does.  The table has lost only the parents of types that were
seen, and what it leaves pending is visited after the parents of a type. -/
theorem visits_walk (hseen : ∀ a, a ∈ before ↔ a ∈ seen)
    (htable : ∀ a, a ∉ seen → parentsIn table a = r.parentsOf a) :
    r.Visits before pending (before ++ walk table seen pending) := by
  induction table, seen, pending using walk_induction generalizing before with
  | nil table seen =>
    rw [walk, List.append_nil]
    exact .done before
  | passed table seen name pending hmem ih =>
    rw [walk_cons, if_pos hmem]
    exact .again ((hseen name).mpr hmem) (ih hseen htable)
  | followed table seen name pending hmem ih =>
    have hseen' : ∀ a, a ∈ before ++ [name] ↔ a ∈ name :: seen := by
      intro a
      rw [List.mem_append, List.mem_singleton, List.mem_cons, hseen, or_comm]
    have hvisits := ih hseen' (parentsIn_without_eq htable)
    rw [htable name hmem, List.append_assoc] at hvisits
    obtain ⟨inside, hparents, hrest⟩ := hvisits.of_append
    rw [walk_cons, if_neg hmem, htable name hmem]
    exact .first (fun hname ↦ hmem ((hseen name).mp hname)) hparents hrest

/-- A recursive visit of a type's parents finds its ancestors, in their order. -/
theorem visits_iff :
    r.Visits [name] (r.parentsOf name) after ↔ after = name :: r.ancestors name := by
  have hvisits : r.Visits [name] (r.parentsOf name) (name :: r.ancestors name) :=
    visits_walk (fun _ ↦ Iff.rfl) fun _ _ ↦ rfl
  constructor
  · intro h
    exact h.unique hvisits
  · rintro rfl
    exact hvisits

end

/-- One turn of a loop that looks for the ancestors of a type, on those that it has found and on the
types that are pending, the next one first. -/
def turn (r : Registry) (name : String) : List String × List String → List String × List String
  | (found, []) => (found, [])
  | (found, next :: pending) =>
    if next = name ∨ next ∈ found then (found, pending)
    else (found ++ [next], r.parentsOf next ++ pending)

/-- The loop goes on as the walk does, one turn for each step, until nothing is pending. -/
theorem exists_iterate_turn_walk {found : List String}
    (hseen : ∀ a, a ∈ seen ↔ a = name ∨ a ∈ found)
    (htable : ∀ a, a ∉ seen → parentsIn table a = r.parentsOf a) :
    ∃ n, (r.turn name)^[n] (found, pending) = (found ++ walk table seen pending, []) := by
  induction table, seen, pending using walk_induction generalizing found with
  | nil table seen =>
    refine ⟨0, ?_⟩
    rw [walk, List.append_nil]
    rfl
  | passed table seen next pending hmem ih =>
    obtain ⟨n, hn⟩ := ih hseen htable
    refine ⟨n + 1, ?_⟩
    rw [Function.iterate_succ_apply, turn, if_pos ((hseen next).mp hmem), hn, walk_cons,
      if_pos hmem]
  | followed table seen next pending hmem ih =>
    have hseen' : ∀ a, a ∈ next :: seen ↔ a = name ∨ a ∈ found ++ [next] := by
      intro a
      rw [List.mem_cons, hseen, List.mem_append, List.mem_singleton, or_comm, or_assoc]
    obtain ⟨n, hn⟩ := ih hseen' (parentsIn_without_eq htable)
    rw [htable next hmem, List.append_assoc] at hn
    refine ⟨n + 1, ?_⟩
    rw [Function.iterate_succ_apply, turn, if_neg (fun h ↦ hmem ((hseen next).mpr h)), walk_cons,
      if_neg hmem, htable next hmem, hn]
    rfl

/-- Whatever parents are declared, in circles too, a loop that follows them ends with the ancestors
of a type.  These are the other types that one or more steps to a parent lead to, each once, in the
order in which a recursive visit, depth first and from left to right, first sees them.  So every
type is a subtype of itself, and a subtype of a subtype is a subtype. -/
theorem ancestors_in_preorder (r : Registry) (name : String) :
    (∃ n, (r.turn name)^[n] ([], r.parentsOf name) = (r.ancestors name, [])) ∧
      (∀ a, a ∈ r.ancestors name ↔ a ≠ name ∧ TransGen r.Parent name a) ∧
      (r.ancestors name).Nodup ∧
      (∀ after, r.Visits [name] (r.parentsOf name) after ↔ after = name :: r.ancestors name) ∧
      (∀ a, r.isSubtype a a = true) ∧
      ∀ a b c, r.isSubtype a b = true → r.isSubtype b c = true → r.isSubtype a c = true := by
  refine ⟨?_, ?_, nodup_walk _ _ _, fun _ ↦ visits_iff, r.isSubtype_refl,
    fun _ _ _ ↦ isSubtype_trans⟩
  · apply exists_iterate_turn_walk
    · simp
    · intro _ _
      rfl
  · intro a
    rw [mem_ancestors_iff, reflTransGen_iff_eq_or_transGen]
    constructor
    · rintro ⟨hne, rfl | hpath⟩
      · exact absurd rfl hne
      · exact ⟨hne, hpath⟩
    · rintro ⟨hne, hpath⟩
      exact ⟨hne, .inr hpath⟩

/-- Types that share a parent and lead back to where they came from. -/
example :
    let r := ((empty.declareParents "drawn" ["square", "round", "other"]).declareParents "square"
      ["shape"]).declareParents "round" ["shape", "drawn"]
    r.ancestors "drawn" = ["square", "shape", "round", "other"] := by
  cbv

end Interchange.Registry
