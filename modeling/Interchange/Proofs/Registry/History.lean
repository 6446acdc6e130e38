import Interchange.Proofs.Registry.Standard
import Mathlib.Data.List.Dedup
import Mathlib.Data.List.Induction

/-!
# Histories of a registry

A registry is what a history of changes leaves, refused ones included.  Under a type's name there is
what was registered there last, unless it was removed, and the claims are those of what is still
registered, in the order of the latest registrations: nothing of what was replaced or removed is
left among them.  So the converter that guesses the type of a stored payload can be told from the
registrations alone.
-/

namespace Interchange.Registry

/-- A call that changes a registry. -/
inductive Change where
  | register (key : Key) (converter : Converter) (isDefault : Bool)
  | unregister (key : Key)
  | declareParents (child : String) (parents : List String)
  | declareRecord (schema : Schema)

namespace Change

/-- What a change leaves of a registry, which is the registry itself where it is refused. -/
def apply (r : Registry) : Change → Registry
  | register k c isDefault => match r.register k c isDefault with
    | .ok (_, r') => r'
    | .error _ => r
  | unregister k => match r.unregister k with
    | .ok (_, r') => r'
    | .error _ => r
  | declareParents child parents => r.declareParents child parents
  | declareRecord s => r.declareRecord s

/-- The name that a change registers something under, where it is not refused. -/
def registered? (r : Registry) : Change → Option String
  | register (.exact name) _ _ => if r.isFree (.exact name) then some name else none
  | _ => none

end Change

/-- What a history leaves of a registry. -/
def after (r : Registry) (history : List Change) : Registry := history.foldl Change.apply r

@[simp] theorem after_nil (r : Registry) : r.after [] = r := rfl

@[simp] theorem after_append (r : Registry) (history later : List Change) :
    r.after (history ++ later) = (r.after history).after later := List.foldl_append

theorem after_concat (r : Registry) (history : List Change) (change : Change) :
    r.after (history ++ [change]) = change.apply (r.after history) := after_append _ _ _

/-- The registrations of the built-in converters. -/
def installs : List Change := builtins.map fun c ↦ .register c.key c true

/-- The built-in converters are registered like any others. -/
theorem after_installs : empty.after installs = defaults := by
  rw [after, installs, List.foldl_map]
  rfl

/-! ## What a change does to names and claims -/

variable {r : Registry}

theorem claims_foldl_addClaim (host : String) (c : Converter) (formats : List BlobType) :
    (formats.foldl (addClaim host c) r).claims = r.claims ++ formats.map (⟨·, host, c⟩) := by
  induction formats generalizing r with
  | nil => simp
  | cons format formats ih => rw [List.foldl_cons, ih, List.map_cons, List.append_cons]; rfl

theorem claims_claimFormats (r : Registry) (host : String) (c : Converter) :
    (r.claimFormats host c).claims =
      r.claims.filter (·.host ≠ host) ++ c.formats.map (⟨·, host, c⟩) :=
  claims_foldl_addClaim host c c.formats

@[simp] theorem claims_put (r : Registry) (k : Key) (entry : Option Registration) :
    (r.put k entry).claims = r.claims := by cases k <;> rfl

theorem get?_exact (r : Registry) (name : String) : r.get? (.exact name) = r.exact name := rfl

theorem isFree_of_get? {k : Key} {entry : Registration} (h : r.get? k = some entry) :
    r.isFree k = entry.converter.isOverridable := by rw [isFree, h]

/-- What a registration leaves under the keys. -/
theorem get?_apply_register (k : Key) (c : Converter) (isDefault : Bool) (k' : Key) :
    ((Change.register k c isDefault).apply r).get? k' =
      if k' = k ∧ r.isFree k then some ⟨c, isDefault⟩ else r.get? k' := by
  by_cases hfree : r.isFree k
  · obtain ⟨previous, r', hr⟩ : ∃ previous r', r.register k c isDefault = .ok (previous, r') :=
      ⟨_, _, if_pos hfree⟩
    simp only [Change.apply, hr, get?_of_register hr, hfree, and_true]
  · have hr : r.register k c isDefault = .error (.protectedKey k.text) := if_neg hfree
    simp only [Change.apply, hr, hfree, Bool.false_eq_true, and_false, if_false]

/-- What a removal leaves under the keys. -/
theorem get?_apply_unregister (k k' : Key) : ((Change.unregister k).apply r).get? k' =
    if k' = k ∧ r.isFree k then none else r.get? k' := by
  have hput : (r.put k none).get? k' = if k' = k then none else r.get? k' := by
    split
    · next hk => rw [hk, get?_put_self]
    · next hk => exact get?_put_of_ne r hk _
  cases hk : r.get? k with
  | none =>
    have hsame : (Change.unregister k).apply r = r := by
      simp only [Change.apply, Registry.unregister, hk]
    rw [hsame]
    split
    · next h => rw [h.1, hk]
    · rfl
  | some entry =>
    rw [isFree_of_get? hk]
    by_cases hfree : entry.converter.isOverridable
    · have hdrop : ((Change.unregister k).apply r).get? k' = (r.put k none).get? k' := by
        simp only [Change.apply, Registry.unregister, hk, if_pos hfree]
        cases k <;> cases k' <;> rfl
      rw [hdrop, hput]
      simp only [hfree, and_true]
    · simp only [Change.apply, Registry.unregister, hk, hfree, Bool.false_eq_true, if_false,
        and_false]

/-- What is registered after a change was there before, or the change registered it. -/
theorem get?_of_apply {change : Change} {k : Key} {entry : Registration}
    (h : (change.apply r).get? k = some entry) :
    r.get? k = some entry ∨ change = .register k entry.converter entry.isDefault := by
  cases change with
  | register k' c isDefault =>
    rw [get?_apply_register] at h
    split at h
    · next hk =>
      obtain ⟨rfl, -⟩ := hk
      cases h
      exact .inr rfl
    · exact .inl h
  | unregister k' =>
    rw [get?_apply_unregister] at h
    split at h
    · cases h
    · exact .inl h
  | declareParents child parents =>
    left
    cases k <;> exact h
  | declareRecord s =>
    left
    cases k <;> exact h

/-- What is registered after a history was there before, or was registered in it. -/
theorem get?_of_after {history : List Change} {k : Key} {entry : Registration}
    (h : (r.after history).get? k = some entry) :
    r.get? k = some entry ∨ .register k entry.converter entry.isDefault ∈ history := by
  induction history generalizing r with
  | nil => exact .inl h
  | cons change history ih =>
    rcases ih h with h | hmem
    · rcases get?_of_apply h with h | rfl
      · exact .inl h
      · exact .inr List.mem_cons_self
    · exact .inr (List.mem_cons_of_mem _ hmem)

/-- What is protected stays. -/
theorem get?_after_of_protected {k : Key} {entry : Registration} (history : List Change)
    (h : r.get? k = some entry) (hstays : entry.converter.isOverridable = false) :
    (r.after history).get? k = some entry := by
  have htaken : r.isFree k = false := (isFree_of_get? h).trans hstays
  induction history generalizing r with
  | nil => exact h
  | cons change history ih =>
    have happly : (change.apply r).get? k = some entry := by
      cases change with
      | register k' c isDefault =>
        rw [get?_apply_register, if_neg, h]
        rintro ⟨rfl, hfree⟩
        cases htaken.symm.trans hfree
      | unregister k' =>
        rw [get?_apply_unregister, if_neg, h]
        rintro ⟨rfl, hfree⟩
        cases htaken.symm.trans hfree
      | declareParents child parents => cases k <;> exact h
      | declareRecord s => cases k <;> exact h
    exact ih happly ((isFree_of_get? happly).trans hstays)

/-- A table of names with something or nothing under one of them. -/
def assign (table : String → Option Registration) (name : String) (entry : Option Registration) :
    String → Option Registration := fun n ↦ if n = name then entry else table n

/-- What a change can do to what is registered under names and to the claims: it registers, and then
the name's claims are those of the new converter, it removes, and then the name has none, or it
leaves them all as they are. -/
theorem Change.apply_cases (r : Registry) (change : Change) :
    (∃ name c isDefault, change.registered? r = some name ∧
      (change.apply r).exact = assign r.exact name (some ⟨c, isDefault⟩) ∧
      (change.apply r).claims =
        r.claims.filter (·.host ≠ name) ++ c.formats.map (⟨·, name, c⟩)) ∨
    (∃ name, change.registered? r = none ∧
      (change.apply r).exact = assign r.exact name none ∧
      (change.apply r).claims = r.claims.filter (·.host ≠ name)) ∨
    (change.registered? r = none ∧ (change.apply r).exact = r.exact ∧
      (change.apply r).claims = r.claims) := by
  cases change with
  | register k c isDefault =>
    have hexact (name : String) := get?_apply_register (r := r) k c isDefault (.exact name)
    by_cases hfree : r.isFree k
    · simp only [hfree, and_true] at hexact
      cases k with
      | exact host =>
        refine .inl ⟨host, c, isDefault, if_pos hfree, funext fun name ↦ ?_, ?_⟩
        · simpa [get?_exact, assign] using hexact name
        · simp only [Change.apply, Registry.register, if_pos hfree, claims_claimFormats, claims_put]
      | _ =>
        refine .inr (.inr ⟨rfl, funext fun name ↦ by simpa [get?_exact] using hexact name, ?_⟩)
        simp only [Change.apply, Registry.register, if_pos hfree, claims_put]
    · have hsame : (Change.register k c isDefault).apply r = r := by
        simp only [Change.apply, Registry.register, if_neg hfree]
      refine .inr (.inr ⟨?_, by rw [hsame], by rw [hsame]⟩)
      cases k with
      | exact name => exact if_neg hfree
      | _ => rfl
  | unregister k =>
    have hexact (name : String) := get?_apply_unregister (r := r) k (.exact name)
    cases hk : r.get? k with
    | none =>
      have hsame : (Change.unregister k).apply r = r := by
        simp only [Change.apply, Registry.unregister, hk]
      exact .inr (.inr ⟨rfl, by rw [hsame], by rw [hsame]⟩)
    | some entry =>
      by_cases hfree : entry.converter.isOverridable
      · simp only [isFree_of_get? hk, hfree, and_true] at hexact
        cases k with
        | exact host =>
          refine .inr (.inl ⟨host, rfl, funext fun name ↦ ?_, ?_⟩)
          · simpa [get?_exact, assign] using hexact name
          · simp only [Change.apply, Registry.unregister, hk, if_pos hfree, dropClaims, claims_put]
        | _ =>
          refine .inr (.inr ⟨rfl, funext fun name ↦ by simpa [get?_exact] using hexact name, ?_⟩)
          simp only [Change.apply, Registry.unregister, hk, if_pos hfree, claims_put]
      · have hsame : (Change.unregister k).apply r = r := by
          simp only [Change.apply, Registry.unregister, hk, if_neg hfree]
        exact .inr (.inr ⟨rfl, by rw [hsame], by rw [hsame]⟩)
  | declareParents child parents => exact .inr (.inr ⟨rfl, rfl, rfl⟩)
  | declareRecord s => exact .inr (.inr ⟨rfl, rfl, rfl⟩)

/-! ## What is registered, in the order of the latest registrations -/

/-- The names that a history registers something under, at each registration that is not refused. -/
def registrations (r : Registry) : List Change → List String
  | [] => []
  | change :: history => (change.registered? r).toList ++ registrations (change.apply r) history

theorem registrations_concat (r : Registry) (history : List Change) (change : Change) :
    registrations r (history ++ [change]) =
      registrations r history ++ (change.registered? (r.after history)).toList := by
  induction history generalizing r with
  | nil => simp [registrations]
  | cons first history ih =>
    rw [List.cons_append, registrations, ih, registrations, List.append_assoc]
    rfl

/-- The names of a list that something is registered under, each where it occurs last. -/
def listed (table : String → Option Registration) (names : List String) :
    List (String × Converter) :=
  names.dedup.filterMap fun name ↦ (table name).map fun entry ↦ (name, entry.converter)

/-- What a history on the empty registry leaves registered under names, in the order of the latest
registrations. -/
def live (history : List Change) : List (String × Converter) :=
  listed (empty.after history).exact (registrations empty history)

theorem dedup_concat (names : List String) (name : String) :
    (names ++ [name]).dedup = names.dedup.filter (· ≠ name) ++ [name] := by
  induction names with
  | nil => rfl
  | cons n names ih =>
    by_cases hmem : n ∈ names
    · rw [List.cons_append, List.dedup_cons_of_mem (List.mem_append_left _ hmem), ih,
        List.dedup_cons_of_mem hmem]
    · by_cases hn : n = name
      · rw [List.cons_append, List.dedup_cons_of_mem (by simp [hn]), ih,
          List.dedup_cons_of_notMem hmem, List.filter_cons_of_neg (by simpa using hn)]
      · rw [List.cons_append, List.dedup_cons_of_notMem (by simp [hmem, hn]), ih,
          List.dedup_cons_of_notMem hmem, List.filter_cons_of_pos (by simpa using hn),
          List.cons_append]

/-- The other names are listed as before. -/
theorem listed_filter (table : String → Option Registration) (names : List String) (name : String)
    (entry : Option Registration) :
    (names.dedup.filter (· ≠ name)).filterMap
        (fun n ↦ (assign table name entry n).map fun entry ↦ (n, entry.converter)) =
      (listed table names).filter (·.1 ≠ name) := by
  rw [listed, List.filter_filterMap, List.filterMap_filter]
  refine List.filterMap_congr fun n _ ↦ ?_
  by_cases hn : n = name
  · cases table n <;> simp [hn, Option.filter_some]
  · cases htable : table n <;> simp [assign, hn, htable, Option.filter_some]

/-- What is registered goes to the end. -/
theorem listed_assign_some (table : String → Option Registration) (names : List String)
    (name : String) (c : Converter) (isDefault : Bool) :
    listed (assign table name (some ⟨c, isDefault⟩)) (names ++ [name]) =
      (listed table names).filter (·.1 ≠ name) ++ [(name, c)] := by
  rw [listed, dedup_concat, List.filterMap_append, listed_filter]
  simp [assign]

/-- What is removed is not listed. -/
theorem listed_assign_none (table : String → Option Registration) (names : List String)
    (name : String) :
    listed (assign table name none) names = (listed table names).filter (·.1 ≠ name) := by
  rw [← listed_filter table names name none, listed, List.filterMap_filter]
  refine List.filterMap_congr fun n _ ↦ ?_
  by_cases hn : n = name <;> simp [assign, hn]

/-- What a change does to what is registered is what it does to the list of it. -/
theorem live_concat_cases (history : List Change) (change : Change) :
    (∃ name c, live (history ++ [change]) = (live history).filter (·.1 ≠ name) ++ [(name, c)] ∧
      (empty.after (history ++ [change])).claims =
        (empty.after history).claims.filter (·.host ≠ name) ++ c.formats.map (⟨·, name, c⟩)) ∨
    (∃ name, live (history ++ [change]) = (live history).filter (·.1 ≠ name) ∧
      (empty.after (history ++ [change])).claims =
        (empty.after history).claims.filter (·.host ≠ name)) ∨
    (live (history ++ [change]) = live history ∧
      (empty.after (history ++ [change])).claims = (empty.after history).claims) := by
  simp only [live, registrations_concat, after_concat]
  rcases change.apply_cases (empty.after history) with
    ⟨name, c, isDefault, hname, hexact, hclaims⟩ | ⟨name, hname, hexact, hclaims⟩ |
    ⟨hname, hexact, hclaims⟩
  · refine .inl ⟨name, c, ?_, hclaims⟩
    rw [hexact, hname, Option.toList_some, listed_assign_some]
  · refine .inr (.inl ⟨name, ?_, hclaims⟩)
    rw [hexact, hname, Option.toList_none, List.append_nil, listed_assign_none]
  · refine .inr (.inr ⟨?_, hclaims⟩)
    rw [hexact, hname, Option.toList_none, List.append_nil]

/-! ## Claims from what is registered -/

/-- The claims of what is registered under a name. -/
def claimsOf (p : String × Converter) : List Claim := p.2.formats.map (⟨·, p.1, p.2⟩)

theorem filter_flatMap_claimsOf (entries : List (String × Converter)) (name : String) :
    (entries.flatMap claimsOf).filter (·.host ≠ name) =
      (entries.filter (·.1 ≠ name)).flatMap claimsOf := by
  induction entries with
  | nil => rfl
  | cons p entries ih =>
    rw [List.flatMap_cons, List.filter_append, ih]
    by_cases hp : p.1 = name
    · rw [List.filter_cons_of_neg (by simpa using hp)]
      simp [claimsOf, hp]
    · rw [List.filter_cons_of_pos (by simpa using hp), List.flatMap_cons]
      simp [claimsOf, hp]

/-- The claims are those of what is registered, and come in its order. -/
theorem claims_after (history : List Change) :
    (empty.after history).claims = (live history).flatMap claimsOf := by
  induction history using List.reverseRecOn with
  | nil => rfl
  | append_singleton history change ih =>
    rcases live_concat_cases history change with
      ⟨name, c, hlive, hclaims⟩ | ⟨name, hlive, hclaims⟩ | ⟨hlive, hclaims⟩
    · rw [hclaims, hlive, ih, filter_flatMap_claimsOf, List.flatMap_append]
      simp [claimsOf]
    · rw [hclaims, hlive, ih, filter_flatMap_claimsOf]
    · rw [hclaims, hlive, ih]

theorem mem_registrations_of_exact {history : List Change} {name : String} {entry : Registration}
    (h : (empty.after history).exact name = some entry) : name ∈ registrations empty history := by
  induction history using List.reverseRecOn generalizing entry with
  | nil => cases h
  | append_singleton history change ih =>
    rw [after_concat] at h
    rw [registrations_concat, List.mem_append]
    rcases change.apply_cases (empty.after history) with
      ⟨name', c, isDefault, hname, hexact, -⟩ | ⟨name', hname, hexact, -⟩ | ⟨hname, hexact, -⟩
    · rw [hexact, assign] at h
      split at h
      · next he => exact .inr (by simp [hname, he])
      · exact .inl (ih h)
    · rw [hexact, assign] at h
      split at h
      · cases h
      · exact .inl (ih h)
    · rw [hexact] at h
      exact .inl (ih h)

/-- Listed is what is registered, and nothing else. -/
theorem mem_live_iff {history : List Change} {name : String} {c : Converter} :
    (name, c) ∈ live history ↔ ((empty.after history).exact name).map (·.converter) = some c := by
  constructor
  · intro h
    obtain ⟨n, -, h⟩ := List.mem_filterMap.mp h
    obtain ⟨entry, hentry, he⟩ := Option.map_eq_some_iff.mp h
    cases he
    rw [hentry, Option.map_some]
  · intro h
    obtain ⟨entry, hentry, rfl⟩ := Option.map_eq_some_iff.mp h
    refine List.mem_filterMap.mpr
      ⟨name, List.mem_dedup.mpr (mem_registrations_of_exact hentry), ?_⟩
    rw [hentry, Option.map_some]

/-- No name is listed twice. -/
theorem nodup_live (history : List Change) : ((live history).map (·.1)).Nodup := by
  have hnames (names : List String) (table : String → Option Registration) :
      ((names.filterMap fun name ↦ (table name).map fun entry ↦ (name, entry.converter)).map
        (·.1)).Sublist names := by
    induction names with
    | nil => exact .slnil
    | cons n names ih =>
      cases htable : table n with
      | none => simpa [htable] using ih.cons n
      | some entry => simpa [htable] using ih.cons_cons n
  exact (hnames _ _).nodup (List.nodup_dedup _)

/-- A claim is one of what is registered under the name it is made for. -/
theorem exact_of_mem_claims {history : List Change} {claim : Claim}
    (h : claim ∈ (empty.after history).claims) :
    ((empty.after history).exact claim.host).map (·.converter) = some claim.converter ∧
      claim.format ∈ claim.converter.formats := by
  rw [claims_after] at h
  obtain ⟨p, hp, h⟩ := List.mem_flatMap.mp h
  obtain ⟨format, hformat, rfl⟩ := List.mem_map.mp h
  exact ⟨mem_live_iff.mp hp, hformat⟩

/-! ## What guesses the type of a stored payload -/

/-- What stands for a type of stored payloads among what is registered under names: the last that
claims the very type, or that of the only claim to no format but the extent. -/
def pick (entries : List (String × Converter)) (type : BlobType) : Except Fault Converter :=
  match (entries.filter fun p ↦ type ∈ p.2.formats).getLast? with
  | some p => .ok p.2
  | none => match (entries.flatMap claimsOf).filter (·.format = ⟨"", type.extent⟩) with
    | [claim] => .ok claim.converter
    | _ =>
      match (entries.filter fun p ↦ p.2.formats.any (·.extent = type.extent)).map (·.1) with
      | [] => .error (.unsupportedType (Descriptor.blob type).text)
      | names => .error (.ambiguousType (Descriptor.blob type).text names)

/-- Of the claims to a type, the last is made by what is registered last among those that make
one. -/
theorem getLast?_claims (entries : List (String × Converter)) (type : BlobType) :
    ((entries.flatMap claimsOf).filter (·.format = type)).getLast?.map (·.converter) =
      (entries.filter fun p ↦ type ∈ p.2.formats).getLast?.map (·.2) := by
  have hone (p : String × Converter) :
      ((claimsOf p).filter (·.format = type)).getLast?.map (·.converter) =
        if type ∈ p.2.formats then some p.2 else none := by
    rw [claimsOf, List.filter_map, List.getLast?_map, Option.map_map]
    change ((p.2.formats.filter (· = type)).getLast?).map (fun _ ↦ p.2) = _
    cases hlast : (p.2.formats.filter (· = type)).getLast? with
    | none =>
      have hother : ∀ format ∈ p.2.formats, format ≠ type := by simpa using hlast
      rw [if_neg fun hmem ↦ hother type hmem rfl, Option.map_none]
    | some format =>
      have hmem : type ∈ p.2.formats := by
        have hformat := List.mem_of_getLast? hlast
        simp only [List.mem_filter, decide_eq_true_eq] at hformat
        exact hformat.2 ▸ hformat.1
      rw [if_pos hmem, Option.map_some]
  induction entries using List.reverseRecOn with
  | nil => rfl
  | append_singleton entries p ih =>
    rw [List.flatMap_append, List.filter_append, List.getLast?_append, List.filter_append,
      List.getLast?_append, Option.map_or, Option.map_or, ih, List.flatMap_singleton, hone]
    by_cases hp : type ∈ p.2.formats <;> simp [hp]

theorem eraseDups_replicate_append {n : String} {names : List String} (h : n ∉ names) (k : Nat) :
    (List.replicate (k + 1) n ++ names).eraseDups = n :: names.eraseDups := by
  have hrest : names.filter (fun m ↦ !m == n) = names := by
    refine List.filter_eq_self.mpr fun m hm ↦ ?_
    have hne : m ≠ n := fun he ↦ h (he ▸ hm)
    simpa using hne
  rw [List.replicate_succ, List.cons_append, List.eraseDups_cons, List.filter_append, hrest]
  simp

/-- The names that claims of an extent are made for, each once, are those of what makes such
claims. -/
theorem eraseDups_hosts {entries : List (String × Converter)} (h : (entries.map (·.1)).Nodup)
    (extent : Extent) :
    (((entries.flatMap claimsOf).filter (·.format.extent = extent)).map (·.host)).eraseDups =
      (entries.filter fun p ↦ p.2.formats.any (·.extent = extent)).map (·.1) := by
  induction entries with
  | nil => rfl
  | cons p entries ih =>
    rw [List.map_cons, List.nodup_cons] at h
    have hfirst : ((claimsOf p).filter (·.format.extent = extent)).map (·.host) =
        List.replicate (p.2.formats.filter (·.extent = extent)).length p.1 := by
      rw [claimsOf, List.filter_map, List.map_map]
      exact List.map_const' ..
    have hother : p.1 ∉
        ((entries.flatMap claimsOf).filter (·.format.extent = extent)).map (·.host) := by
      intro hmem
      obtain ⟨claim, hclaim, hhost⟩ := List.mem_map.mp hmem
      obtain ⟨q, hq, hclaim⟩ := List.mem_flatMap.mp (List.mem_filter.mp hclaim).1
      obtain ⟨format, -, rfl⟩ := List.mem_map.mp hclaim
      exact h.1 (List.mem_map.mpr ⟨q, hq, hhost⟩)
    rw [List.flatMap_cons, List.filter_append, List.map_append, hfirst]
    cases hformats : p.2.formats.filter (·.extent = extent) with
    | nil =>
      have hnone : p.2.formats.any (·.extent = extent) = false := by simpa using hformats
      rw [List.filter_cons_of_neg (by simp [hnone]), ← ih h.2]
      rfl
    | cons format formats =>
      have hsome : p.2.formats.any (·.extent = extent) = true := by
        have hformat : format ∈ p.2.formats.filter (·.extent = extent) := by
          rw [hformats]
          exact List.mem_cons_self
        exact List.any_eq_true.mpr ⟨format, List.mem_filter.mp hformat⟩
      rw [List.filter_cons_of_pos (by simpa using hsome), List.map_cons, ← ih h.2,
        List.length_cons, eraseDups_replicate_append hother]

/-- What stands for a type of stored payloads by the claims does so by what is registered. -/
theorem claimant_eq_pick {entries : List (String × Converter)}
    (hclaims : r.claims = entries.flatMap claimsOf) (hnames : (entries.map (·.1)).Nodup)
    (type : BlobType) : r.claimant type = pick entries type := by
  have hlast := getLast?_claims entries type
  have hopen : (entries.flatMap claimsOf).filter (·.format = ⟨"", type.extent⟩) =
      ((entries.flatMap claimsOf).filter (·.format.extent = type.extent)).filter
        (·.format.format = "") := by
    rw [List.filter_filter]
    refine List.filter_congr fun claim _ ↦ ?_
    obtain ⟨⟨format, extent⟩, host, c⟩ := claim
    simp
  unfold claimant pick claimOf?
  rw [← List.getLast?_filter, hclaims, hopen, ← eraseDups_hosts hnames]
  cases hclaim : ((entries.flatMap claimsOf).filter (·.format = type)).getLast? with
  | some claim =>
    rw [hclaim] at hlast
    obtain ⟨p, hp, he⟩ := Option.map_eq_some_iff.mp hlast.symm
    simp only [hp, he]
  | none =>
    rw [hclaim] at hlast
    simp only [Option.map_eq_none_iff.mp hlast.symm]
    cases (entries.flatMap claimsOf).filter (·.format.extent = type.extent) with
    | nil => rfl
    | cons first candidates =>
      rw [List.map_cons, List.eraseDups_cons]
      rcases (first :: candidates).filter (·.format.format = "") with _ | ⟨claim, _ | _⟩ <;> rfl

theorem guesser_blob (r : Registry) (type : BlobType) : r.guesser (.blob type) = r.claimant type := by
  cases hclaimant : r.claimant type <;> simp only [guesser, hclaimant] <;> rfl

/-- After any history on an empty registry or on that of the built-in converters, what guesses the
type of a stored payload is picked among what is registered under names at the end, in the order of
the latest registrations: nothing that was replaced or removed takes part. -/
theorem guesser_after (history : List Change) (type : BlobType) :
    ((empty.after history).guesser (.blob type) = pick (live history) type ∧
      ∀ name c, (name, c) ∈ live history ↔
        ((empty.after history).exact name).map (·.converter) = some c) ∧
    ((defaults.after history).guesser (.blob type) = pick (live (installs ++ history)) type ∧
      ∀ name c, (name, c) ∈ live (installs ++ history) ↔
        ((defaults.after history).exact name).map (·.converter) = some c) := by
  have hafter (history : List Change) :
      (empty.after history).guesser (.blob type) = pick (live history) type ∧
        ∀ name c, (name, c) ∈ live history ↔
          ((empty.after history).exact name).map (·.converter) = some c :=
    ⟨(guesser_blob _ type).trans (claimant_eq_pick (claims_after history) (nodup_live history) type),
      fun _ _ ↦ mem_live_iff⟩
  refine ⟨hafter history, ?_⟩
  rw [← after_installs, ← after_append]
  exact hafter (installs ++ history)

end Interchange.Registry
