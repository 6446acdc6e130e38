import Interchange.Host.Value
import Interchange.Literal

/-!
# Induction over nested data

Descriptors, literals, host types and host values hold lists of themselves.  Each has an induction
principle here that gives the hypothesis for every element of such a list, so that `induction`
works on them by named cases, one a constructor.
-/

namespace Interchange

/-- Induction over descriptors, with a hypothesis for each member and each field. -/
@[elab_as_elim, induction_eliminator]
theorem Descriptor.induction {motive : Descriptor → Prop}
    (primitive : ∀ kind, motive (.primitive kind))
    (collection : ∀ d, motive d → motive (.collection d))
    (mapping : ∀ d, motive d → motive (.mapping d))
    (union : ∀ members tagField, (∀ d ∈ members, motive d) → motive (.union members tagField))
    (blob : ∀ type, motive (.blob type))
    (record : ∀ fields, (∀ f ∈ fields, motive f.2) → motive (.record fields)) (d : Descriptor) :
    motive d :=
  @Descriptor.rec motive (fun ds ↦ ∀ d ∈ ds, motive d) (fun fs ↦ ∀ f ∈ fs, motive f.2)
    (fun f ↦ motive f.2) primitive collection mapping union blob record
    (fun _ h ↦ nomatch h) (fun _ _ h hs ↦ List.forall_mem_cons.mpr ⟨h, hs⟩)
    (fun _ h ↦ nomatch h) (fun _ _ h hs ↦ List.forall_mem_cons.mpr ⟨h, hs⟩) (fun _ _ h ↦ h) d

/-- Induction over descriptors by their parts. -/
theorem Descriptor.parts_induction {motive : Descriptor → Prop}
    (step : ∀ d, (∀ part ∈ d.parts, motive part) → motive d) (d : Descriptor) : motive d := by
  induction d with
  | primitive kind => exact step _ (by simp [parts])
  | collection d ih => exact step _ (by simpa [parts] using ih)
  | mapping d ih => exact step _ (by simpa [parts] using ih)
  | union members tagField ih => exact step _ ih
  | blob type => exact step _ (by simp [parts])
  | record fields ih =>
    refine step _ ?_
    intro part h
    obtain ⟨f, hf, rfl⟩ := List.mem_map.mp h
    exact ih f hf

/-- Induction over literals, with a hypothesis for each item and each entry. -/
@[elab_as_elim, induction_eliminator]
theorem Literal.induction {motive : Literal → Prop}
    (scalar : ∀ s, motive (.scalar s)) (blob : ∀ b, motive (.blob b))
    (collection : ∀ items, (∀ l ∈ items, motive l) → motive (.collection items))
    (mapping : ∀ entries, (∀ e ∈ entries, motive e.2) → motive (.mapping entries))
    (record : ∀ fields, (∀ f ∈ fields, motive f.2) → motive (.record fields))
    (union : ∀ type l, motive l → motive (.union type l)) (l : Literal) : motive l :=
  @Literal.rec motive (fun ls ↦ ∀ l ∈ ls, motive l) (fun es ↦ ∀ e ∈ es, motive e.2)
    (fun e ↦ motive e.2) scalar blob collection mapping record union
    (fun _ h ↦ nomatch h) (fun _ _ h hs ↦ List.forall_mem_cons.mpr ⟨h, hs⟩)
    (fun _ h ↦ nomatch h) (fun _ _ h hs ↦ List.forall_mem_cons.mpr ⟨h, hs⟩) (fun _ _ h ↦ h) l

/-- Induction over host types, with a hypothesis for each member and each field. -/
@[elab_as_elim, induction_eliminator]
theorem HostType.induction {motive : HostType → Prop}
    (named : ∀ name, motive (.named name)) (list : ∀ t, motive t → motive (.list t))
    (dict : ∀ t, motive t → motive (.dict t)) (optional : ∀ t, motive t → motive (.optional t))
    (union : ∀ members, (∀ t ∈ members, motive t) → motive (.union members))
    (record : ∀ name fields isOpen, (∀ f ∈ fields, motive f.2) →
      motive (.record name fields isOpen)) (t : HostType) : motive t :=
  @HostType.rec motive (fun ts ↦ ∀ t ∈ ts, motive t) (fun fs ↦ ∀ f ∈ fs, motive f.2)
    (fun f ↦ motive f.2) named list dict optional union record
    (fun _ h ↦ nomatch h) (fun _ _ h hs ↦ List.forall_mem_cons.mpr ⟨h, hs⟩)
    (fun _ h ↦ nomatch h) (fun _ _ h hs ↦ List.forall_mem_cons.mpr ⟨h, hs⟩) (fun _ _ h ↦ h) t

/-- Induction over host types by the parts that stand at their own level. -/
theorem HostType.parts_induction {motive : HostType → Prop}
    (step : ∀ t, (∀ part ∈ t.parts, motive part) → motive t) (t : HostType) : motive t := by
  induction t with
  | named name => exact step _ (by simp [parts])
  | list t ih => exact step _ (by simpa [parts] using ih)
  | dict t ih => exact step _ (by simpa [parts] using ih)
  | optional t ih => exact step _ (by simpa [parts] using ih)
  | union members ih => exact step _ ih
  | record name fields isOpen _ => exact step _ (by simp [parts])

/-- Induction over levels and host types: one level less comes with any type, the same level with
the parts of a type. -/
theorem HostType.levels_induction {motive : Nat → HostType → Prop}
    (step : ∀ levels t, (∀ n, levels = n + 1 → ∀ t, motive n t) →
      (∀ part ∈ t.parts, motive levels part) → motive levels t) (levels : Nat) (t : HostType) :
    motive levels t := by
  induction levels generalizing t with
  | zero =>
    induction t using HostType.parts_induction with
    | step t ih =>
      refine step 0 t ?_ ih
      intro n h
      cases h
  | succ levels ihl =>
    induction t using HostType.parts_induction with
    | step t ih =>
      refine step (levels + 1) t ?_ ih
      intro n h
      cases h
      exact ihl

/-- Induction over host values, with a hypothesis for each item and each entry. -/
@[elab_as_elim, induction_eliminator]
theorem Value.induction {motive : Value → Prop}
    (scalar : ∀ s, motive (.scalar s)) (blob : ∀ b, motive (.blob b))
    (list : ∀ items, (∀ v ∈ items, motive v) → motive (.list items))
    (map : ∀ entries, (∀ e ∈ entries, motive e.2) → motive (.map entries))
    (record : ∀ name fields, (∀ f ∈ fields, motive f.2) → motive (.record name fields))
    (stream : ∀ id, motive (.stream id))
    (foreign : ∀ key payload id, motive (.foreign key payload id)) (v : Value) : motive v :=
  @Value.rec motive (fun vs ↦ ∀ v ∈ vs, motive v) (fun es ↦ ∀ e ∈ es, motive e.2)
    (fun e ↦ motive e.2) scalar blob list map record stream foreign
    (fun _ h ↦ nomatch h) (fun _ _ h hs ↦ List.forall_mem_cons.mpr ⟨h, hs⟩)
    (fun _ h ↦ nomatch h) (fun _ _ h hs ↦ List.forall_mem_cons.mpr ⟨h, hs⟩) (fun _ _ h ↦ h) v

end Interchange
