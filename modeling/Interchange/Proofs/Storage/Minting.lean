import Interchange.Proofs.Storage.Store

/-!
# URIs that storages of files mint

A new URI leads into the area, through a directory that no other URI leads through, to where the
hint says.  But an absolute hint takes the place of all that is before it, as an absolute area takes
the place of the root, and a URI with a parent in it is refused, wherever the parent comes from.
These are all ways in which a storage refuses what it minted itself.
-/

namespace Interchange.Storage.Store

open Location

variable {root area hint l : Location} {segment : String}

/-! ## Segments -/

/-- The digits of segments. -/
def hexDigits : List Char :=
  ['0', '1', '2', '3', '4', '5', '6', '7', '8', '9', 'a', 'b', 'c', 'd', 'e', 'f']

/-- The part of a URI that tells it from others. -/
def IsSegment (segment : String) : Prop :=
  segment.toList.length = 16 ∧ segment.toList ⊆ hexDigits

instance (segment : String) : Decidable (IsSegment segment) :=
  inferInstanceAs (Decidable (_ ∧ _))

theorem IsSegment.isName (h : IsSegment segment) : IsName segment.toList := by
  obtain ⟨hlength, hdigits⟩ := h
  generalize segment.toList = cs at hlength hdigits
  have hnotMem : ∀ c ∉ hexDigits, c ∉ cs := fun c hc hmem ↦ hc (hdigits hmem)
  refine ⟨hnotMem '/' (by decide), ?_⟩
  have hblank : ¬ (cs = [] ∨ cs = ['.']) := by
    rintro (rfl | rfl) <;> cases hlength
  have hdots : cs ≠ ['.', '.'] := by
    rintro rfl
    cases hlength
  exact (if_neg hblank).trans (if_neg hdots)

/-! ## Minting -/

/-- The location that a new URI leads to. -/
def minted (root area : Location) (segment : String) (hint : Location) : Location :=
  join (join (join root area) segment.toList) hint

theorem toList_newUri (root : Location) (tree : Tree) (area segment hint : String) :
    ((Store.mk (.files root tree) area).newUri segment hint).toList =
      fileScheme ++ minted root area.toList segment hint.toList := String.toList_ofList

theorem minted_of_isAbsolute (h : hint.isAbsolute = true) (root area : Location)
    (segment : String) : minted root area segment hint = hint := join_of_isAbsolute h _

/-- A new URI leads into the area, and from there by its segment to where the hint says. -/
theorem components_minted (hsegment : IsSegment segment) (h : hint.isAbsolute = false)
    (root area : Location) : (minted root area segment hint).components =
      (join root area).components ++ .normal segment.toList :: hint.steps := by
  have hne : segment.toList ≠ [] := by
    intro hnil
    rw [IsSegment, hnil] at hsegment
    cases hsegment.1
  rw [minted, components_join h (join_ne_nil _ hne), hsegment.isName.components_join,
    List.append_assoc]
  rfl

/-- A location that is accepted under a root, and leads into the area. -/
structure LeadsInto (root area l : Location) : Prop where
  parent : .parent ∉ l.components
  under_root : root.components <+: l.components
  under_area : (join root area).components <+: l.components

/-- What root, area and hint have to be so that new URIs are accepted and lead into the area. -/
structure Mintable (root area hint : Location) : Prop where
  parent_root : .parent ∉ root.components
  parent_area : .parent ∉ area.components
  parent_hint : .parent ∉ hint.components
  /-- An area from the top is under the root as it is. -/
  absolute_area : area.isAbsolute = true → hint.isAbsolute = false →
    root.components <+: area.components
  /-- A hint from the top leads under the root and into the area as it is. -/
  absolute_hint : hint.isAbsolute = true →
    root.components <+: hint.components ∧ (join root area).components <+: hint.components

/-- Under a root without parents, those of the area are the ones that count. -/
theorem parent_mem_join_iff (hroot : .parent ∉ root.components) (area : Location) :
    .parent ∈ (join root area).components ↔ .parent ∈ area.components := by
  cases harea : area.isAbsolute with
  | true => rw [join_of_isAbsolute harea]
  | false => rw [parent_mem_join harea, or_iff_right hroot]

theorem Mintable.under_root (h : Mintable root area hint) (hhint : hint.isAbsolute = false) :
    root.components <+: (join root area).components := by
  cases harea : area.isAbsolute with
  | true =>
    rw [join_of_isAbsolute harea]
    exact h.absolute_area harea hhint
  | false => exact prefix_components_join harea root

theorem Mintable.leadsInto (h : Mintable root area hint) (hsegment : IsSegment segment) :
    LeadsInto root area (minted root area segment hint) := by
  cases hhint : hint.isAbsolute with
  | true =>
    rw [minted_of_isAbsolute hhint]
    obtain ⟨hroot, harea⟩ := h.absolute_hint hhint
    exact ⟨h.parent_hint, hroot, harea⟩
  | false =>
    have harea : (join root area).components <+: (minted root area segment hint).components := by
      rw [components_minted hsegment hhint]
      exact List.prefix_append _ _
    refine ⟨?_, (h.under_root hhint).trans harea, harea⟩
    rw [components_minted hsegment hhint, List.mem_append, List.mem_cons, ← parent_mem_components]
    rintro (hjoin | hname | hsteps)
    · exact h.parent_area ((parent_mem_join_iff h.parent_root area).mp hjoin)
    · cases hname
    · exact h.parent_hint hsteps

/-- What two continuations that differ at once begin with is in what they continue. -/
theorem prefix_of_prefix_append {ps before rest rest' : List Component} {c c' : Component}
    (hne : c ≠ c') (h : ps <+: before ++ c :: rest) (h' : ps <+: before ++ c' :: rest') :
    ps <+: before := by
  rcases List.prefix_or_prefix_of_prefix h (List.prefix_append _ _) with hle | ⟨more, rfl⟩
  · exact hle
  · rw [List.prefix_append_right_inj] at h h'
    cases more with
    | nil => exact ⟨[], by rw [List.append_nil, List.append_nil]⟩
    | cons d more =>
      obtain rfl := (List.cons_prefix_cons.mp h).1
      exact absurd (List.cons_prefix_cons.mp h').1 hne

/-- If new URIs lead into the area whatever their segment, then nothing stands in the way. -/
theorem mintable_of_leadsInto (h : ∀ segment, IsSegment segment →
    LeadsInto root area (minted root area segment hint)) : Mintable root area hint := by
  have hzero := h "0000000000000000" (by decide)
  have hone := h "0000000000000001" (by decide)
  have hroot : .parent ∉ root.components := fun hmem ↦ hzero.parent (hzero.under_root.subset hmem)
  refine ⟨hroot, fun hmem ↦ ?_, fun hmem ↦ ?_, fun harea hhint ↦ ?_, fun hhint ↦ ?_⟩
  · rw [← parent_mem_join_iff hroot] at hmem
    exact hzero.parent (hzero.under_area.subset hmem)
  · refine hzero.parent ?_
    cases hhint : hint.isAbsolute with
    | true => rwa [minted_of_isAbsolute hhint]
    | false =>
      rw [components_minted (by decide) hhint]
      exact List.mem_append_right _ (List.mem_cons_of_mem _ (parent_mem_components.mp hmem))
  · have hzero := hzero.under_root
    have hone := hone.under_root
    rw [components_minted (by decide) hhint, join_of_isAbsolute harea] at hzero hone
    -- The root cannot go through both segments.
    exact prefix_of_prefix_append (by decide) hzero hone
  · rw [minted_of_isAbsolute hhint] at hzero
    exact ⟨hzero.under_root, hzero.under_area⟩

/-- A storage of files accepts all URIs that it mints for a hint, each under the area, if and only
if there is no parent in the root, the area or the hint, an area from the top is under the root,
and a hint from the top leads there anyway.  A hint that is not from the top is where the URI ends,
after the area and the segment. -/
theorem newUri_accepted_iff (root : Location) (tree : Tree) (area hint : String) :
    ((∀ segment, IsSegment segment → ∃ l,
        locate root ((Store.mk (.files root tree) area).newUri segment hint) = .ok l ∧
        (join root area.toList).components <+: l.components) ↔
      Mintable root area.toList hint.toList) ∧
    (isAbsolute hint.toList = false → ∀ segment, IsSegment segment → ∀ l,
      locate root ((Store.mk (.files root tree) area).newUri segment hint) = .ok l →
      l.components = (join root area.toList).components ++
        .normal segment.toList :: steps hint.toList) := by
  have hlocate : ∀ segment l,
      locate root ((Store.mk (.files root tree) area).newUri segment hint) = .ok l ↔
        minted root area.toList segment hint.toList = l ∧ .parent ∉ l.components ∧
        root.components <+: l.components := by
    intro segment l
    rw [locate_eq_ok, toList_newUri, List.append_cancel_left_eq]
  refine ⟨⟨fun h ↦ mintable_of_leadsInto fun segment hsegment ↦ ?_, fun h segment hsegment ↦ ?_⟩,
    fun hhint segment hsegment l hl ↦ ?_⟩
  · obtain ⟨l, hl, harea⟩ := h segment hsegment
    obtain ⟨rfl, hparent, hroot⟩ := (hlocate segment l).mp hl
    exact ⟨hparent, hroot, harea⟩
  · have hminted := h.leadsInto hsegment
    exact ⟨_, (hlocate segment _).mpr ⟨rfl, hminted.parent, hminted.under_root⟩,
      hminted.under_area⟩
  · obtain ⟨rfl, -⟩ := (hlocate segment l).mp hl
    exact components_minted hsegment hhint root area.toList

/-- A hint with several names is accepted, under an area that is named from the root. -/
theorem newUri_accepted_iff_parts : Mintable "/data".toList "raw".toList "parts/0.bin".toList ∧
    ∃ l, locate "/data".toList ((Store.mk (.files "/data".toList .empty) "raw").newUri
      "00000000000000ff" "parts/0.bin") = .ok l ∧
      (join "/data".toList "raw".toList).components <+: l.components := by
  have hmintable : Mintable "/data".toList "raw".toList "parts/0.bin".toList :=
    ⟨by decide, by decide, by decide, fun h ↦ (nomatch h), fun h ↦ (nomatch h)⟩
  exact ⟨hmintable, (newUri_accepted_iff _ _ _ _).1.mpr hmintable _ (by decide)⟩

/-- A hint from the top takes the URI out of the area and the root, so it is refused. -/
theorem not_accepted_newUri : IsSegment "00000000000000ff" ∧
    locate "/data".toList ((Store.mk (.files "/data".toList .empty) "raw").newUri
      "00000000000000ff" "/x") = .error (.invalidUri "file:///x") :=
  ⟨by decide, rfl⟩

end Interchange.Storage.Store
