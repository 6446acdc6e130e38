import Interchange.Proofs.Tlv.Descriptor

/-!
# Writing literals

A literal that nests no deeper than the limit is written as its layout; a deeper one is refused for
its nesting.  As for descriptors, the body of the outermost variant has to fit.
-/

namespace Interchange.Literal

open Tlv Tlv.Writer

variable {scope : Scope} {depth : Nat}

theorem writeScalar_appends {s : Scalar} (hl : (scalarBytes s).length < lengthLimit) :
    Appends .variant (writeScalar s) 1 (scalarBytes s) := by
  have hv : Scope.variant ≠ .map := by decide
  cases s with
  | none => exact .put (absurd · hv) []
  | integer v => exact .s64 hv v
  | float v => exact .put (absurd · hv) _
  | string v =>
    rw [scalarBytes, length_strItem] at hl
    exact .str hv (by omega)
  | boolean v => exact .put (absurd · hv) []
  | datetime v =>
    simp only [scalarBytes, length_sized, List.length_append, length_variantItem,
      List.length_cons, length_littleEndian] at hl
    refine .map hv ((Appends.entryS64 ?_).seq (.variant (.put (absurd · hv) _) ?_)) ?_
    all_goals
      simp only [List.length_append, length_variantItem, List.length_cons, length_littleEndian]
      omega
  | duration v =>
    simp only [scalarBytes, length_sized, List.length_append, length_variantItem] at hl
    refine .map hv ((Appends.entryS64 ?_).seq (.entryS64 ?_)) ?_
    all_goals
      simp only [List.length_append, length_variantItem]
      omega
  | binary v =>
    rw [scalarBytes, length_sized] at hl
    exact .putSized (absurd · hv) (by omega)

theorem writeItems_eq_forM (depth : Nat) (ls : List Literal) :
    writeItems depth ls = forM ls (write depth) := by
  induction ls with
  | nil => rw [writeItems]; rfl
  | cons l ls ih => rw [writeItems, ih, List.forM_cons]

theorem writeEntries_eq_forM (depth : Nat) (es : List (String × Literal)) :
    writeEntries depth es = forM es fun e ↦ variant e.1 (e.2.write depth) := by
  induction es with
  | nil => rw [writeEntries]; rfl
  | cons e es ih => rw [writeEntries, ih, List.forM_cons]

theorem write_of_le (h : depth ≤ maxDepth) (l : Literal) :
    l.write depth = variant l.shape (l.writeBody depth) := by
  rw [write, if_neg (Nat.not_lt.mpr h)]

/-! ## Within the limit -/

/-- That a literal is written wherever it nests within the limit and fits. -/
def IsWritten (l : Literal) : Prop :=
  ∀ {scope depth}, depth + l.depth ≤ maxDepth → l.layout.length < lengthLimit + 5 →
    Appends scope (l.write depth) 1 l.layout

theorem writeItems_appends {ls : List Literal} (h : ∀ l ∈ ls, l.IsWritten)
    (hd : depth + itemsDepth ls ≤ maxDepth) (hl : (itemBytes ls).length < lengthLimit) :
    Appends .list (writeItems (depth + 1) ls) ls.length (itemBytes ls) := by
  have hp := itemsDepth_le_iff.mp (Nat.le_sub_of_add_le' hd)
  rw [writeItems_eq_forM, itemBytes_eq_flatMap]
  refine .forM fun l hmem ↦ h l hmem ?_ ?_
  · have := hp l hmem
    omega
  · have := length_layout_le_of_mem hmem
    omega

theorem writeEntries_appends {es : List (String × Literal)} (h : ∀ e ∈ es, e.2.IsWritten)
    (hd : depth + entriesDepth es ≤ maxDepth) (hl : (entryBytes es).length < lengthLimit) :
    Appends .map (writeEntries (depth + 1) es) es.length (entryBytes es) := by
  have hp := entriesDepth_le_iff.mp (Nat.le_sub_of_add_le' hd)
  rw [writeEntries_eq_forM, entryBytes_eq_flatMap]
  refine .forM ?_
  intro e hmem
  have hdep := hp e hmem
  have hlen := length_layout_le_of_mem_entries hmem
  refine .variant (h e hmem (by omega) ?_) (by omega)
  rw [length_variantItem] at hlen
  omega

theorem appends_of_body {l : Literal} (h : depth ≤ maxDepth)
    (hl : l.layout.length < lengthLimit + 5)
    (hbody : l.payload.length < lengthLimit → Appends .variant (l.writeBody depth) 1 l.payload) :
    Appends scope (l.write depth) 1 l.layout := by
  rw [write_of_le h]
  refine .variant (hbody ?_) hl
  rw [layout, length_variantItem] at hl
  omega

/-- A literal within the limit of nesting is written as its layout. -/
theorem isWritten (l : Literal) : l.IsWritten := by
  intro scope depth hd hl
  have hv : Scope.variant ≠ .map := by decide
  induction l generalizing depth scope with
  | scalar s =>
    refine appends_of_body (by omega) hl ?_
    intro hb
    rw [writeBody]
    exact writeScalar_appends hb
  | blob b =>
    refine appends_of_body (by omega) hl ?_
    intro hb
    simp only [payload, length_sized, List.length_append, length_variantItem] at hb
    rw [writeBody]
    refine .map hv ((Appends.entryStr ?_).seq (.blobEntries (by omega))) ?_
    · rw [length_variantItem]
      omega
    · rw [List.length_append, length_variantItem]
      omega
  | collection items ih =>
    refine appends_of_body (by omega) hl ?_
    intro hb
    rw [payload, length_sized] at hb
    rw [writeBody]
    exact .list hv (writeItems_appends (fun l hmem ↦ ih l hmem) hd (by omega)) (by omega)
  | mapping entries ih =>
    refine appends_of_body (by omega) hl ?_
    intro hb
    rw [payload, length_sized] at hb
    rw [writeBody]
    exact .map hv (writeEntries_appends (fun e hmem ↦ ih e hmem) hd (by omega)) (by omega)
  | record fields ih =>
    refine appends_of_body (by omega) hl ?_
    intro hb
    rw [payload, length_sized] at hb
    rw [writeBody]
    exact .map hv (writeEntries_appends (fun e hmem ↦ ih e hmem) hd (by omega)) (by omega)
  | union type l ih =>
    refine appends_of_body (by omega) hl ?_
    intro hb
    simp only [payload, length_sized, List.length_append, length_variantItem] at hb
    rw [Literal.depth] at hd
    have htype : Appends .map (variant "type" (type.write (depth + 1))) 1 _ :=
      .variant (Descriptor.write_appends (by omega) (by omega)) (by
        rw [length_variantItem]
        omega)
    have hvalue : Appends .map (variant "value" (l.write (depth + 1))) 1 _ :=
      .variant (ih (by omega) (by rw [layout, length_variantItem]; omega)) (by
        simp only [layout, length_variantItem]
        omega)
    rw [writeBody]
    refine .map hv (htype.seq hvalue) ?_
    simp only [List.length_append, length_variantItem]
    omega

/-! ## Beyond the limit -/

/-- That a literal is refused wherever it nests beyond the limit and fits. -/
def IsRefused (l : Literal) : Prop :=
  ∀ {scope depth}, maxDepth < depth + l.depth → l.layout.length < lengthLimit + 5 →
    Refuses scope (l.write depth) .nestingLimit

theorem writeItems_refuses {ls : List Literal} (h : ∀ l ∈ ls, l.IsRefused) (hle : depth ≤ maxDepth)
    (hd : maxDepth < depth + itemsDepth ls) (hl : (itemBytes ls).length < lengthLimit) :
    Refuses .list (writeItems (depth + 1) ls) .nestingLimit := by
  have hfits {l} (hmem : l ∈ ls) : l.layout.length < lengthLimit + 5 := by
    have := length_layout_le_of_mem hmem
    omega
  obtain ⟨l, hmem, hlt⟩ := lt_itemsDepth_iff.mp (Nat.sub_lt_left_of_lt_add hle hd)
  rw [writeItems_eq_forM]
  refine .forM (by decide) (g := layout) ?_ ⟨l, hmem, h l hmem (by omega) (hfits hmem)⟩
  exact fun l hmem ↦ (Nat.lt_or_ge maxDepth (depth + 1 + l.depth)).symm.imp
    (isWritten l · (hfits hmem)) (h l hmem · (hfits hmem))

theorem writeEntries_refuses {es : List (String × Literal)} (h : ∀ e ∈ es, e.2.IsRefused)
    (hle : depth ≤ maxDepth) (hd : maxDepth < depth + entriesDepth es)
    (hl : (entryBytes es).length < lengthLimit) :
    Refuses .map (writeEntries (depth + 1) es) .nestingLimit := by
  have hfits {e} (hmem : e ∈ es) : (variantItem e.1 e.2.layout).length < lengthLimit + 5 := by
    have := length_layout_le_of_mem_entries hmem
    omega
  have hfits' {e} (hmem : e ∈ es) : e.2.layout.length < lengthLimit + 5 := by
    have := hfits hmem
    rw [length_variantItem] at this
    omega
  have hrefuses {e} (hmem : e ∈ es) (hlt : maxDepth < depth + 1 + e.2.depth) :
      Refuses .map (variant e.1 (e.2.write (depth + 1))) .nestingLimit := by
    have := hfits hmem
    rw [length_variantItem] at this
    exact .variant (by omega) (h e hmem hlt (hfits' hmem))
  obtain ⟨e, hmem, hlt⟩ := lt_entriesDepth_iff.mp (Nat.sub_lt_left_of_lt_add hle hd)
  rw [writeEntries_eq_forM]
  refine .forM (by decide) (g := fun e ↦ variantItem e.1 e.2.layout) ?_
    ⟨e, hmem, hrefuses hmem (by omega)⟩
  exact fun e hmem ↦ (Nat.lt_or_ge maxDepth (depth + 1 + e.2.depth)).symm.imp
    (fun hle ↦ .variant (isWritten e.2 hle (hfits' hmem)) (hfits hmem)) (hrefuses hmem)

/-- A literal is refused when what stands inside its variant is. -/
theorem refuses_of_body {l : Literal} (hl : l.layout.length < lengthLimit + 5)
    (hbody : depth ≤ maxDepth → l.payload.length < lengthLimit →
      Refuses .variant (l.writeBody depth) .nestingLimit) :
    Refuses scope (l.write depth) .nestingLimit := by
  rcases Nat.lt_or_ge maxDepth depth with hlt | hge
  · rw [write, if_pos hlt]
    exact (Refuses.throw scope _).seq
  · rw [layout, length_variantItem] at hl
    rw [write_of_le hge]
    exact .variant (by omega) (hbody hge (by omega))

/-- A literal beyond the limit of nesting is refused for it. -/
theorem isRefused (l : Literal) : l.IsRefused := by
  intro scope depth hd hl
  have hv : Scope.variant ≠ .map := by decide
  induction l generalizing depth scope with
  | scalar s =>
    refine refuses_of_body hl ?_
    intro hle _
    rw [Literal.depth] at hd
    omega
  | blob b =>
    refine refuses_of_body hl ?_
    intro hle _
    rw [Literal.depth] at hd
    omega
  | collection items ih =>
    refine refuses_of_body hl ?_
    intro hle hb
    rw [payload, length_sized] at hb
    rw [writeBody]
    exact .list hv (writeItems_refuses (fun l hmem ↦ ih l hmem) hle hd (by omega))
  | mapping entries ih =>
    refine refuses_of_body hl ?_
    intro hle hb
    rw [payload, length_sized] at hb
    rw [writeBody]
    exact .map hv (writeEntries_refuses (fun e hmem ↦ ih e hmem) hle hd (by omega))
  | record fields ih =>
    refine refuses_of_body hl ?_
    intro hle hb
    rw [payload, length_sized] at hb
    rw [writeBody]
    exact .map hv (writeEntries_refuses (fun e hmem ↦ ih e hmem) hle hd (by omega))
  | union type l ih =>
    refine refuses_of_body hl ?_
    intro hle hb
    simp only [payload, length_sized, List.length_append, length_variantItem] at hb
    rw [Literal.depth] at hd
    rw [writeBody]
    refine .map hv ?_
    -- The descriptor is written first; only if it nests within the limit is it the value's turn.
    rcases Nat.lt_or_ge maxDepth (depth + 1 + type.depth) with hlt | hge
    · exact .seq (.variant (by omega) (Descriptor.write_refuses hlt (by omega)))
    · have htype : Appends .map (variant "type" (type.write (depth + 1))) 1 _ :=
        .variant (Descriptor.write_appends hge (by omega)) (by rw [length_variantItem]; omega)
      have hvalue : Refuses .variant (l.write (depth + 1)) .nestingLimit :=
        ih (by omega) (by rw [layout, length_variantItem]; omega)
      exact .after (.variant (by omega) hvalue) (by decide) htype

/-! ## All bytes -/

theorem toBytes_of_depth_le {l : Literal} (hd : l.depth ≤ maxDepth)
    (hl : l.layout.length < lengthLimit + 5) : l.toBytes = .ok l.layout :=
  (isWritten l (by omega) hl : Appends .root (l.write 0) 1 l.layout).bytesOf

theorem toBytes_of_lt_depth {l : Literal} (hd : maxDepth < l.depth)
    (hl : l.layout.length < lengthLimit + 5) : l.toBytes = .error .nestingLimit :=
  (isRefused l (by omega) hl : Refuses .root (l.write 0) _).bytesOf

end Interchange.Literal
