import Interchange.Entries

/-!
# Ordered entries

What is found under a name after a change, and the order of names that changes keep.  Ordered
entries are told apart by what is found in them, and an item under a name above all others goes to
the end.
-/

namespace Interchange.Entries

variable {α β : Type} {name : String} {a : α} {es fs : Entries α}

theorem lt_of_not_lt_of_ne {m n : String} (h : ¬m < n) (hne : m ≠ n) : n < m :=
  String.not_le.mp fun hle ↦ hne (String.le_antisymm hle (String.not_lt.mp h))

@[simp] theorem ordered_cons {e : String × α} :
    Ordered (e :: es) ↔ (∀ f ∈ es, e.1 < f.1) ∧ Ordered es := List.pairwise_cons

/-! ## Finding -/

theorem get?_cons_of_ne {n : String} (h : name ≠ n) : get? name ((n, a) :: es) = get? name es :=
  if_neg h

@[simp] theorem get?_eq_none_iff : get? name es = none ↔ ∀ e ∈ es, e.1 ≠ name := by
  induction es with
  | nil => simp
  | cons e es ih =>
    by_cases h : name = e.1
    · simp [get?, h]
    · simp [get?, h, ih, Ne.symm h]

theorem mem_of_get? (h : get? name es = some a) : (name, a) ∈ es := by
  induction es with
  | nil => simp at h
  | cons e es ih =>
    by_cases hn : name = e.1
    · simp only [get?, if_pos hn, Option.some.injEq] at h
      exact List.mem_cons.mpr (.inl (by rw [hn, ← h]))
    · simp only [get?, if_neg hn] at h
      exact List.mem_cons_of_mem _ (ih h)

/-- In ordered entries each item is found under its name. -/
theorem get?_of_mem (ho : Ordered es) (h : (name, a) ∈ es) : get? name es = some a := by
  induction es with
  | nil => simp at h
  | cons e es ih =>
    rw [ordered_cons] at ho
    rcases List.mem_cons.mp h with rfl | h
    · simp
    · have hne : name ≠ e.1 := fun he ↦ String.lt_irrefl _ (he ▸ ho.1 _ h)
      rw [show e = (e.1, e.2) from rfl, get?_cons_of_ne hne]
      exact ih ho.2 h

theorem get?_map_named (f : String → α → β) (es : Entries α) (name : String) :
    get? name (es.map fun e ↦ (e.1, f e.1 e.2)) = (get? name es).map (f name) := by
  induction es with
  | nil => rfl
  | cons e es ih =>
    by_cases h : name = e.1
    · subst h
      simp [get?]
    · simpa [get?, h] using ih

theorem Ordered.mapItems (h : Ordered es) (f : α → β) : Ordered (mapItems f es) :=
  List.pairwise_map.mpr h

/-! ## Looking up -/

theorem lookup_map_snd (f : α → β) (es : Entries α) (name : String) :
    (es.map fun e ↦ (e.1, f e.2)).lookup name = (es.lookup name).map f := by
  induction es with
  | nil => rfl
  | cons e es ih =>
    rw [List.map_cons, List.lookup_cons, List.lookup_cons, ih]
    split <;> rfl

theorem mem_of_lookup (h : es.lookup name = some a) : (name, a) ∈ es := by
  obtain ⟨before, after, rfl, -⟩ := List.lookup_eq_some_iff.mp h
  simp

/-- With distinct names each item is found under its own. -/
theorem lookup_of_mem (h : (es.map (·.1)).Nodup) (ha : (name, a) ∈ es) :
    es.lookup name = some a := by
  induction es with
  | nil => cases ha
  | cons e es ih =>
    rw [List.map_cons, List.nodup_cons] at h
    rcases List.mem_cons.mp ha with rfl | ha
    · exact List.lookup_cons_self
    · have hne : (name == e.1) = false :=
        beq_eq_false_iff_ne.mpr fun he ↦ h.1 (he ▸ List.mem_map_of_mem ha)
      rw [List.lookup_cons, hne]
      exact ih h.2 ha

/-! ## Putting -/

/-- What is found under other names stays. -/
theorem get?_insert_of_ne {n : String} (h : name ≠ n) :
    get? name (insert n a es) = get? name es := by
  induction es with
  | nil => simp [get?, h]
  | cons e es ih =>
    unfold insert
    split
    · exact get?_cons_of_ne h
    · split
      · next he => simp [get?, h, ← he]
      · simp [get?, ih]

theorem mem_insert {e : String × α} (h : e ∈ insert name a es) : e = (name, a) ∨ e ∈ es := by
  induction es with
  | nil => simpa using h
  | cons f es ih =>
    unfold insert at h
    split at h
    · exact List.mem_cons.mp h
    · split at h
      · exact (List.mem_cons.mp h).imp_right (List.mem_cons_of_mem _)
      · rcases List.mem_cons.mp h with rfl | h
        · exact .inr List.mem_cons_self
        · exact (ih h).imp_right (List.mem_cons_of_mem _)

/-- Putting an item keeps the order. -/
theorem Ordered.insert (h : Ordered es) (name : String) (a : α) : Ordered (insert name a es) := by
  induction es with
  | nil => simp
  | cons e es ih =>
    obtain ⟨hlt, ho⟩ := ordered_cons.mp h
    unfold Entries.insert
    split
    · next hn =>
      refine ordered_cons.mpr ⟨fun f hf ↦ ?_, h⟩
      rcases List.mem_cons.mp hf with rfl | hf
      · exact hn
      · exact String.lt_trans hn (hlt f hf)
    · next hn =>
      split
      · next he => exact ordered_cons.mpr ⟨fun f hf ↦ he ▸ hlt f hf, ho⟩
      · next hne =>
        refine ordered_cons.mpr ⟨fun f hf ↦ ?_, ih ho⟩
        rcases mem_insert hf with rfl | hf
        · exact lt_of_not_lt_of_ne hn hne
        · exact hlt f hf

/-- An item under a name above all others goes to the end. -/
theorem insert_of_forall_lt (h : ∀ e ∈ es, e.1 < name) : insert name a es = es ++ [(name, a)] := by
  induction es with
  | nil => simp
  | cons e es ih =>
    have hlt : e.1 < name := h e List.mem_cons_self
    have hn : ¬name < e.1 := fun h ↦ String.lt_irrefl _ (String.lt_trans h hlt)
    have hne : name ≠ e.1 := fun h ↦ String.lt_irrefl _ (h ▸ hlt)
    simp only [insert, if_neg hn, if_neg hne, List.cons_append]
    rw [ih fun f hf ↦ h f (List.mem_cons_of_mem _ hf)]

/-- Putting entries in their order goes through them and keeps them. -/
theorem foldl_insert_of_ordered (h : Ordered (es ++ fs)) :
    fs.foldl (fun es f ↦ insert f.1 f.2 es) es = es ++ fs := by
  induction fs generalizing es with
  | nil => simp
  | cons f fs ih =>
    have hlt : ∀ e ∈ es, e.1 < f.1 := fun e he ↦
      (List.pairwise_append.mp h).2.2 e he f List.mem_cons_self
    rw [List.foldl_cons, insert_of_forall_lt hlt, ih (by simpa using h)]
    simp

/-- Ordered entries are what they are put together to. -/
theorem ofList_of_ordered (h : Ordered es) : ofList es = es :=
  foldl_insert_of_ordered h

/-! ## Equality -/

/-- Ordered entries in which the same is found under every name are the same. -/
theorem eq_of_get?_eq (he : Ordered es) (hf : Ordered fs)
    (h : ∀ name, get? name es = get? name fs) : es = fs := by
  induction es generalizing fs with
  | nil =>
    cases fs with
    | nil => rfl
    | cons f fs => simpa [get?] using h f.1
  | cons e es ih =>
    cases fs with
    | nil => simpa [get?] using h e.1
    | cons f fs =>
      obtain ⟨hle, hoe⟩ := ordered_cons.mp he
      obtain ⟨hlf, hof⟩ := ordered_cons.mp hf
      -- Each head is found on the other side, and neither can stand below the other.
      have heq : e = f := by
        have hef := mem_of_get? ((h e.1).symm.trans (get?_cons_self e.1 e.2 es))
        have hfe := mem_of_get? ((h f.1).trans (get?_cons_self f.1 f.2 fs))
        rcases List.mem_cons.mp hef with hef | hef
        · exact hef
        · rcases List.mem_cons.mp hfe with hfe | hfe
          · exact hfe.symm
          · exact absurd (String.lt_trans (hlf _ hef) (hle _ hfe)) (String.lt_irrefl _)
      subst heq
      have hnone {gs : Entries α} (hlt : ∀ g ∈ gs, e.1 < g.1) : get? e.1 gs = none :=
        get?_eq_none_iff.mpr fun g hg hge ↦ String.lt_irrefl _ (hge ▸ hlt g hg)
      have htail : es = fs := ih hoe hof fun name ↦ by
        by_cases hn : name = e.1
        · rw [hn, hnone hle, hnone hlf]
        · simpa [get?, hn] using h name
      rw [htail]

end Interchange.Entries
