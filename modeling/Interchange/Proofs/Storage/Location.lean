import Interchange.Storage.Location

/-!
# Components of locations

The components of a location are its start, which is the root, the current directory or nothing, and
the steps from there.  Joining a location that does not start at the root adds its steps and keeps
the start, unless there was nothing to join it to.

Where no step leads to a parent, all steps are names.  So a location that begins with the components
of a base goes on by names alone, except where the base is empty and the start is left to it.
-/

namespace Interchange.Storage

/-- The name that a component steps to. -/
def Component.name? : Component → Option FileName
  | normal name => some name
  | _ => none

namespace Location

variable {l m base area name : Location} {c : Component}

/-! ## Pieces -/

theorem pieces_cons_of_ne {c : Char} (hc : c ≠ '/') (p : List Char) (ps : List (List Char))
    (h : l.pieces = p :: ps) : pieces (c :: l) = (c :: p) :: ps := by
  rw [pieces.eq_3 c l hc, h]

theorem pieces_ne_nil (l : Location) : l.pieces ≠ [] := by
  induction l with
  | nil => exact List.cons_ne_nil _ _
  | cons c cs ih =>
    by_cases hc : c = '/'
    · subst hc
      exact List.cons_ne_nil _ _
    · obtain ⟨p, ps, hps⟩ := List.exists_cons_of_ne_nil ih
      rw [pieces_cons_of_ne hc p ps hps]
      exact List.cons_ne_nil _ _

/-- Text without a slash is one piece. -/
theorem pieces_of_notMem (h : '/' ∉ l) : l.pieces = [l] := by
  induction l with
  | nil => rfl
  | cons c cs ih =>
    obtain ⟨hc, hcs⟩ := List.ne_and_not_mem_of_not_mem_cons h
    exact pieces_cons_of_ne hc.symm cs [] (ih hcs)

/-- A slash divides the pieces before it from those after it. -/
theorem pieces_append_slash (l m : Location) : pieces (l ++ '/' :: m) = l.pieces ++ m.pieces := by
  induction l with
  | nil => rfl
  | cons c cs ih =>
    by_cases hc : c = '/'
    · subst hc
      exact congrArg _ ih
    · obtain ⟨p, ps, hps⟩ := List.exists_cons_of_ne_nil (pieces_ne_nil cs)
      rw [pieces_cons_of_ne hc p ps hps]
      refine pieces_cons_of_ne hc p (ps ++ m.pieces) ?_
      exact ih.trans (by rw [hps, List.cons_append])

/-! ## Start and steps -/

/-- Where a location starts. -/
def start (l : Location) : List Component :=
  if l.isAbsolute then [.root] else if l.pieces.head? = some ['.'] then [.current] else []

/-- Where a location leads from its start. -/
def steps (l : Location) : List Component := l.pieces.filterMap component?

@[simp] theorem steps_nil : steps [] = [] := rfl

theorem components_eq (l : Location) : l.components = l.start ++ l.steps := by
  unfold components start
  split
  · rfl
  · split <;> rfl

/-- A location starts in at most one way, and never with a name or a parent. -/
theorem start_cases (l : Location) : l.start = [] ∨ l.start = [.root] ∨ l.start = [.current] := by
  unfold start
  split
  · exact .inr (.inl rfl)
  · split
    · exact .inr (.inr rfl)
    · exact .inl rfl

theorem mem_steps (h : c ∈ l.steps) : c = .parent ∨ ∃ name, c = .normal name := by
  obtain ⟨piece, -, hc⟩ := List.mem_filterMap.mp h
  unfold component? at hc
  split at hc
  · cases hc
  · split at hc
    · exact .inl (Option.some.inj hc).symm
    · exact .inr ⟨piece, (Option.some.inj hc).symm⟩

theorem parent_mem_components : .parent ∈ l.components ↔ .parent ∈ l.steps := by
  rw [components_eq, List.mem_append, or_iff_right]
  rcases start_cases l with h | h | h <;> simp [h]

/-- Only an empty location has no components. -/
theorem components_ne_nil (h : l ≠ []) : l.components ≠ [] := by
  obtain ⟨c, cs, rfl⟩ := List.exists_cons_of_ne_nil h
  by_cases hc : c = '/'
  · subst hc
    exact List.cons_ne_nil _ _
  · obtain ⟨p, ps, hps⟩ := List.exists_cons_of_ne_nil (pieces_ne_nil cs)
    have hpieces := pieces_cons_of_ne hc p ps hps
    intro hnil
    obtain ⟨hstart, hsteps⟩ := List.append_eq_nil_iff.mp ((components_eq _).symm.trans hnil)
    -- The first piece is not empty, so it would be a step, unless it is the current directory.
    have hdot : c :: p ≠ ['.'] := by
      intro hdot
      rw [start, hpieces, hdot] at hstart
      split at hstart <;> cases hstart
    rw [steps, hpieces, List.filterMap_cons, component?, if_neg (by simp [hdot])] at hsteps
    split at hsteps
    · next hnone => split at hnone <;> cases hnone
    · cases hsteps

/-! ## Names -/

theorem names_eq_steps (l : Location) : l.names = l.steps.filterMap Component.name? := by
  rw [names, steps, List.filterMap_filterMap]
  refine congrArg (List.filterMap · l.pieces) (funext fun piece ↦ ?_)
  rcases component? piece with _ | _ | _ | _ | _ <;> rfl

theorem names_eq (l : Location) : l.names = l.components.filterMap Component.name? := by
  rw [names_eq_steps, components_eq, List.filterMap_append]
  rcases start_cases l with h | h | h <;> rw [h] <;> rfl

/-- Steps that never lead to a parent are names. -/
theorem steps_eq_map_names (h : .parent ∉ l.steps) : l.steps = l.names.map .normal := by
  rw [names_eq_steps]
  have hnames : ∀ c ∈ l.steps, ∃ name, c = Component.normal name := fun c hc ↦
    (mem_steps hc).resolve_left fun he ↦ h (he ▸ hc)
  generalize l.steps = cs at hnames
  induction cs with
  | nil => rfl
  | cons c cs ih =>
    obtain ⟨⟨name, rfl⟩, hcs⟩ := List.forall_mem_cons.mp hnames
    exact congrArg _ (ih hcs)

theorem isAbsolute_of_notMem (h : '/' ∉ l) : l.isAbsolute = false := by
  unfold isAbsolute
  split
  · exact absurd List.mem_cons_self h
  · rfl

/-- Text that is a name. -/
def IsName (name : FileName) : Prop := '/' ∉ name ∧ component? name = some (.normal name)

theorem IsName.steps_eq (h : IsName name) : name.steps = [.normal name] := by
  rw [steps, pieces_of_notMem h.1, List.filterMap_cons_some h.2]
  rfl

theorem IsName.components_eq (h : IsName name) : name.components = [.normal name] := by
  have hstart : name.start = [] := by
    rw [start, isAbsolute_of_notMem h.1, pieces_of_notMem h.1, if_neg Bool.false_ne_true, if_neg]
    rintro ⟨⟩
    cases h.2
  rw [Location.components_eq, hstart, h.steps_eq]
  rfl

/-- A location leads on from a base by names alone. -/
def LeadsOn (base l : Location) : Prop :=
  ∃ names : List FileName, l.components = base.components ++ names.map .normal

/-- What comes after the components of a base are steps, for these hold all components but the
start. -/
theorem suffix_steps {rest : List Component} (hrest : base.components ++ rest = l.components)
    (h : base ≠ [] ∨ l.start = []) : rest <:+ l.steps := by
  rw [components_eq l] at hrest
  rcases h with hbase | hstart
  · obtain ⟨c, cs, hcs⟩ := List.exists_cons_of_ne_nil (components_ne_nil hbase)
    rw [hcs] at hrest
    rcases start_cases l with h | h | h <;> rw [h] at hrest
    · exact ⟨c :: cs, hrest⟩
    · exact ⟨cs, (List.cons.inj hrest).2⟩
    · exact ⟨cs, (List.cons.inj hrest).2⟩
  · rw [hstart] at hrest
    exact ⟨base.components, hrest⟩

/-- A location without parents that begins with the components of a base leads on from it by names,
but for its own start where the base is empty. -/
theorem leadsOn_iff (hparent : .parent ∉ l.components) (h : base.components <+: l.components) :
    LeadsOn base l ↔ base ≠ [] ∨ l.start = [] := by
  obtain ⟨rest, hrest⟩ := h
  have hsteps : l.steps = l.names.map .normal :=
    steps_eq_map_names fun hmem ↦ hparent (parent_mem_components.mpr hmem)
  constructor
  · rintro ⟨names, hnames⟩
    by_cases hbase : base = []
    · rw [hbase, components_eq] at hnames
      -- What a location starts with is no name.
      rcases start_cases l with h | h | h
      · exact .inr h
      all_goals
        rw [h] at hnames
        cases names <;> cases hnames
    · exact .inl hbase
  · intro hor
    obtain ⟨before, hbefore⟩ := suffix_steps hrest hor
    obtain ⟨-, names, -, -, hnames⟩ := List.map_eq_append_iff.mp (hsteps.symm.trans hbefore.symm)
    exact ⟨names, by rw [hnames, hrest]⟩

/-! ## Joining -/

theorem join_ne_nil (base : Location) (h : l ≠ []) : join base l ≠ [] := by
  unfold join
  split
  · exact h
  · split
    · exact List.append_ne_nil_of_right_ne_nil _ h
    · exact List.append_ne_nil_of_right_ne_nil _ (List.cons_ne_nil _ _)

theorem steps_append_slash (l m : Location) : steps (l ++ '/' :: m) = l.steps ++ m.steps := by
  rw [steps, pieces_append_slash, List.filterMap_append]
  rfl

theorem start_append_slash (h : l ≠ []) (m : Location) : start (l ++ '/' :: m) = l.start := by
  have habsolute : isAbsolute (l ++ '/' :: m) = l.isAbsolute := by
    obtain ⟨c, cs, rfl⟩ := List.exists_cons_of_ne_nil h
    by_cases hc : c = '/' <;> simp [isAbsolute, hc]
  obtain ⟨p, ps, hps⟩ := List.exists_cons_of_ne_nil (pieces_ne_nil l)
  rw [start, start, habsolute, pieces_append_slash, hps]
  rfl

theorem components_append_slash (h : l ≠ []) (m : Location) :
    components (l ++ '/' :: m) = l.components ++ m.steps := by
  rw [components_eq, components_eq, start_append_slash h, steps_append_slash, List.append_assoc]

/-- A location that does not start over adds its steps to what it is joined to. -/
theorem components_join (hm : m.isAbsolute = false) (hbase : base ≠ []) :
    (join base m).components = base.components ++ m.steps := by
  rw [join, if_neg (by simp [hm])]
  split
  · next hslash =>
    obtain ⟨before, rfl⟩ := List.getLast?_eq_some_iff.mp (hslash.resolve_left hbase)
    rw [List.append_assoc, List.singleton_append]
    by_cases hbefore : before = []
    · subst hbefore
      rfl
    · rw [components_append_slash hbefore, components_append_slash hbefore, steps_nil,
        List.append_nil]
  · exact components_append_slash hbase m

/-- A name goes on from whatever it is joined to. -/
theorem IsName.components_join (h : IsName name) (base : Location) :
    (join base name).components = base.components ++ [.normal name] := by
  by_cases hbase : base = []
  · rw [hbase, join_nil, h.components_eq]
    rfl
  · rw [Location.components_join (isAbsolute_of_notMem h.1) hbase, h.steps_eq]

/-- What does not start over is under what it is joined to. -/
theorem prefix_components_join (h : area.isAbsolute = false) (root : Location) :
    root.components <+: (join root area).components := by
  by_cases hroot : root = []
  · rw [hroot]
    exact List.nil_prefix
  · rw [components_join h hroot]
    exact List.prefix_append _ _

theorem parent_mem_join (h : area.isAbsolute = false) (root : Location) :
    .parent ∈ (join root area).components ↔
      .parent ∈ root.components ∨ .parent ∈ area.components := by
  by_cases hroot : root = []
  · rw [hroot, join_nil, or_iff_right]
    exact List.not_mem_nil
  · rw [components_join h hroot, List.mem_append, parent_mem_components (l := area)]

end Location

end Interchange.Storage
