import Interchange.Proofs.Attempt
import Interchange.Proofs.Storage.Location
import Interchange.Storage.Tree

/-!
# Files that are made in a tree

Making a file changes the tree at one place.  The directories that lead there hold no new files, and
every file that stands elsewhere stays.  The location that the file was made at leads to it from
then on, whatever is written to it.
-/

namespace Interchange.Storage.Tree

variable {t t' made : Tree} {names place here : List FileName} {name n : FileName}
  {entries es : List (FileName × Tree)} {bytes : List UInt8} {there : Option Tree}
  {pieces : List (List Char)} {l : Location}

/-! ## Nodes -/

@[simp] theorem setChild_setChild (name : FileName) (t a b : Tree) :
    (t.setChild name a).setChild name b = t.setChild name b := by
  cases t with
  | file bytes => rfl
  | directory entries => simp [setChild]

/-- Under a name stands what was put there, and under others what was there before. -/
theorem child?_setChild (name n : FileName) (new : Tree) :
    ((directory entries).setChild name new).child? n =
      if n = name then some new else (directory entries).child? n := by
  by_cases h : n = name
  · subst h
    simp
  · have hne : (n == name) = false := beq_false_of_ne h
    simp only [child?, setChild, List.lookup_cons, hne, if_neg h]
    induction entries with
    | nil => rfl
    | cons e es ih =>
      obtain ⟨m, x⟩ := e
      by_cases hm : m = name
      · subst hm
        simpa [List.lookup_cons, hne] using ih
      · simp only [List.filter_cons, hm, ne_eq, not_false_eq_true, decide_true, if_true,
          List.lookup_cons, ih]

theorem node?_setChild (name n : FileName) (names : List FileName) (new : Tree) :
    ((directory entries).setChild name new).node? (n :: names) =
      if n = name then new.node? names else (directory entries).node? (n :: names) := by
  rw [node?, child?_setChild]
  split <;> rfl

/-- What is put to a place later counts. -/
theorem put_put (names : List FileName) (t a b : Tree) :
    (t.put names a).put names b = t.put names b := by
  induction names generalizing t with
  | nil => rfl
  | cons name names ih =>
    cases t with
    | file bytes => rfl
    | directory entries => simp [put, ih]

theorem node?_empty_ne_file (names : List FileName) : empty.node? names ≠ some (file bytes) := by
  cases names <;> simp [empty, node?, child?]

/-- A file stays where something is put elsewhere, unless a directory stood there. -/
theorem node?_put_of_file (h : t.node? names = some (file bytes)) (hne : names ≠ place)
    (hplace : ∀ es, t.node? place ≠ some (directory es)) (new : Tree) :
    (t.put place new).node? names = some (file bytes) := by
  induction place generalizing t names with
  | nil =>
    cases t with
    | file bs =>
      cases names with
      | nil => exact absurd rfl hne
      | cons => cases h
    | directory es => exact absurd rfl (hplace es)
  | cons name place ih =>
    cases t with
    | file bs => exact h
    | directory entries =>
      cases names with
      | nil => cases h
      | cons n names =>
        rw [put, node?_setChild]
        split
        · next heq =>
          subst heq
          obtain ⟨below, hbelow, h⟩ := Option.bind_eq_some_iff.mp h
          have hplace' : ∀ es, below.node? place ≠ some (directory es) := by
            intro es hes
            exact hplace es (by rw [node?, hbelow]; exact hes)
          rw [hbelow]
          exact ih h (fun heq ↦ hne (congrArg _ heq)) hplace'
        · exact h

/-! ## Directories -/

/-- Making directories makes no files, and leaves the files that are there. -/
theorem node?_makeDirectories_eq_file_iff (names place : List FileName) (t : Tree) :
    (t.makeDirectories names).2.node? place = some (file bytes) ↔
      t.node? place = some (file bytes) := by
  induction names generalizing t place with
  | nil => cases t <;> rfl
  | cons name names ih =>
    cases t with
    | file bs => rfl
    | directory entries =>
      rw [makeDirectories]
      split
      · rfl
      · cases place with
        | nil => exact ⟨fun h ↦ (nomatch h), fun h ↦ (nomatch h)⟩
        | cons n place =>
          show (((directory entries).setChild name _).node? (n :: place) = _) ↔ _
          rw [node?_setChild]
          split
          · next heq =>
            subst heq
            rw [ih, node?, child?]
            cases entries.lookup n with
            | none => simp [node?_empty_ne_file]
            | some below => rfl
          · rfl

theorem exists_directory_of_makeDirectories (h : t.makeDirectories names = (.ok (), made)) :
    ∃ es, made = directory es := by
  cases names with
  | nil =>
    cases t with
    | file bs => cases h
    | directory es =>
      cases h
      exact ⟨es, rfl⟩
  | cons name names =>
    cases t with
    | file bs => cases h
    | directory es =>
      rw [makeDirectories] at h
      split at h
      · cases h
      · obtain ⟨-, rfl⟩ := Prod.mk.inj h
        exact ⟨_, rfl⟩

/-! ## Locations -/

/-- A piece that names something. -/
def Names (piece : List Char) : Prop := ¬ (piece = [] ∨ piece = ['.'])

theorem follow_append (here : List FileName) (there : Option Tree) (ps qs : List (List Char)) :
    follow here there (ps ++ qs) =
      follow here there ps >>= fun (place, there) ↦ follow place there qs := by
  induction ps generalizing here there with
  | nil => rfl
  | cons p ps ih =>
    rw [List.cons_append]
    rcases there with _ | _ | entries
    · rfl
    · rfl
    · rw [follow, follow]
      split
      · exact ih _ _
      · split
        · rfl
        · exact ih _ _

/-- Pieces that end with one that names nothing lead to a directory. -/
theorem exists_directory_of_follow (hname : ¬ Names name)
    (h : follow here (some t) (pieces ++ [name]) = .ok (place, there)) :
    ∃ es, there = some (directory es) := by
  rw [follow_append] at h
  rcases hbefore : follow here (some t) pieces with e | ⟨p, _ | _ | es⟩
  · rw [hbefore] at h
    cases h
  · rw [hbefore] at h
    cases h
  · rw [hbefore] at h
    cases h
  · rw [hbefore] at h
    change follow p (some (directory es)) [name] = _ at h
    rw [follow, if_pos (Decidable.not_not.mp hname)] at h
    cases h
    exact ⟨es, rfl⟩

theorem follow_none (here : List FileName) (ps : List (List Char)) (name : List Char) :
    follow here none (ps ++ [name]) = .error .noEntry := by
  cases ps <;> rfl

theorem exists_entries_of_node? {x : Tree} (h : t.node? (n :: names) = some x) :
    ∃ es below, t = directory es ∧ es.lookup n = some below ∧ below.node? names = some x := by
  cases t with
  | file bs => cases h
  | directory es =>
    obtain ⟨below, hbelow, h⟩ := Option.bind_eq_some_iff.mp h
    exact ⟨es, below, rfl, hbelow, h⟩

/-- What pieces lead to stands under names that only depend on the pieces.  So they lead to whatever
stands there. -/
theorem exists_names_of_follow (hname : Names name)
    (h : follow here (some t) (pieces ++ [name]) = .ok (place, there)) :
    ∃ n names, place = here ++ n :: names ∧ t.node? (n :: names) = there ∧
      (∀ new, (t.put (n :: names) new).node? (n :: names) = some new) ∧
      ∀ t' x, t'.node? (n :: names) = some x →
        follow here (some t') (pieces ++ [name]) = .ok (place, some x) := by
  induction pieces generalizing here t with
  | nil =>
    rcases t with bs | entries
    · cases h
    · rw [List.nil_append, follow, if_neg hname] at h
      split at h
      · cases h
      · next hshort =>
        cases h
        refine ⟨name, [], rfl, ?_, fun new ↦ ?_, fun t' x hx ↦ ?_⟩
        · show (entries.lookup name).bind some = _
          rw [Option.bind_fun_some]
        · rw [put, node?_setChild, if_pos rfl]
          rfl
        · obtain ⟨es, below, rfl, hbelow, hx⟩ := exists_entries_of_node? hx
          cases hx
          rw [List.nil_append, follow, if_neg hname, if_neg hshort, hbelow]
          rfl
  | cons p pieces ih =>
    rcases t with bs | entries
    · cases h
    · rw [List.cons_append, follow] at h
      split at h
      · next hblank =>
        obtain ⟨n, names, hplace, hthere, hput, hfollow⟩ := ih h
        refine ⟨n, names, hplace, hthere, hput, fun t' x hx ↦ ?_⟩
        have hrest := hfollow t' x hx
        obtain ⟨es, -, rfl, -, -⟩ := exists_entries_of_node? hx
        rwa [List.cons_append, follow, if_pos hblank]
      · next hnames =>
        split at h
        · cases h
        · next hshort =>
          rcases hbelow : entries.lookup p with _ | below
          · rw [hbelow, follow_none] at h
            cases h
          · rw [hbelow] at h
            obtain ⟨n, names, rfl, hthere, hput, hfollow⟩ := ih h
            refine ⟨p, n :: names, by rw [List.append_assoc]; rfl, ?_, fun new ↦ ?_,
              fun t' x hx ↦ ?_⟩
            · rw [node?, child?, hbelow]
              exact hthere
            · rw [put, node?_setChild, if_pos rfl, child?, hbelow]
              exact hput new
            · obtain ⟨es, below', rfl, hbelow', hx⟩ := exists_entries_of_node? hx
              rw [List.cons_append, follow, if_neg hnames, if_neg hshort, hbelow']
              exact hfollow below' x hx

/-- A location that does not end with a slash has a last piece that is not empty. -/
theorem exists_pieces (hne : l ≠ []) (hslash : l.getLast? ≠ some '/') :
    ∃ pieces name, l.pieces = pieces ++ [name] ∧ name ≠ [] := by
  induction l with
  | nil => exact absurd rfl hne
  | cons c cs ih =>
    rcases cs with _ | ⟨d, ds⟩
    · have hc : c ≠ '/' := fun hc ↦ hslash (congrArg some hc)
      exact ⟨[], [c], Location.pieces_cons_of_ne hc [] [] rfl, List.cons_ne_nil _ _⟩
    · rw [List.getLast?_cons_cons] at hslash
      obtain ⟨pieces, name, hpieces, hname⟩ := ih (List.cons_ne_nil _ _) hslash
      by_cases hc : c = '/'
      · subst hc
        exact ⟨[] :: pieces, name, congrArg _ hpieces, hname⟩
      · rcases pieces with _ | ⟨p, ps⟩
        · exact ⟨[], c :: name, Location.pieces_cons_of_ne hc _ _ hpieces, List.cons_ne_nil _ _⟩
        · exact ⟨(c :: p) :: ps, name, Location.pieces_cons_of_ne hc _ _ hpieces, hname⟩

/-- A file is written where the pieces of its location lead to, and the last piece is a name. -/
theorem exists_follow_of_target (h : (directory entries).target l = .ok place) :
    checkText l = .ok () ∧ ∃ pieces name there, l.pieces = pieces ++ [name] ∧ Names name ∧
      follow [] (some (directory entries)) (pieces ++ [name]) = .ok (place, there) ∧
      ∀ es, there ≠ some (directory es) := by
  obtain ⟨⟨⟩, htext, h⟩ := bind_eq_ok.mp h
  refine ⟨htext, ?_⟩
  by_cases hne : l = []
  · subst hne
    cases h
  · obtain ⟨⟨place', there⟩, hfollow, h⟩ := bind_eq_ok.mp h
    dsimp only at h
    by_cases hslash : l.getLast? = some '/'
    · rw [hslash] at h
      cases h
    · obtain ⟨pieces, name, hpieces, hname⟩ := exists_pieces hne hslash
      rw [hpieces, List.reverse_append, List.reverse_singleton, List.singleton_append] at hfollow
      split at hfollow
      · next heq => exact absurd (List.cons.inj heq).1 hname
      · split at h
        · cases h
        · cases h
        · next hthere _ =>
          cases h
          refine ⟨pieces, name, _, hpieces, ?_, hfollow, hthere⟩
          intro hnothing
          obtain ⟨es, hes⟩ := exists_directory_of_follow (not_not_intro hnothing) hfollow
          exact hthere es hes

/-! ## Making a file -/

/-- A file that is made stands at a place where no directory stands, once the directories that lead
there are made. -/
structure Makes (t : Tree) (l : Location) (place : List FileName) (made : Tree) : Prop where
  /-- No files are made with the directories. -/
  file_iff : ∀ names bytes, made.node? names = some (file bytes) ↔
    t.node? names = some (file bytes)
  not_directory : ∀ es, made.node? place ≠ some (directory es)
  node?_put : ∀ new, (made.put place new).node? place = some new
  /-- The location leads to the place wherever something stands there. -/
  find_of_node? : ∀ (t' : Tree) (x : Tree), t'.node? place = some x → t'.find l = .ok (place, x)

theorem exists_makes_of_create (h : t.create l = (.ok place, t')) :
    ∃ made, t' = made.put place (file []) ∧ Makes t l place made := by
  unfold create at h
  split at h
  · cases h
  · split at h
    · cases h
    · next made hmade =>
      obtain ⟨es, rfl⟩ := exists_directory_of_makeDirectories hmade
      split at h
      · cases h
      · next place' htarget =>
        cases h
        obtain ⟨htext, pieces, name, there, hpieces, hname, hfollow, hthere⟩ :=
          exists_follow_of_target htarget
        obtain ⟨n, names, rfl, hnode, hput, hfind⟩ := exists_names_of_follow hname hfollow
        refine ⟨directory es, rfl, ?_, ?_, hput, ?_⟩
        · intro names bytes
          rw [← node?_makeDirectories_eq_file_iff l.names.dropLast names t, hmade]
        · intro es hes
          exact hthere es (hnode ▸ hes)
        · intro t' x hx
          rw [find, htext, hpieces]
          show (follow [] (some t') (pieces ++ [name]) >>= _) = _
          rw [hfind t' x hx]
          rfl

end Interchange.Storage.Tree
