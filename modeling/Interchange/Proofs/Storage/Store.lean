import Interchange.Proofs.Entries
import Interchange.Proofs.Storage.Tree
import Interchange.Storage.Store

/-!
# Objects that are written

What is written to a draft can be read under its URI once the draft is published, in memory and in
files.  Before that nothing changes in memory, and files change at one place: the file of the draft
has the bytes that were written so far.  So what is read of other objects stays as it is, unless the
draft is of an object that was there.
-/

namespace Interchange.Storage

/-- A draft with more bytes written to it. -/
def Draft.append (d : Draft) (bytes : List UInt8) : Draft := { d with written := d.written ++ bytes }

@[simp] theorem Draft.append_nil (d : Draft) : d.append [] = d := by simp [append]

theorem Draft.append_append (d : Draft) (as bs : List UInt8) :
    (d.append as).append bs = d.append (as ++ bs) := by
  simp [append]

namespace Store

variable {s s' base : Store} {uri : String} {d : Draft} {bytes : List UInt8} {source : Source}
  {root l : Location}

/-- Whether objects are kept in memory. -/
def isInMemory (s : Store) : Bool :=
  match s.medium with
  | .memory _ => true
  | .files _ _ => false

/-! ## URIs -/

theorem after?_eq_some {start cs rest : List Char} :
    after? start cs = some rest ↔ cs = start ++ rest := by
  unfold after?
  split
  · next h =>
    obtain ⟨rest', rfl⟩ := List.isPrefixOf_iff_prefix.mp h
    rw [List.drop_left, Option.some_inj, List.append_cancel_left_eq, eq_comm]
  · next h =>
    refine iff_of_false (fun h ↦ nomatch h) ?_
    rintro rfl
    exact h (List.isPrefixOf_iff_prefix.mpr (List.prefix_append _ _))

/-- A URI is accepted if its location has no parents and begins with the components of the root. -/
theorem locate_eq_ok : locate root uri = .ok l ↔
    uri.toList = fileScheme ++ l ∧ .parent ∉ l.components ∧ root.components <+: l.components := by
  rw [← after?_eq_some, locate]
  cases after? fileScheme uri.toList with
  | none => exact iff_of_false (fun h ↦ nomatch h) fun h ↦ nomatch h.1
  | some l' =>
    dsimp only
    split
    · next h =>
      refine iff_of_false (fun h ↦ nomatch h) ?_
      rintro ⟨⟨⟩, hparent, hroot⟩
      exact h.elim hparent (absurd hroot)
    · next h =>
      obtain ⟨hparent, hroot⟩ := not_or.mp h
      rw [Except.ok.injEq, Option.some_inj]
      refine ⟨?_, And.left⟩
      rintro rfl
      exact ⟨rfl, hparent, Decidable.not_not.mp hroot⟩

/-! ## The kind of storage -/

theorem isInMemory_write (s : Store) (d : Draft) (bytes : List UInt8) :
    (s.write d bytes).1.isInMemory = s.isInMemory := by
  unfold write
  dsimp only
  split
  · next hmedium _ => simp [isInMemory, hmedium]
  · rfl

theorem isInMemory_publish (s : Store) (d : Draft) : (s.publish d).isInMemory = s.isInMemory := by
  unfold publish put
  split
  · next hmedium => simp [isInMemory, hmedium]
  · rfl

/-- New URIs of objects in memory are URIs of objects in memory. -/
theorem checkMemory_newUri (h : s.isInMemory = true) (segment hint : String) :
    checkMemory (s.newUri segment hint) = .ok () := by
  unfold isInMemory at h
  split at h
  · next hmedium =>
    simp only [newUri, hmedium, checkMemory]
    rw [if_pos]
    simp
  · cases h

/-- Opening an object leaves the kind of storage, and in memory only asks for its URI. -/
theorem run_openForWrite (s : Store) (uri : String) :
    ((openForWrite uri).run s).2.isInMemory = s.isInMemory ∧
      ∀ e, s.isInMemory = true → ((openForWrite uri).run s).1 = .error e →
        checkMemory uri = .error e := by
  obtain ⟨medium, area⟩ := s
  cases medium with
  | memory objects =>
    refine ⟨rfl, fun e _ he ↦ ?_⟩
    replace he : (checkMemory uri).map (fun _ ↦ (⟨uri, none, []⟩ : Draft)) = .error e := he
    cases hc : checkMemory uri with
    | ok _ =>
      rw [hc] at he
      cases he
    | error e' =>
      rw [hc] at he
      cases he
      rfl
  | files root tree =>
    refine ⟨?_, ?_⟩
    · dsimp only [openForWrite, Attempt.run]
      cases locate root uri with
      | error e => rfl
      | ok l =>
        dsimp only
        rcases tree.create l with ⟨e | place, tree⟩ <;> rfl
    · rintro e ⟨⟩

/-! ## Objects in memory -/

/-- An object put into memory is found there. -/
theorem get?_put (h : s.isInMemory = true) (uri : String) (bytes : List UInt8) :
    (s.put uri bytes).get? uri = some bytes := by
  obtain ⟨medium, area⟩ := s
  cases medium with
  | memory objects => exact get?_put_inMemory objects area uri bytes
  | files root tree => cases h

/-- What is stored under other URIs stays when an object is put into memory. -/
theorem get?_put_of_ne {other : String} (h : other ≠ uri) (bytes : List UInt8) :
    (s.put uri bytes).get? other = s.get? other := by
  obtain ⟨medium, area⟩ := s
  cases medium with
  | memory objects => exact Entries.get?_insert_of_ne h
  | files root tree => rfl

/-! ## Drafts -/

/-- The objects while a draft is written, given those when it was opened. -/
def filled (base : Store) (d : Draft) : Store :=
  match base.medium, d.place with
  | .files root tree, some place =>
    { base with medium := .files root (tree.put place (.file d.written)) }
  | _, _ => base

theorem write_filled (base : Store) (d : Draft) (bytes : List UInt8) :
    (base.filled d).write d bytes = (base.filled (d.append bytes), d.append bytes) := by
  obtain ⟨medium, area⟩ := base
  obtain ⟨uri, place, written⟩ := d
  cases medium with
  | memory objects => rfl
  | files root tree =>
    cases place with
    | none => rfl
    | some place => simp [filled, write, Draft.append, Tree.put_put]

theorem filled_of_isInMemory (h : base.isInMemory = true) (d : Draft) : base.filled d = base := by
  obtain ⟨medium, area⟩ := base
  cases medium with
  | memory objects => rfl
  | files root tree => cases h

/-- What opening an object comes to.  In memory its URI is checked, and in files a new file is made
empty. -/
inductive Opens (uri : String) : Store → Draft → Store → Prop
  | memory (objects : List (String × List UInt8)) (area : String)
    (checked : checkMemory uri = .ok ()) :
    Opens uri ⟨.memory objects, area⟩ ⟨uri, none, []⟩ ⟨.memory objects, area⟩
  | files {root l : Location} {tree made : Tree} {place : List FileName} (area : String)
    (located : locate root uri = .ok l) (makes : tree.Makes l place made) :
    Opens uri ⟨.files root tree, area⟩ ⟨uri, some place, []⟩
      ⟨.files root (made.put place (.file [])), area⟩

theorem opens_of_run (h : (openForWrite uri).run s = (.ok d, base)) : Opens uri s d base := by
  obtain ⟨medium, area⟩ := s
  cases medium with
  | memory objects =>
    obtain ⟨houtcome, rfl⟩ := Prod.mk.inj h
    obtain ⟨⟨⟩, hcheck, rfl⟩ := map_eq_ok.mp houtcome
    exact .memory objects area hcheck
  | files root tree =>
    cases hlocate : locate root uri with
    | error e =>
      dsimp only [openForWrite, Attempt.run] at h
      rw [hlocate] at h
      cases h
    | ok l =>
      dsimp only [openForWrite, Attempt.run] at h
      rw [hlocate] at h
      dsimp only at h
      rcases hcreate : tree.create l with ⟨e | place, tree'⟩
      · rw [hcreate] at h
        cases h
      · rw [hcreate] at h
        cases h
        obtain ⟨made, rfl, makes⟩ := Tree.exists_makes_of_create hcreate
        exact .files area hlocate makes

theorem Opens.of_isInMemory (h : Opens uri s d base) (hs : s.isInMemory = true) :
    d = ⟨uri, none, []⟩ ∧ base = s ∧ checkMemory uri = .ok () := by
  cases h with
  | memory objects area checked => exact ⟨rfl, rfl, checked⟩
  | files => cases hs

/-- A draft that was just opened is empty. -/
theorem Opens.filled_self (h : Opens uri s d base) : base.filled d = base := by
  cases h with
  | memory => rfl
  | files area located makes => simp [filled, Tree.put_put]

theorem readAll_file_eq_ok {root : Location} {tree : Tree} {area : String} {names : List FileName}
    {offset : Nat} : (Store.mk (.files root tree) area).readAll (.file names offset) = .ok bytes ↔
      ∃ all, tree.node? names = some (.file all) ∧ all.drop offset = bytes := by
  unfold readAll
  dsimp only
  split
  · next all hnode => simp [hnode]
  · next hnode =>
    constructor
    · rintro ⟨⟩
    · rintro ⟨all, hall, -⟩
      exact absurd hall (hnode all)

theorem read_memory {objects : List (String × List UInt8)} {area : String}
    (checked : checkMemory uri = .ok ()) (h : Entries.get? uri objects = some bytes) :
    (Store.mk (.memory objects) area).read uri = .ok bytes := by
  rw [read, openForRead]
  dsimp only
  rw [checked, ok_bind, h]
  rfl

theorem read_files {root l : Location} {tree : Tree} {area : String} {place : List FileName}
    (located : locate root uri = .ok l) (hfind : tree.find l = .ok (place, .file bytes))
    (hnode : tree.node? place = some (.file bytes)) :
    (Store.mk (.files root tree) area).read uri = .ok bytes := by
  rw [read, openForRead]
  dsimp only
  rw [located, ok_bind, hfind]
  show (Store.mk (.files root tree) area).readAll (.file place 0) = _
  exact readAll_file_eq_ok.mpr ⟨bytes, hnode, rfl⟩

/-- A location under which nothing exists leads to nothing. -/
theorem find_ne_ok_of_exists? {root l : Location} {tree : Tree} {area : String}
    (located : locate root uri = .ok l)
    (h : (Store.mk (.files root tree) area).exists? uri = .ok false)
    (found : List FileName × Tree) : tree.find l ≠ .ok found := by
  intro hfound
  rw [exists?] at h
  dsimp only at h
  rw [located, ok_bind, hfound] at h
  cases h

/-- What was written to a draft is read under its URI. -/
theorem Opens.read_publish (h : Opens uri s d base) (bytes : List UInt8) :
    ((base.filled (d.append bytes)).publish (d.append bytes)).read uri = .ok bytes := by
  cases h with
  | memory objects area checked =>
    exact read_memory checked (Entries.get?_insert_self _ _ _)
  | @files root l tree made place area located makes =>
    have hnode := makes.node?_put (.file bytes)
    have hread : (Store.mk (.files root (made.put place (.file bytes))) area).read uri = .ok bytes :=
      read_files located (makes.find_of_node? _ _ hnode) hnode
    rwa [← Tree.put_put place made (.file []) (.file bytes)] at hread

/-! ## What can be read -/

/-- Whatever is read of open objects is the same. -/
def Keeps (s s' : Store) : Prop :=
  ∀ source bytes, s.readAll source = .ok bytes → s'.readAll source = .ok bytes

/-- Nothing is under the URI that writing to it would take away; in memory, objects that are open
stay as they were opened. -/
def Fresh (s : Store) (uri : String) : Prop := s.isInMemory = true ∨ s.exists? uri = .ok false

theorem Opens.keeps (h : Opens uri s d base) (fresh : s.Fresh uri) (bytes : List UInt8) :
    s.Keeps (base.filled (d.append bytes)) := by
  intro source rest hread
  cases h with
  | memory => exact hread
  | @files root l tree made place area located makes =>
    cases source with
    | bytes => exact hread
    | file names offset =>
      rcases fresh with hmemory | hnew
      · cases hmemory
      · obtain ⟨all, hnode, hrest⟩ := readAll_file_eq_ok.mp hread
        have hne : names ≠ place := by
          rintro rfl
          exact find_ne_ok_of_exists? located hnew _ (makes.find_of_node? _ _ hnode)
        have hkept := Tree.node?_put_of_file ((makes.file_iff names all).mpr hnode) hne
          makes.not_directory (.file bytes)
        rw [← Tree.put_put place made (.file []) (.file bytes)] at hkept
        exact readAll_file_eq_ok.mpr ⟨all, hkept, hrest⟩

end Store

end Interchange.Storage
