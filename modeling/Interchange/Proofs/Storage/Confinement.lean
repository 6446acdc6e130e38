import Interchange.Proofs.Storage.Sharing

/-!
# Files stay under the root

A URI that is accepted leads on from the root by names alone, unless the root is the empty location,
which every location begins with.  Following such a location never turns back, so the place that it
leads to is spelled by its names, and these begin with the names of the root.

So whatever is asked of a storage of files under a root, it looks at what stands at a place under
the root.  When files are written, the directories that lead to the root may be made, and nothing
else changes outside of it.
-/

namespace Interchange.Storage

/-! ## Places that locations lead to -/

namespace Tree

variable {t t' t'' : Tree} {names place other here root : List FileName} {l : Location}
  {entries : List (FileName × Tree)} {there found : Option Tree} {pieces : List (List Char)}
  {bytes : List UInt8} {x : Tree}

/-- The pieces that name something. -/
def named (pieces : List (List Char)) : List FileName :=
  pieces.filter fun piece ↦ ¬ (piece = [] ∨ piece = ['.'])

theorem named_cons (piece : List Char) (pieces : List (List Char)) : named (piece :: pieces) =
    if piece = [] ∨ piece = ['.'] then named pieces else piece :: named pieces := by
  by_cases h : piece = [] ∨ piece = ['.']
  · rw [if_pos h]
    exact List.filter_cons_of_neg (by rw [decide_eq_true_eq]; exact not_not_intro h)
  · rw [if_neg h]
    exact List.filter_cons_of_pos (decide_eq_true h)

/-- The names among the pieces of a location are its names if none of them is a parent. -/
theorem named_pieces (h : .parent ∉ l.steps) : named l.pieces = l.names := by
  rw [Location.names]
  rw [Location.steps] at h
  generalize l.pieces = pieces at h ⊢
  induction pieces with
  | nil => rfl
  | cons piece pieces ih =>
    rw [named_cons]
    split
    · next hblank =>
      have hnone : Location.component? piece = none := if_pos hblank
      rw [List.filterMap_cons_none hnone] at h
      rw [List.filterMap_cons_none (by rw [hnone])]
      exact ih h
    · next hname =>
      by_cases hdots : piece = ['.', '.']
      · subst hdots
        exact absurd List.mem_cons_self h
      · have hsome : Location.component? piece = some (.normal piece) :=
          (if_neg hname).trans (if_neg hdots)
        rw [List.filterMap_cons_some hsome] at h
        rw [List.filterMap_cons_some (by rw [hsome]), ih (List.not_mem_of_not_mem_cons h)]

/-- Pieces lead to the place that their names spell, and to what stands there. -/
theorem follow_eq_ok (h : follow here there pieces = .ok (place, found)) :
    place = here ++ named pieces ∧ found = there.bind (node? (named pieces)) := by
  induction pieces generalizing here there with
  | nil =>
    cases h
    exact ⟨(List.append_nil _).symm, (Option.bind_fun_some _).symm⟩
  | cons piece pieces ih =>
    rw [named_cons]
    rcases there with _ | _ | entries
    · cases h
    · cases h
    · rw [follow] at h
      split at h
      · next hblank =>
        rw [if_pos hblank]
        exact ih h
      · next hname =>
        split at h
        · cases h
        · rw [if_neg hname]
          obtain ⟨rfl, rfl⟩ := ih h
          exact ⟨by rw [List.append_assoc]; rfl, rfl⟩

/-- Pieces that lead to nothing spell a place where nothing stands. -/
theorem node?_of_follow_eq_noEntry (h : follow here there pieces = .error .noEntry) :
    there.bind (node? (named pieces)) = none := by
  induction pieces generalizing here there with
  | nil => cases h
  | cons piece pieces ih =>
    rw [named_cons]
    rcases there with _ | _ | entries
    · rfl
    · cases h
    · rw [follow] at h
      split at h
      · next hblank =>
        rw [if_pos hblank]
        exact ih h
      · next hname =>
        split at h
        · cases h
        · rw [if_neg hname]
          exact ih h

theorem checkText_ne_noEntry (l : Location) : checkText l ≠ .error .noEntry := by
  unfold checkText
  split
  · exact fun h ↦ nomatch h
  · split <;> exact fun h ↦ nomatch h

/-- A location leads to what stands at the place that its names spell. -/
theorem find_eq_ok (hl : .parent ∉ l.steps) (h : t.find l = .ok (place, x)) :
    place = l.names ∧ t.node? l.names = some x := by
  obtain ⟨⟨⟩, -, h⟩ := bind_eq_ok.mp h
  obtain ⟨⟨place', found⟩, hfollow, h⟩ := bind_eq_ok.mp h
  obtain ⟨hplace, hfound⟩ := follow_eq_ok hfollow
  rw [named_pieces hl] at hplace hfound
  cases found with
  | none => cases h
  | some x' =>
    cases h
    exact ⟨hplace, hfound.symm⟩

/-- Where a location leads to nothing, nothing stands at the place that its names spell. -/
theorem node?_of_find_eq_noEntry (hl : .parent ∉ l.steps) (h : t.find l = .error .noEntry) :
    t.node? l.names = none := by
  rw [find] at h
  cases htext : checkText l with
  | error e =>
    rw [htext] at h
    cases h
    exact absurd htext (checkText_ne_noEntry l)
  | ok =>
    rw [htext, ok_bind] at h
    rw [← named_pieces hl]
    rcases hfollow : follow [] (some t) l.pieces with e | ⟨place, _ | x⟩
    · rw [hfollow] at h
      cases h
      exact node?_of_follow_eq_noEntry hfollow
    · exact (follow_eq_ok hfollow).2.symm
    · rw [hfollow] at h
      cases h

/-- A file is written at the place that the names of its location spell. -/
theorem target_eq_ok (hl : .parent ∉ l.steps) (h : (directory entries).target l = .ok place) :
    place = l.names := by
  obtain ⟨-, pieces, name, there, hpieces, -, hfollow, -⟩ := exists_follow_of_target h
  rw [← named_pieces hl, hpieces]
  exact (follow_eq_ok hfollow).1

/-! ## Changes under a place -/

/-- Two trees are the same but under a place and in the directories that lead there; and there are
no files among those. -/
structure SameOutside (place : List FileName) (t t' : Tree) : Prop where
  node?_eq : ∀ other, ¬ place <+: other → ¬ other <+: place → t'.node? other = t.node? other
  file_iff : ∀ other bytes, ¬ place <+: other →
    (t'.node? other = some (file bytes) ↔ t.node? other = some (file bytes))

theorem SameOutside.refl (place : List FileName) (t : Tree) : SameOutside place t t :=
  ⟨fun _ _ _ ↦ rfl, fun _ _ _ ↦ Iff.rfl⟩

theorem SameOutside.trans (h : SameOutside place t t') (h' : SameOutside place t' t'') :
    SameOutside place t t'' :=
  ⟨fun other hbelow habove ↦
      (h'.node?_eq other hbelow habove).trans (h.node?_eq other hbelow habove),
    fun other bytes hbelow ↦
      (h'.file_iff other bytes hbelow).trans (h.file_iff other bytes hbelow)⟩

/-- Changes under a place are changes under every place that it is under. -/
theorem SameOutside.of_append (h : SameOutside (root ++ names) t t') : SameOutside root t t' where
  node?_eq other hbelow habove := by
    refine h.node?_eq other (fun hp ↦ hbelow ((List.prefix_append _ _).trans hp)) fun hp ↦ ?_
    exact (List.prefix_or_prefix_of_prefix hp (List.prefix_append _ _)).elim habove hbelow
  file_iff other bytes hbelow :=
    h.file_iff other bytes fun hp ↦ hbelow ((List.prefix_append _ _).trans hp)

theorem node?_put_elsewhere (hbelow : ¬ place <+: other) (habove : ¬ other <+: place)
    (t new : Tree) : (t.put place new).node? other = t.node? other := by
  induction place generalizing t other with
  | nil => exact absurd List.nil_prefix hbelow
  | cons name place ih =>
    cases other with
    | nil => exact absurd List.nil_prefix habove
    | cons n other =>
      cases t with
      | file bytes => rfl
      | directory entries =>
        rw [put, node?_setChild]
        split
        · next heq =>
          subst heq
          rw [List.cons_prefix_cons, and_iff_right rfl] at hbelow habove
          rw [ih hbelow habove, node?]
          cases (directory entries).child? n with
          | none =>
            cases other with
            | nil => exact absurd List.nil_prefix habove
            | cons => rfl
          | some below => rfl
        · rfl

/-- What is put to a place makes and removes no files elsewhere, but for those under the place. -/
theorem node?_put_eq_file_iff (hbelow : ¬ place <+: other) (t new : Tree) :
    (t.put place new).node? other = some (file bytes) ↔ t.node? other = some (file bytes) := by
  induction place generalizing t other with
  | nil => exact absurd List.nil_prefix hbelow
  | cons name place ih =>
    cases t with
    | file bs => rfl
    | directory entries =>
      cases other with
      | nil => exact ⟨fun h ↦ (nomatch h), fun h ↦ (nomatch h)⟩
      | cons n other =>
        rw [put, node?_setChild]
        split
        · next heq =>
          subst heq
          rw [List.cons_prefix_cons, and_iff_right rfl] at hbelow
          rw [ih hbelow, node?]
          cases (directory entries).child? n with
          | none => simp [node?_empty_ne_file]
          | some below => rfl
        · rfl

theorem sameOutside_put (place : List FileName) (t new : Tree) :
    SameOutside place t (t.put place new) :=
  ⟨fun _ hbelow habove ↦ node?_put_elsewhere hbelow habove t new,
    fun _ _ hbelow ↦ node?_put_eq_file_iff hbelow t new⟩

/-- Making directories changes nothing but what leads to them. -/
theorem node?_makeDirectories_elsewhere (habove : ¬ other <+: names) (t : Tree) :
    (t.makeDirectories names).2.node? other = t.node? other := by
  induction names generalizing t other with
  | nil => cases t <;> rfl
  | cons name names ih =>
    cases t with
    | file bytes => rfl
    | directory entries =>
      rw [makeDirectories]
      split
      · rfl
      · cases other with
        | nil => exact absurd List.nil_prefix habove
        | cons n other =>
          show (((directory entries).setChild name _).node? (n :: other)) = _
          rw [node?_setChild]
          split
          · next heq =>
            subst heq
            rw [List.cons_prefix_cons, and_iff_right rfl] at habove
            rw [ih habove, node?, child?]
            cases entries.lookup n with
            | none =>
              cases other with
              | nil => exact absurd List.nil_prefix habove
              | cons => rfl
            | some below => rfl
          · rfl

theorem sameOutside_makeDirectories (h : root <+: place) (hnames : names <+: place) (t : Tree) :
    SameOutside root t (t.makeDirectories names).2 where
  node?_eq other hbelow habove := by
    refine node?_makeDirectories_elsewhere (fun hp ↦ ?_) t
    exact (List.prefix_or_prefix_of_prefix (hp.trans hnames) h).elim habove hbelow
  file_iff other _ _ := node?_makeDirectories_eq_file_iff names other t

/-- However making a file ends, nothing changes outside of where its location leads. -/
theorem sameOutside_create (hl : .parent ∉ l.steps) (h : root <+: l.names) (t : Tree) :
    SameOutside root t (t.create l).2 := by
  unfold create
  split
  · exact .refl root t
  · have hdirectories := sameOutside_makeDirectories h (List.dropLast_prefix l.names) t
    split
    · next hmade =>
      rw [hmade] at hdirectories
      exact hdirectories
    · next made hmade =>
      rw [hmade] at hdirectories
      obtain ⟨es, rfl⟩ := exists_directory_of_makeDirectories hmade
      split
      · exact hdirectories
      · next place htarget =>
        obtain ⟨names, hnames⟩ := h
        rw [target_eq_ok hl htarget, ← hnames]
        exact hdirectories.trans (sameOutside_put _ _ _).of_append

/-- A file is made at the place that the names of its location spell. -/
theorem create_eq_ok (hl : .parent ∉ l.steps) (h : t.create l = (.ok place, t')) :
    place = l.names := by
  unfold create at h
  split at h
  · cases h
  · split at h
    · cases h
    · next made hmade =>
      obtain ⟨es, rfl⟩ := exists_directory_of_makeDirectories hmade
      split at h
      · cases h
      · next htarget =>
        cases h
        exact target_eq_ok hl htarget

end Tree

/-! ## Files of a storage -/

namespace Store

variable {root l : Location} {uri : String} {tree : Tree} {area : String} {s : Store} {d : Draft}
  {source : Source}

/-- A place under the root. -/
def Under (root : Location) (place : List FileName) : Prop := root.names <+: place

theorem parent_notMem_of_locate (h : locate root uri = .ok l) : .parent ∉ l.steps :=
  fun hmem ↦ (locate_eq_ok.mp h).2.1 (Location.parent_mem_components.mpr hmem)

/-- An accepted URI leads to a place under the root. -/
theorem under_of_locate (h : locate root uri = .ok l) : Under root l.names := by
  rw [Under, Location.names_eq, Location.names_eq]
  exact (locate_eq_ok.mp h).2.2.filterMap _

/-- A file is looked for under the root. -/
theorem openForRead_under (h : (Store.mk (.files root tree) area).openForRead uri = .ok source) :
    ∃ place, source = .file place 0 ∧ Under root place := by
  obtain ⟨l, hlocate, h⟩ := bind_eq_ok.mp h
  split at h
  · cases h
  · cases h
  · next place x hfind =>
    cases h
    obtain ⟨rfl, -⟩ := Tree.find_eq_ok (parent_notMem_of_locate hlocate) hfind
    exact ⟨_, rfl, under_of_locate hlocate⟩

/-- Whether something is there is asked of a place under the root. -/
theorem exists?_under {there : Bool}
    (h : (Store.mk (.files root tree) area).exists? uri = .ok there) :
    ∃ place, Under root place ∧ there = (tree.node? place).isSome := by
  obtain ⟨l, hlocate, h⟩ := bind_eq_ok.mp h
  have hparent := parent_notMem_of_locate hlocate
  refine ⟨l.names, under_of_locate hlocate, ?_⟩
  split at h
  · next hfind =>
    cases h
    rw [Tree.node?_of_find_eq_noEntry hparent hfind]
    rfl
  · cases h
  · next found hfind =>
    cases h
    rw [(Tree.find_eq_ok hparent hfind).2]
    rfl

/-- However opening a file for writing ends, nothing changes outside of the root, and the file that
is opened is under the root. -/
theorem openForWrite_under (root : Location) (tree : Tree) (area uri : String) : ∃ tree',
    ((openForWrite uri).run ⟨.files root tree, area⟩).2 = ⟨.files root tree', area⟩ ∧
    Tree.SameOutside root.names tree tree' ∧
    ∀ d, ((openForWrite uri).run ⟨.files root tree, area⟩).1 = .ok d →
      ∃ place, d.place = some place ∧ Under root place := by
  dsimp only [openForWrite, Attempt.run]
  cases hlocate : locate root uri with
  | error e => exact ⟨tree, rfl, .refl _ _, fun d h ↦ nomatch h⟩
  | ok l =>
    dsimp only
    have hparent := parent_notMem_of_locate hlocate
    have hsame := Tree.sameOutside_create hparent (under_of_locate hlocate) tree
    rcases hcreate : tree.create l with ⟨e | place, tree'⟩
    · rw [hcreate] at hsame
      exact ⟨tree', rfl, hsame, fun d h ↦ nomatch h⟩
    · rw [hcreate] at hsame
      refine ⟨tree', rfl, hsame, ?_⟩
      rintro d ⟨⟩
      obtain rfl := Tree.create_eq_ok hparent hcreate
      exact ⟨_, rfl, under_of_locate hlocate⟩

/-- What is written to a file under the root changes nothing outside of it. -/
theorem write_under {place : List FileName} (hd : d.place = some place) (hplace : Under root place)
    (tree : Tree) (area : String) (bytes : List UInt8) : ∃ tree',
    (Store.mk (.files root tree) area).write d bytes =
      (⟨.files root tree', area⟩, d.append bytes) ∧
    Tree.SameOutside root.names tree tree' := by
  obtain ⟨names, rfl⟩ := hplace
  obtain ⟨uri, place, written⟩ := d
  obtain rfl : place = some (root.names ++ names) := hd
  exact ⟨tree.put (root.names ++ names) (.file (written ++ bytes)), rfl,
    (Tree.sameOutside_put _ _ _).of_append⟩

/-- Fetching goes on at the same place. -/
theorem exists_offset_of_fetch {place : List FileName} {offset : Nat} {next : List UInt8}
    (h : (Store.mk (.files root tree) area).fetch (.file place offset) = .ok (next, source)) :
    ∃ offset', source = .file place offset' := by
  unfold fetch at h
  dsimp only at h
  split at h
  · cases h
    exact ⟨_, rfl⟩
  · cases h

end Store

/-! ## Storages of files that are shared -/

namespace Sharing

variable {root : Location} {tree : Tree} {area : String} {s : Sharing}

/-- Nothing changed outside of the root, and what is open is under the root. -/
structure Confined (root : Location) (tree : Tree) (area : String) (s : Sharing) : Prop where
  store_eq : ∃ tree', s.store = ⟨.files root tree', area⟩ ∧ Tree.SameOutside root.names tree tree'
  writers : ∀ d ∈ s.writers, ∃ place, d.place = some place ∧ Store.Under root place
  readers : ∀ reading ∈ s.readers,
    ∃ place offset, reading.source = .file place offset ∧ Store.Under root place

theorem Confined.put (h : s.Confined root tree area) (uri : String) (bytes : List UInt8) :
    Confined root tree area { s with store := s.store.put uri bytes } := by
  obtain ⟨tree', hstore, hsame⟩ := h.store_eq
  refine ⟨⟨tree', ?_, hsame⟩, h.writers, h.readers⟩
  show s.store.put uri bytes = _
  rw [hstore]
  rfl

theorem Confined.publish (h : s.Confined root tree area) (w : Nat) :
    (s.publish w).Confined root tree area := by
  unfold Sharing.publish
  split
  · exact h
  · exact h.put _ _

theorem Confined.openForWrite (h : s.Confined root tree area) (uri : String) :
    (s.step (.openForWrite uri)).Confined root tree area := by
  obtain ⟨tree', hstore, hsame⟩ := h.store_eq
  obtain ⟨tree'', hrun, hsame', hplace⟩ := Store.openForWrite_under root tree' area uri
  rw [step, hstore]
  rcases hopen : (Store.openForWrite uri).run ⟨.files root tree', area⟩ with ⟨e | d, store⟩
  · rw [hopen] at hrun
    exact ⟨⟨tree'', hrun, hsame.trans hsame'⟩, h.writers, h.readers⟩
  · rw [hopen] at hrun hplace
    refine ⟨⟨tree'', hrun, hsame.trans hsame'⟩, fun d' hd' ↦ ?_, h.readers⟩
    rcases List.mem_append.mp hd' with hd' | hd'
    · exact h.writers d' hd'
    · rw [List.mem_singleton.mp hd']
      exact hplace d rfl

theorem Confined.write (h : s.Confined root tree area) (w : Nat) (bytes : List UInt8) :
    (s.step (.write w bytes)).Confined root tree area := by
  rw [step]
  split
  · exact h
  · next d hd =>
    obtain ⟨tree', hstore, hsame⟩ := h.store_eq
    obtain ⟨place, hplace, hunder⟩ := h.writers d (List.mem_of_getElem? hd)
    obtain ⟨tree'', hwrite, hsame'⟩ := Store.write_under hplace hunder tree' area bytes
    rw [hstore, hwrite]
    refine ⟨⟨tree'', rfl, hsame.trans hsame'⟩, fun d' hd' ↦ ?_, h.readers⟩
    rcases List.mem_or_eq_of_mem_set hd' with hd' | rfl
    · exact h.writers d' hd'
    · exact ⟨place, hplace, hunder⟩

theorem Confined.openForRead (h : s.Confined root tree area) (uri : String) :
    (s.step (.openForRead uri)).Confined root tree area := by
  rw [step]
  split
  · next source hsource =>
    obtain ⟨tree', hstore, -⟩ := h.store_eq
    rw [hstore] at hsource
    obtain ⟨place, rfl, hunder⟩ := Store.openForRead_under hsource
    refine ⟨h.store_eq, h.writers, fun reading hreading ↦ ?_⟩
    rcases List.mem_append.mp hreading with hreading | hreading
    · exact h.readers reading hreading
    · rw [List.mem_singleton.mp hreading]
      exact ⟨place, 0, rfl, hunder⟩
  · exact h

theorem Confined.fetch (h : s.Confined root tree area) (r : Nat) :
    (s.step (.fetch r)).Confined root tree area := by
  rw [step]
  split
  · exact h
  · next reading hreading =>
    split
    · next next source hfetch =>
      obtain ⟨tree', hstore, -⟩ := h.store_eq
      obtain ⟨place, offset, hsource, hunder⟩ := h.readers _ (List.mem_of_getElem? hreading)
      rw [hstore, hsource] at hfetch
      obtain ⟨offset', rfl⟩ := Store.exists_offset_of_fetch hfetch
      refine ⟨h.store_eq, h.writers, fun reading' hreading' ↦ ?_⟩
      rcases List.mem_or_eq_of_mem_set hreading' with hreading' | rfl
      · exact h.readers reading' hreading'
      · exact ⟨place, offset', rfl, hunder⟩
    · exact h

/-- No act leaves the root. -/
theorem Confined.step (h : s.Confined root tree area) (act : Act) :
    (s.step act).Confined root tree area := by
  cases act with
  | put uri bytes => exact h.put uri bytes
  | openForWrite uri => exact h.openForWrite uri
  | write w bytes => exact h.write w bytes
  | flush w => exact h.publish w
  | shutdown w => exact h.publish w
  | openForRead uri => exact h.openForRead uri
  | fetch r => exact h.fetch r
  | exists? uri => exact h

/-- Whatever is done with a storage of files, it stays under the root. -/
theorem confined_after (root : Location) (tree : Tree) (area : String) (past : List Act) :
    ((unused ⟨.files root tree, area⟩).after past).Confined root tree area := by
  induction past with
  | nil => exact ⟨⟨tree, rfl, .refl _ _⟩, fun d h ↦ (nomatch h), fun reading h ↦ (nomatch h)⟩
  | cons act past ih => exact ih.step act

/-- An accepted URI leads on from the root by names alone, unless the root is the empty location and
the URI's location has a start of its own.  With any other root, whatever is done with a storage of
files, nothing changes outside of the root, and files are written, read and looked for under it. -/
theorem stays_under_root (root : Location) (area : String) :
    (∀ uri l, Store.locate root uri = .ok l →
      (Location.LeadsOn root l ↔ root ≠ [] ∨ l.start = [])) ∧
    (root ≠ [] → ∀ tree past,
      ((unused ⟨.files root tree, area⟩).after past).Confined root tree area ∧
      ∀ uri there, ((unused ⟨.files root tree, area⟩).after past).store.exists? uri = .ok there →
        ∃ tree' place, ((unused ⟨.files root tree, area⟩).after past).store =
          ⟨.files root tree', area⟩ ∧ Store.Under root place ∧
          there = (tree'.node? place).isSome) := by
  refine ⟨fun uri l hlocate ↦ ?_, fun _ tree past ↦ ⟨confined_after root tree area past, ?_⟩⟩
  · obtain ⟨-, hparent, hroot⟩ := Store.locate_eq_ok.mp hlocate
    exact Location.leadsOn_iff hparent hroot
  · intro uri there hexists
    obtain ⟨tree', hstore, -⟩ := (confined_after root tree area past).store_eq
    rw [hstore] at hexists
    obtain ⟨place, hunder, hthere⟩ := Store.exists?_under hexists
    exact ⟨tree', place, hstore, hunder, hthere⟩

/-- A file below a root that is named from the top. -/
theorem stays_under_root_data :
    Store.locate "/data".toList "file:///data/raw/a" = .ok "/data/raw/a".toList ∧
    Location.LeadsOn "/data".toList "/data/raw/a".toList := by
  have hlocate : Store.locate "/data".toList "file:///data/raw/a" = .ok "/data/raw/a".toList := rfl
  exact ⟨hlocate, ((stays_under_root _ "raw").1 _ _ hlocate).mpr (.inl (by decide))⟩

/-- Every location begins with the components of the empty root, also one that starts at the top. -/
theorem not_leadsOn_of_locate :
    Store.locate [] "file:///etc/passwd" = .ok "/etc/passwd".toList ∧
    ¬ Location.LeadsOn [] "/etc/passwd".toList := by
  refine ⟨rfl, ?_⟩
  rintro ⟨_ | ⟨name, names⟩, h⟩
  · exact absurd h (by decide)
  · cases (List.cons.inj h).1

end Sharing

end Interchange.Storage
