import Interchange.Lines
import Interchange.Proofs.Storage.Store
import Interchange.Proofs.Text.Lines
import Interchange.Proofs.Text.Utf8

/-!
# What a line reader has left

A reader has left the bytes in its buffer and those that its source still gives, however these come
in chunks.  The next line is cut off what is left, so reading goes on through the lines of what was
there at first, and there are no more lines than bytes.
-/

namespace Interchange

open Storage (Store FileName)

namespace Storage.Store

/-- What is fetched is the start of what is left of a source, and it is empty only if nothing is
left. -/
theorem exists_fetch {s : Store} {source : Source} {rest : List UInt8}
    (h : s.readAll source = .ok rest) : ∃ next source' rest', s.fetch source = .ok (next, source') ∧
      s.readAll source' = .ok rest' ∧ next ++ rest' = rest ∧ (next = [] → rest = []) := by
  cases source with
  | bytes =>
    cases h
    exact ⟨rest, .bytes [], [], rfl, rfl, List.append_nil rest, id⟩
  | file place offset =>
    unfold readAll at h
    unfold fetch
    dsimp only at h ⊢
    split at h
    · next hmedium =>
      cases h
      exact ⟨[], .file place offset, [], rfl, by simp [readAll, hmedium], rfl, fun _ ↦ rfl⟩
    · next hmedium =>
      split at h
      · next bytes hnode =>
        cases h
        let next := (bytes.drop offset).take chunk
        refine ⟨next, .file place (offset + next.length), bytes.drop (offset + next.length), rfl,
          by simp [readAll, hmedium, hnode], ?_, ?_⟩
        · rw [← List.drop_drop]
          exact List.prefix_iff_eq_append.mp (List.take_prefix _ _)
        · intro hnext
          exact (List.take_eq_nil_iff.mp hnext).resolve_left (by decide)
      · cases h

theorem fetch_file {s : Store} {place : List FileName} {offset : Nat} {rest : List UInt8}
    (h : s.readAll (.file place offset) = .ok rest) : s.fetch (.file place offset) =
      .ok (rest.take chunk, .file place (offset + (rest.take chunk).length)) := by
  obtain ⟨medium, area⟩ := s
  cases medium with
  | memory objects =>
    cases h
    rfl
  | files root tree =>
    obtain ⟨all, hnode, rfl⟩ := readAll_file_eq_ok.mp h
    unfold fetch
    dsimp only
    rw [hnode]

theorem exists_readAll {s : Store} {source : Source} {fetched : List UInt8 × Source}
    (h : s.fetch source = .ok fetched) : ∃ rest, s.readAll source = .ok rest := by
  obtain ⟨medium, area⟩ := s
  cases source with
  | bytes rest => exact ⟨rest, rfl⟩
  | file place offset =>
    cases medium with
    | memory objects => exact ⟨[], rfl⟩
    | files root tree =>
      unfold fetch at h
      dsimp only at h
      split at h
      · next all hnode => exact ⟨_, readAll_file_eq_ok.mpr ⟨all, hnode, rfl⟩⟩
      · cases h

/-- What is fetched is settled by what can be read. -/
theorem Keeps.fetch {s s' : Store} (h : s.Keeps s') {source : Source}
    {fetched : List UInt8 × Source} (hfetch : s.fetch source = .ok fetched) :
    s'.fetch source = .ok fetched := by
  cases source with
  | bytes rest => exact hfetch
  | file place offset =>
    obtain ⟨rest, hrest⟩ := exists_readAll hfetch
    rw [fetch_file (h _ _ hrest), ← fetch_file hrest]
    exact hfetch

end Storage.Store

namespace LineReader

variable {s : Store} {r : LineReader} {content : List UInt8}

/-- A reader has these bytes left. -/
def Holds (s : Store) (r : LineReader) (content : List UInt8) : Prop :=
  ∃ rest, s.readAll r.source = .ok rest ∧ r.buffer ++ rest = content

/-- The first line of bytes, without what ends it, and the bytes after it. -/
def cut (content : List UInt8) : Option (List UInt8 × List UInt8) :=
  match content.dropWhile (· ≠ lineFeed) with
  | _ :: rest => some (chomp (content.takeWhile (· ≠ lineFeed)), rest)
  | [] => if content = [] then none else some (content, [])

theorem forall_ne_lineFeed {line : List UInt8} (h : lineFeed ∉ line) :
    ∀ b ∈ line, decide (b ≠ lineFeed) = true := by
  intro b hb
  rw [decide_eq_true_eq]
  rintro rfl
  exact h hb

theorem dropWhile_of_notMem {line : List UInt8} (h : lineFeed ∉ line) :
    line.dropWhile (· ≠ lineFeed) = [] := by
  have hdrop : (line ++ []).dropWhile (· ≠ lineFeed) = [] :=
    List.dropWhile_append_of_pos (forall_ne_lineFeed h)
  rwa [List.append_nil] at hdrop

/-- A line that a line feed ends is cut off there. -/
theorem cut_append {line : List UInt8} (h : lineFeed ∉ line) (rest : List UInt8) :
    cut (line ++ lineFeed :: rest) = some (chomp line, rest) := by
  have hline := forall_ne_lineFeed h
  unfold cut
  rw [List.dropWhile_append_of_pos hline, List.takeWhile_append_of_pos hline]
  simp

/-- Bytes without a line feed are one line, if there are any. -/
theorem cut_of_notMem (h : lineFeed ∉ content) :
    cut content = if content = [] then none else some (content, []) := by
  unfold cut
  rw [dropWhile_of_notMem h]

theorem length_lt_of_cut {line rest : List UInt8} (h : cut content = some (line, rest)) :
    rest.length < content.length := by
  by_cases hmem : lineFeed ∈ content
  · obtain ⟨before, after, rfl, hbefore⟩ := List.eq_append_cons_of_mem hmem
    rw [cut_append hbefore] at h
    cases h
    simp only [List.length_append, List.length_cons]
    omega
  · rw [cut_of_notMem hmem] at h
    split at h
    · cases h
    · next hne =>
      cases h
      exact List.length_pos_iff.mpr hne

/-- What has gone into the buffer and what is still in the source are cut as one. -/
theorem lineBytes?_of_readAll {rest : List UInt8} {fuel : Nat}
    (hrest : s.readAll r.source = .ok rest) (hfuel : rest.length < fuel) :
    ∃ r', lineBytes? s fuel r = .ok ((cut (r.buffer ++ rest)).map (·.1), r') ∧
      r'.Holds s (((cut (r.buffer ++ rest)).map (·.2)).getD []) := by
  induction fuel generalizing r rest with
  | zero => cases hfuel
  | succ fuel ih =>
    obtain ⟨source, buffer⟩ := r
    unfold lineBytes?
    dsimp only at hrest ⊢
    by_cases hmem : lineFeed ∈ buffer
    · obtain ⟨before, after, rfl, hbefore⟩ := List.eq_append_cons_of_mem hmem
      have hline := forall_ne_lineFeed hbefore
      rw [List.dropWhile_append_of_pos hline, List.takeWhile_append_of_pos hline,
        List.append_assoc, List.cons_append, cut_append hbefore,
        List.dropWhile_cons_of_neg (by simp), List.takeWhile_cons_of_neg (by simp), List.append_nil]
      exact ⟨⟨source, after⟩, rfl, rest, hrest, rfl⟩
    · obtain ⟨next, source', rest', hfetch, hrest', rfl, hempty⟩ := Store.exists_fetch hrest
      rw [dropWhile_of_notMem hmem]
      dsimp only
      rw [hfetch]
      by_cases hnext : next = []
      · have hover : rest' = [] := by simpa [hnext] using hempty hnext
        subst hnext hover
        rw [List.append_nil, List.append_nil, cut_of_notMem hmem]
        refine ⟨⟨source', []⟩, ?_, [], hrest', ?_⟩
        · show Except.ok (if buffer = [] then none else some buffer, LineReader.mk source' []) = _
          split <;> rfl
        · split <;> rfl
      · have hlength : 0 < next.length := List.length_pos_iff.mpr hnext
        rw [List.length_append] at hfuel
        have hothers : ∃ r', lineBytes? s fuel ⟨source', buffer ++ next⟩ = _ ∧ _ :=
          ih hrest' (by omega)
        show ∃ r', (if next = [] then _ else lineBytes? s fuel ⟨source', buffer ++ next⟩) = _ ∧ _
        rw [if_neg hnext, ← List.append_assoc]
        exact hothers

/-! ## Lines of text -/

theorem size_of_holds (h : r.Holds s content) : r.size s = .ok content.length := by
  obtain ⟨rest, hrest, rfl⟩ := h
  rw [size, hrest, List.length_append]
  rfl

theorem exists_holds {n : Nat} (h : r.size s = .ok n) : ∃ content, r.Holds s content := by
  cases hrest : s.readAll r.source with
  | error e =>
    rw [size, hrest] at h
    cases h
  | ok rest => exact ⟨r.buffer ++ rest, rest, hrest, rfl⟩

/-- The next line is the first one, if that is text and not blank; blank lines are passed over. -/
theorem next?_succ (h : r.Holds s content) (fuel : Nat) :
    ∃ r', r'.Holds s (((cut content).map (·.2)).getD []) ∧
      next? s (fuel + 1) r = match cut content with
        | none => .ok (none, r')
        | some (line, _) => (Text.read line).mapError (fun b ↦ .io b.message) >>= fun text ↦
          if Text.allBlank text.toList then next? s fuel r' else .ok (some text.toList, r') := by
  obtain ⟨rest, hrest, rfl⟩ := h
  obtain ⟨r', hline, hr'⟩ := lineBytes?_of_readAll hrest (Nat.lt_add_of_pos_right Nat.two_pos)
  refine ⟨r', hr', ?_⟩
  rw [next?, hrest]
  show (lineBytes? s (rest.length + 2) r >>= _) = _
  rw [hline]
  cases cut (r.buffer ++ rest) <;> rfl

/-- A reader that gives a line has less left than before. -/
theorem holds_of_next? {fuel : Nat} {line : List Char} {r' : LineReader} (h : r.Holds s content)
    (hnext : next? s fuel r = .ok (some line, r')) :
    ∃ rest, r'.Holds s rest ∧ rest.length < content.length := by
  induction fuel generalizing r content with
  | zero => cases hnext
  | succ fuel ih =>
    obtain ⟨after, hafter, hrun⟩ := next?_succ h fuel
    rw [hrun] at hnext
    rcases hcut : cut content with _ | ⟨bytes, rest⟩
    · rw [hcut] at hnext
      cases hnext
    · rw [hcut] at hnext hafter
      have hshorter := length_lt_of_cut hcut
      dsimp only at hnext
      cases htext : Text.read bytes with
      | error b =>
        rw [htext] at hnext
        cases hnext
      | ok text =>
        rw [htext] at hnext
        change (if _ then _ else _) = _ at hnext
        split at hnext
        · obtain ⟨last, hlast, hlt⟩ := ih hafter hnext
          exact ⟨last, hlast, Nat.lt_trans hlt hshorter⟩
        · cases hnext
          exact ⟨rest, hafter, hshorter⟩

theorem nextLine?_eq (h : r.Holds s content) :
    nextLine? s r = next? s (content.length + 1) r := by
  rw [nextLine?, size_of_holds h]
  rfl

theorem chomp_bytes (line : List Char) :
    chomp (Text.bytes (String.ofList line)) = Text.bytes (String.ofList (Text.chomp line)) := by
  have hlast : (Text.bytes (String.ofList line)).getLast? = some carriageReturn ↔
      line.getLast? = some '\r' := Text.getLast?_bytes_eq_iff (c := '\r') (by decide)
  unfold chomp Text.chomp
  by_cases h : line.getLast? = some '\r'
  · rw [if_pos (hlast.mpr h), if_pos h]
    obtain ⟨line, rfl⟩ := List.getLast?_eq_some_iff.mp h
    rw [List.dropLast_concat, Text.bytes_append]
    exact List.dropLast_concat
  · rw [if_neg (mt hlast.mp h), if_neg h]

theorem lineFeed_mem_bytes_iff {cs : List Char} :
    lineFeed ∈ Text.bytes (String.ofList cs) ↔ '\n' ∈ cs :=
  Text.mem_bytes_iff (c := '\n') (by decide)

/-- The first line of a text is cut off its bytes. -/
theorem cut_text_append {line : List Char} (h : '\n' ∉ line) (rest : List Char) :
    cut (Text.bytes (String.ofList (line ++ '\n' :: rest))) =
      some (Text.bytes (String.ofList (Text.chomp line)), Text.bytes (String.ofList rest)) := by
  have hcons : Text.bytes (String.ofList ('\n' :: rest)) =
      lineFeed :: Text.bytes (String.ofList rest) := Text.bytes_append ['\n'] rest
  rw [Text.bytes_append, hcons, cut_append (mt lineFeed_mem_bytes_iff.mp h), chomp_bytes]

/-- A text without a line feed is one line, if there is any of it. -/
theorem cut_text_of_notMem {cs : List Char} (h : '\n' ∉ cs) (hne : cs ≠ []) :
    cut (Text.bytes (String.ofList cs)) = some (Text.bytes (String.ofList cs), []) := by
  have hbytes : Text.bytes (String.ofList cs) ≠ [] := by
    obtain ⟨c, hc⟩ := List.exists_mem_of_ne_nil cs hne
    rw [Text.bytes_ofList, Ne, List.flatMap_eq_nil_iff]
    exact fun hall ↦ String.utf8EncodeChar_ne_nil (hall c hc)
  rw [cut_of_notMem (mt lineFeed_mem_bytes_iff.mp h), if_neg hbytes]

/-- Passing over blank lines leads to the first line of a text that shows something, and the lines
after it are left. -/
theorem next?_text {cs : List Char} {fuel : Nat} (h : r.Holds s (Text.bytes (String.ofList cs)))
    (hfuel : (Text.bytes (String.ofList cs)).length < fuel) :
    ∃ r' rest, r'.Holds s (Text.bytes (String.ofList rest)) ∧
      Text.shownLines rest = (Text.shownLines cs).tail ∧
      next? s fuel r = .ok ((Text.shownLines cs).head?, r') := by
  induction fuel generalizing r cs with
  | zero => cases hfuel
  | succ fuel ih =>
    obtain ⟨after, hafter, hrun⟩ := next?_succ h fuel
    by_cases hmem : '\n' ∈ cs
    · obtain ⟨line, rest, rfl, hline⟩ := List.eq_append_cons_of_mem hmem
      have hcut := cut_text_append hline rest
      have hshorter := Nat.lt_of_lt_of_le (length_lt_of_cut hcut) (Nat.le_of_lt_succ hfuel)
      rw [hcut] at hafter hrun
      dsimp only at hrun
      rw [hrun, Text.read_bytes, Text.shownLines_append hline]
      show ∃ r' rest, _ ∧ _ ∧ (if Text.allBlank (String.ofList _).toList then _ else _) = _
      rw [String.toList_ofList]
      cases Text.allBlank (Text.chomp line) with
      | true => exact ih hafter hshorter
      | false => exact ⟨after, rest, hafter, rfl, rfl⟩
    · by_cases hne : cs = []
      · subst hne
        exact ⟨after, [], hafter, rfl, hrun⟩
      · have hcut := cut_text_of_notMem hmem hne
        have hshorter := Nat.lt_of_lt_of_le (length_lt_of_cut hcut) (Nat.le_of_lt_succ hfuel)
        rw [hcut] at hafter hrun
        dsimp only at hrun
        rw [hrun, Text.read_bytes, Text.shownLines_of_notMem hmem]
        show ∃ r' rest, _ ∧ _ ∧ (if Text.allBlank (String.ofList _).toList then _ else _) = _
        rw [String.toList_ofList]
        have hafter : after.Holds s (Text.bytes (String.ofList [])) := hafter
        cases Text.allBlank cs with
        | true => exact ih hafter hshorter
        | false => exact ⟨after, [], hafter, rfl, rfl⟩

/-- The next line of a text is the first one that is not blank. -/
theorem nextLine?_text {cs : List Char} (h : r.Holds s (Text.bytes (String.ofList cs))) :
    ∃ r' rest, r'.Holds s (Text.bytes (String.ofList rest)) ∧
      Text.shownLines rest = (Text.shownLines cs).tail ∧
      nextLine? s r = .ok ((Text.shownLines cs).head?, r') := by
  rw [nextLine?_eq h]
  exact next?_text h (Nat.lt_succ_self _)

/-- A reader that gives a line has fewer bytes left than before. -/
theorem size_of_nextLine? {line : List Char} {r' : LineReader}
    (h : nextLine? s r = .ok (some line, r')) :
    ∃ n n', r.size s = .ok n ∧ r'.size s = .ok n' ∧ n' < n := by
  cases hsize : r.size s with
  | error e =>
    rw [nextLine?, hsize] at h
    cases h
  | ok n =>
    obtain ⟨content, hr⟩ := exists_holds hsize
    rw [nextLine?_eq hr] at h
    obtain ⟨rest, hr', hlt⟩ := holds_of_next? hr h
    cases hsize.symm.trans (size_of_holds hr)
    exact ⟨_, _, rfl, size_of_holds hr', hlt⟩

/-! ## Lines while objects are written -/

section

variable {s' : Store}

theorem lineBytes?_of_keeps (hs : s.Keeps s') {fuel : Nat}
    {outcome : Option (List UInt8) × LineReader} (h : lineBytes? s fuel r = .ok outcome) :
    lineBytes? s' fuel r = .ok outcome := by
  induction fuel generalizing r with
  | zero => exact h
  | succ fuel ih =>
    rw [lineBytes?] at h ⊢
    split
    · next heq =>
      rw [heq] at h
      exact h
    · next heq =>
      rw [heq] at h
      obtain ⟨⟨next, source⟩, hfetch, h⟩ := bind_eq_ok.mp h
      rw [hs.fetch hfetch, ok_bind]
      dsimp only at h ⊢
      split
      · next hnext =>
        rw [if_pos hnext] at h
        exact h
      · next hnext =>
        rw [if_neg hnext] at h
        exact ih h

theorem next?_of_keeps (hs : s.Keeps s') {fuel : Nat} {outcome : Option (List Char) × LineReader}
    (h : next? s fuel r = .ok outcome) : next? s' fuel r = .ok outcome := by
  induction fuel generalizing r with
  | zero => exact h
  | succ fuel ih =>
    rw [next?] at h ⊢
    obtain ⟨rest, hrest, h⟩ := bind_eq_ok.mp h
    obtain ⟨⟨line, r'⟩, hline, h⟩ := bind_eq_ok.mp h
    rw [hs _ _ hrest, ok_bind]
    dsimp only
    rw [lineBytes?_of_keeps hs hline, ok_bind]
    cases line with
    | none => exact h
    | some bytes =>
      obtain ⟨text, htext, h⟩ := bind_eq_ok.mp h
      dsimp only
      rw [htext, ok_bind]
      split
      · next hblank =>
        rw [if_pos hblank] at h
        exact ih h
      · next hblank =>
        rw [if_neg hblank] at h
        exact h

/-- A line that is read is read as well where everything that can be read is the same. -/
theorem nextLine?_of_keeps (hs : s.Keeps s') {outcome : Option (List Char) × LineReader}
    (h : nextLine? s r = .ok outcome) : nextLine? s' r = .ok outcome := by
  obtain ⟨n, hsize, hnext⟩ := bind_eq_ok.mp h
  obtain ⟨rest, hrest, hn⟩ := bind_eq_ok.mp hsize
  rw [nextLine?, size, hs _ _ hrest]
  cases hn
  exact next?_of_keeps hs hnext

end

end LineReader

end Interchange
