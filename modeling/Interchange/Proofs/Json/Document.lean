import Interchange.Json.Basic
import Interchange.Proofs.Json.Numeral
import Interchange.Text.Blank
import Mathlib.Data.Option.Basic
import Mathlib.Tactic.SplitIfs

/-!
# Reading what was written

The text of every JSON value is a document: it follows the grammar, and what is read is the value as
it was written, with the numerals of its numbers and the members of its objects in their order.

Each value is read back from its text wherever no character follows that would carry on a numeral.
The fuel of the reader bounds how often it goes on to an item or into a value, and both take a
character of the text.
-/

namespace Interchange

/-- Induction over JSON values, with a hypothesis for each item and each member. -/
@[elab_as_elim, induction_eliminator]
theorem Json.induction {motive : Json → Prop} (null : motive .null)
    (bool : ∀ b, motive (.bool b)) (integer : ∀ i, motive (.integer i))
    (float : ∀ x, motive (.float x)) (string : ∀ s, motive (.string s))
    (array : ∀ items, (∀ j ∈ items, motive j) → motive (.array items))
    (object : ∀ members, (∀ m ∈ members, motive m.2) → motive (.object members)) (j : Json) :
    motive j :=
  @Json.rec motive (fun js ↦ ∀ j ∈ js, motive j) (fun ms ↦ ∀ m ∈ ms, motive m.2)
    (fun m ↦ motive m.2) null bool integer float string array object
    (fun _ h ↦ nomatch h) (fun _ _ h hs ↦ List.forall_mem_cons.mpr ⟨h, hs⟩)
    (fun _ h ↦ nomatch h) (fun _ _ h hs ↦ List.forall_mem_cons.mpr ⟨h, hs⟩) (fun _ _ h ↦ h) j

namespace Json

open Document

/-! ## Strings -/

/-- Controls without a letter of their own are written by the digits of their code points. -/
theorem hex4?_control {n : Nat} (h : n < 0x20) :
    ∃ a b c d, Text.hexPadded 4 n = [a, b, c, d] ∧ hex4? a b c d = some n := by
  have hall : ∀ n < 0x20, Text.hexPadded 4 n =
      ['0', '0', Nat.digitChar (n / 16), Nat.digitChar (n % 16)] ∧
      hex4? '0' '0' (Nat.digitChar (n / 16)) (Nat.digitChar (n % 16)) = some n := by
    decide
  exact ⟨_, _, _, _, hall n h⟩

variable {rest : List Char}

/-- The pieces of a string that starts with this one. -/
def startingWith (piece : Piece) (tail : Option (List Piece × List Char)) :
    Option (List Piece × List Char) :=
  tail.map fun p ↦ (piece :: p.1, p.2)

theorem pieces?_control {n : Nat} (h : n < 0x20) :
    pieces? ('\\' :: 'u' :: Text.hexPadded 4 n ++ rest) =
      startingWith (.char (.ofNat n)) (pieces? rest) := by
  obtain ⟨a, b, c, d, hdigits, hvalue⟩ := hex4?_control h
  have hunit : ¬(0xD800 ≤ n ∧ n < 0xE000) := by omega
  rw [hdigits]
  show pieces? ('\\' :: 'u' :: a :: b :: c :: d :: rest) = _
  rw [pieces?, hvalue]
  simp only [Option.bind_eq_bind, Option.bind_some, if_neg hunit]
  cases pieces? rest <;> rfl

theorem pieces?_escaped {c c' : Char} (hc : c ≠ 'u') (h : escaped? c = some c') :
    pieces? ('\\' :: c :: rest) = startingWith (.char c') (pieces? rest) := by
  rw [pieces?, h]
  · cases pieces? rest <;> rfl
  · intro a b c d rest
    simp [hc]

theorem pieces?_plain {c : Char} (hquote : c ≠ '"') (hslash : c ≠ '\\') (h : 0x20 ≤ c.toNat) :
    pieces? (c :: rest) = startingWith (.char c) (pieces? rest) := by
  rw [pieces?]
  · have hguard : (guard (0x20 ≤ c.toNat) : Option Unit) = some () :=
      (Option.guard_eq_some' ()).mpr h
    rw [hguard]
    cases pieces? rest <;> rfl
  · exact hquote
  · exact fun _ _ _ _ _ h _ ↦ hslash h
  · exact fun _ _ h _ ↦ hslash h

/-- A character as it is written is read as a piece. -/
theorem pieces?_escape (c : Char) (rest : List Char) :
    pieces? (escape c ++ rest) = startingWith (.char c) (pieces? rest) := by
  unfold escape
  split_ifs with hquote hslash hback hfeed hline hreturn htab hcontrol
  · subst hquote
    exact pieces?_escaped (by decide) rfl
  · subst hslash
    exact pieces?_escaped (by decide) rfl
  · subst hback
    exact pieces?_escaped (by decide) rfl
  · subst hfeed
    exact pieces?_escaped (by decide) rfl
  · subst hline
    exact pieces?_escaped (by decide) rfl
  · subst hreturn
    exact pieces?_escaped (by decide) rfl
  · subst htab
    exact pieces?_escaped (by decide) rfl
  · have hread : pieces? ('\\' :: 'u' :: Text.hexPadded 4 c.toNat ++ rest) = _ :=
      pieces?_control hcontrol
    rwa [Char.ofNat_toNat] at hread
  · exact pieces?_plain hquote hslash (Nat.not_lt.mp hcontrol)

theorem pieces?_flatMap (cs rest : List Char) :
    pieces? (cs.flatMap escape ++ '"' :: rest) = some (cs.map .char, rest) := by
  induction cs with
  | nil => rfl
  | cons c cs ih =>
    rw [List.flatMap_cons, List.append_assoc, pieces?_escape, ih]
    rfl

theorem assemble?_map (cs : List Char) : assemble? (cs.map .char) = some cs := by
  induction cs with
  | nil => rfl
  | cons c cs ih =>
    rw [List.map_cons, assemble?, ih]
    rfl

/-- A string is read back from what stands after its opening quote. -/
theorem string?_quoted (s : String) (rest : List Char) :
    string? (s.toList.flatMap escape ++ '"' :: rest) = some (some s, rest) := by
  rw [string?, pieces?_flatMap, Option.map_some]
  dsimp only
  rw [assemble?_map, Option.map_some, String.ofList_toList]

/-! ## Documents of values -/

mutual

/-- The document that the text of a value writes. -/
def document : Json → Document
  | null => .null
  | bool b => .bool b
  | integer i => .number (.ofInt i)
  | float x => if x.isFinite then .number (.ofFloat x) else .null
  | string s => .string (some s)
  | array items => .array (itemDocuments items)
  | object members => .object (memberDocuments members)

def itemDocuments : List Json → List Document
  | [] => []
  | j :: js => document j :: itemDocuments js

def memberDocuments : List (String × Json) → List (Option String × Document)
  | [] => []
  | (name, j) :: ms => (some name, document j) :: memberDocuments ms

end

/-- A character that can start a value: it is not blank and does not close an array. -/
def Starts (c : Char) : Prop := Text.isBlank c = false ∧ c ≠ ']'

instance (c : Char) : Decidable (Starts c) := inferInstanceAs (Decidable (_ ∧ _))

theorem starts_of_numeral {c : Char} (h : c = '-' ∨ c.isDigit = true) : Starts c := by
  rcases h with rfl | h
  · decide
  · refine ⟨Text.isBlank_of_isDigit h, ?_⟩
    rintro rfl
    exact absurd h (by decide)

/-- White space of JSON is blank. -/
theorem isSpace_of_starts {c : Char} (h : Starts c) : isSpace c = false := by
  cases hspace : isSpace c with
  | false => rfl
  | true =>
    simp only [isSpace, Bool.or_eq_true, decide_eq_true_eq] at hspace
    rcases hspace with ((rfl | rfl) | rfl) | rfl <;> exact absurd h.1 (by decide)

theorem exists_text_numeral {n : Numeral} (h : n.Proper) :
    ∃ c cs, n.text = c :: cs ∧ Starts c := by
  obtain ⟨c, cs, htext, hc⟩ := h.exists_text
  exact ⟨c, cs, htext, starts_of_numeral hc⟩

/-- The text of a value starts with such a character. -/
theorem exists_text (j : Json) : ∃ c cs, j.text = c :: cs ∧ Starts c := by
  cases j with
  | null => exact ⟨'n', _, rfl, by decide⟩
  | bool b => cases b <;> exact ⟨_, _, rfl, by decide⟩
  | integer i => exact exists_text_numeral (Numeral.proper_ofInt i)
  | float x =>
    rw [text]
    split
    · exact exists_text_numeral (Numeral.proper_ofFloat x)
    · exact ⟨'n', _, rfl, by decide⟩
  | string s => exact ⟨'"', _, rfl, by decide⟩
  | array items => exact ⟨'[', _, rfl, by decide⟩
  | object members => exact ⟨'\x7b', _, rfl, by decide⟩

theorem skipSpace_of_starts {c : Char} (h : Starts c) (cs : List Char) :
    skipSpace (c :: cs) = c :: cs :=
  List.dropWhile_cons_of_neg (by simp [isSpace_of_starts h])

/-- A value is read back from its text, with so much fuel for each character and where its text can
end. -/
def IsRead (j : Json) : Prop :=
  ∀ fuel rest, 2 * j.text.length ≤ fuel → ClosesNumeral rest →
    value? fuel (j.text ++ rest) = some (j.document, rest)

/-- A numeral is read as a number where a value stands. -/
theorem value?_numeral {n : Numeral} (h : n.Proper) (fuel : Nat) (hrest : ClosesNumeral rest) :
    value? (fuel + 1) (n.text ++ rest) = some (.number n, rest) := by
  obtain ⟨c, cs, htext, hc⟩ := h.exists_text
  have hskip : skipSpace (n.text ++ rest) = n.text ++ rest := by
    rw [htext]
    exact skipSpace_of_starts (starts_of_numeral hc) _
  have hnumeral := h.numeral?_text hrest
  rw [value?, hskip]
  rw [htext, List.cons_append] at hnumeral ⊢
  -- no other value starts like a numeral
  split
  case h_7 =>
    rw [hnumeral]
    rfl
  all_goals
    next heq =>
      cases heq
      exact absurd hc (by decide)

/-! ## Items and members -/

theorem itemTexts_cons_cons (j j' : Json) (js : List Json) :
    itemTexts (j :: j' :: js) = j.text ++ ',' :: itemTexts (j' :: js) := rfl

theorem memberTexts_singleton (name : String) (j : Json) :
    memberTexts [(name, j)] = quote name ++ ':' :: j.text := rfl

theorem memberTexts_cons_cons (name : String) (j : Json) (m : String × Json)
    (ms : List (String × Json)) : memberTexts ((name, j) :: m :: ms) =
      quote name ++ ':' :: j.text ++ ',' :: memberTexts (m :: ms) := rfl

theorem items?_itemTexts {items : List Json} (hne : items ≠ []) (hread : ∀ j ∈ items, IsRead j)
    {fuel : Nat} (hfuel : 2 * (itemTexts items).length < fuel) (rest : List Char) :
    items? fuel (itemTexts items ++ ']' :: rest) = some (itemDocuments items, rest) := by
  induction items generalizing fuel with
  | nil => exact absurd rfl hne
  | cons j js ih =>
    obtain ⟨hj, hjs⟩ := List.forall_mem_cons.mp hread
    cases fuel with
    | zero => cases hfuel
    | succ fuel =>
      cases js with
      | nil =>
        rw [itemTexts] at hfuel ⊢
        rw [items?, hj fuel (']' :: rest) (by omega) (closesNumeral_cons (by decide) rest)]
        rfl
      | cons j' js =>
        rw [itemTexts_cons_cons, List.length_append, List.length_cons] at hfuel
        have hothers : items? fuel (itemTexts (j' :: js) ++ ']' :: rest) = _ :=
          ih (List.cons_ne_nil j' js) hjs (by omega)
        rw [itemTexts_cons_cons, List.append_assoc, List.cons_append, items?,
          hj fuel _ (by omega) (closesNumeral_cons (by decide) _)]
        show ((items? fuel (itemTexts (j' :: js) ++ ']' :: rest)).bind _) = _
        rw [hothers]
        rfl

/-- What is left of members after the name and the colon of the first. -/
theorem members?_quote (fuel : Nat) (name : String) (cs : List Char) :
    members? (fuel + 1) (quote name ++ ':' :: cs) = (do
      let (d, rest) ← value? fuel cs
      match skipSpace rest with
      | ',' :: rest => do
        let (ms, rest) ← members? fuel rest
        return ((some name, d) :: ms, rest)
      | '\x7d' :: rest => some ([(some name, d)], rest)
      | _ => none) := by
  have hname : string? (name.toList.flatMap escape ++ (['"'] ++ ':' :: cs)) = _ :=
    string?_quoted name (':' :: cs)
  rw [quote, List.append_assoc, members?]
  show ((string? (name.toList.flatMap escape ++ (['"'] ++ ':' :: cs))).bind _) = _
  rw [hname]
  rfl

theorem members?_memberTexts {members : List (String × Json)} (hne : members ≠ [])
    (hread : ∀ m ∈ members, IsRead m.2) {fuel : Nat}
    (hfuel : 2 * (memberTexts members).length < fuel) (rest : List Char) :
    members? fuel (memberTexts members ++ '\x7d' :: rest) =
      some (memberDocuments members, rest) := by
  induction members generalizing fuel with
  | nil => exact absurd rfl hne
  | cons m ms ih =>
    obtain ⟨name, j⟩ := m
    obtain ⟨hj, hms⟩ : IsRead j ∧ ∀ m ∈ ms, IsRead m.2 := List.forall_mem_cons.mp hread
    cases fuel with
    | zero => cases hfuel
    | succ fuel =>
      cases ms with
      | nil =>
        rw [memberTexts_singleton, List.length_append, List.length_cons] at hfuel
        rw [memberTexts_singleton, List.append_assoc, List.cons_append, members?_quote,
          hj fuel _ (by omega) (closesNumeral_cons (by decide) rest)]
        rfl
      | cons m' ms =>
        rw [memberTexts_cons_cons] at hfuel
        simp only [List.length_append, List.length_cons] at hfuel
        have hothers : members? fuel (memberTexts (m' :: ms) ++ '\x7d' :: rest) = _ :=
          ih (List.cons_ne_nil m' ms) hms (by omega)
        rw [memberTexts_cons_cons]
        simp only [List.append_assoc, List.cons_append]
        rw [members?_quote, hj fuel _ (by omega) (closesNumeral_cons (by decide) _)]
        show ((members? fuel (memberTexts (m' :: ms) ++ '\x7d' :: rest)).bind _) = _
        rw [hothers]
        rfl

/-! ## Values -/

theorem exists_itemTexts {items : List Json} (hne : items ≠ []) (rest : List Char) :
    ∃ c cs, itemTexts items ++ rest = c :: cs ∧ Starts c := by
  obtain ⟨j, js, rfl⟩ := List.exists_cons_of_ne_nil hne
  obtain ⟨c, cs, htext, hc⟩ := exists_text j
  cases js with
  | nil => exact ⟨c, _, by rw [itemTexts, htext]; rfl, hc⟩
  | cons j' js => exact ⟨c, _, by rw [itemTexts_cons_cons, htext]; rfl, hc⟩

theorem exists_memberTexts {members : List (String × Json)} (hne : members ≠ []) :
    ∃ cs, memberTexts members = '"' :: cs := by
  obtain ⟨⟨name, j⟩, ms, rfl⟩ := List.exists_cons_of_ne_nil hne
  cases ms with
  | nil => exact ⟨_, rfl⟩
  | cons m ms => exact ⟨_, rfl⟩

theorem value?_bracket {c : Char} (hc : Starts c) (fuel : Nat) (cs : List Char) :
    value? (fuel + 1) ('[' :: c :: cs) =
      (items? fuel (c :: cs)).map fun p ↦ (.array p.1, p.2) := by
  rw [value?, skipSpace_of_starts (by decide)]
  simp only [skipSpace_of_starts hc]
  split
  · next heq =>
    cases heq
    exact absurd rfl hc.2
  · rfl

theorem value?_brace (fuel : Nat) (cs : List Char) :
    value? (fuel + 1) ('\x7b' :: '"' :: cs) =
      (members? fuel ('"' :: cs)).map fun p ↦ (.object p.1, p.2) := by
  have hquote : Starts '"' := by decide
  rw [value?, skipSpace_of_starts (by decide)]
  simp only [skipSpace_of_starts hquote]
  rfl

theorem isRead_array {items : List Json} (hread : ∀ j ∈ items, IsRead j) :
    IsRead (.array items) := by
  intro fuel rest hfuel hrest
  have htext : (array items).text ++ rest = '[' :: (itemTexts items ++ ']' :: rest) := by
    simp [text]
  have hlength : (array items).text.length = (itemTexts items).length + 2 := by simp [text]
  rw [htext]
  cases fuel with
  | zero => omega
  | succ fuel =>
    by_cases hne : items = []
    · subst hne
      rfl
    · obtain ⟨c, cs, hstart, hc⟩ := exists_itemTexts hne (']' :: rest)
      have hitems : items? fuel (itemTexts items ++ ']' :: rest) = _ :=
        items?_itemTexts hne hread (by omega) rest
      rw [hstart] at hitems ⊢
      rw [value?_bracket hc, hitems]
      rfl

theorem isRead_object {members : List (String × Json)} (hread : ∀ m ∈ members, IsRead m.2) :
    IsRead (.object members) := by
  intro fuel rest hfuel hrest
  have htext : (object members).text ++ rest =
      '\x7b' :: (memberTexts members ++ '\x7d' :: rest) := by
    simp [text]
  have hlength : (object members).text.length = (memberTexts members).length + 2 := by simp [text]
  rw [htext]
  cases fuel with
  | zero => omega
  | succ fuel =>
    by_cases hne : members = []
    · subst hne
      rfl
    · obtain ⟨cs, hstart⟩ := exists_memberTexts hne
      have hmembers : members? fuel (memberTexts members ++ '\x7d' :: rest) = _ :=
        members?_memberTexts hne hread (by omega) rest
      rw [hstart, List.cons_append] at hmembers ⊢
      rw [value?_brace, hmembers]
      rfl

theorem isRead_null : IsRead .null := by
  intro fuel rest hfuel hrest
  cases fuel with
  | zero => cases hfuel
  | succ fuel => rfl

theorem isRead_bool (b : Bool) : IsRead (.bool b) := by
  intro fuel rest hfuel hrest
  cases fuel with
  | zero => cases b <;> cases hfuel
  | succ fuel => cases b <;> rfl

theorem isRead_string (s : String) : IsRead (.string s) := by
  intro fuel rest hfuel hrest
  have htext : (string s).text ++ rest = '"' :: (s.toList.flatMap escape ++ '"' :: rest) := by
    simp [text, quote]
  cases fuel with
  | zero => cases hfuel
  | succ fuel =>
    rw [htext, value?, skipSpace_of_starts (by decide)]
    simp only [string?_quoted]
    rfl

/-- A number is read back where its text is that of its numeral. -/
theorem isRead_number {j : Json} {n : Numeral} (h : n.Proper) (htext : j.text = n.text)
    (hdocument : j.document = .number n) : IsRead j := by
  intro fuel rest hfuel hrest
  obtain ⟨c, cs, hn, -⟩ := h.exists_text
  cases fuel with
  | zero =>
    rw [htext, hn] at hfuel
    cases hfuel
  | succ fuel =>
    rw [htext, hdocument]
    exact value?_numeral h fuel hrest

/-- Every value is read back from its text as its document. -/
theorem isRead (j : Json) : IsRead j := by
  induction j with
  | null => exact isRead_null
  | bool b => exact isRead_bool b
  | integer i => exact isRead_number (Numeral.proper_ofInt i) rfl rfl
  | float x =>
    cases hx : x.isFinite with
    | true =>
      exact isRead_number (Numeral.proper_ofFloat x) (by simp [text, hx]) (by simp [document, hx])
    | false =>
      intro fuel rest hfuel hrest
      have htext : (float x).text = null.text := by simp [text, hx]
      have hdocument : (float x).document = null.document := by simp [document, hx]
      rw [htext] at hfuel ⊢
      rw [hdocument]
      exact isRead_null fuel rest hfuel hrest
  | string s => exact isRead_string s
  | array items ih => exact isRead_array ih
  | object members ih => exact isRead_object ih

/-- The text of a value is a document, and it is the value's. -/
theorem Document.ofText?_text (j : Json) : Document.ofText? j.text = some j.document := by
  have hread := isRead j (2 * j.text.length + 2) [] (by omega) closesNumeral_nil
  rw [List.append_nil] at hread
  rw [Document.ofText?, hread]
  rfl

end Json

end Interchange
