import Interchange.Proofs.Json.Document

/-!
# The text of values

No text that is written for a value has a control character in it: strings escape them, and no white
space stands between what is written.  So a text stands on one line, and it is not blank.
-/

namespace Interchange.Json

/-- Not one of the controls, line feed and carriage return among them. -/
def Shown (c : Char) : Prop := 0x20 ≤ c.toNat

instance (c : Char) : Decidable (Shown c) := inferInstanceAs (Decidable (_ ≤ _))

/-- A text whose characters are found not to be controls. -/
theorem shown_of_all {cs : List Char} (h : cs.all (fun c ↦ decide (Shown c)) = true) :
    ∀ c ∈ cs, Shown c := fun c hc ↦ of_decide_eq_true (List.all_eq_true.mp h c hc)

theorem shown_of_isDigit {c : Char} (h : c.isDigit = true) : Shown c := by
  have hrange := Text.toNat_of_isDigit h
  unfold Shown
  omega

theorem shown_of_mem_append {as bs : List Char} (has : ∀ c ∈ as, Shown c)
    (hbs : ∀ c ∈ bs, Shown c) : ∀ c ∈ as ++ bs, Shown c :=
  fun c hc ↦ (List.mem_append.mp hc).elim (has c) (hbs c)

theorem shown_of_mem_cons {a : Char} {bs : List Char} (ha : Shown a)
    (hbs : ∀ c ∈ bs, Shown c) : ∀ c ∈ a :: bs, Shown c := List.forall_mem_cons.mpr ⟨ha, hbs⟩

theorem Numeral.Proper.shown {n : Numeral} (h : n.Proper) : ∀ c ∈ n.text, Shown c := by
  rw [text_eq]
  refine shown_of_mem_append ?_ (shown_of_mem_append ?_ (shown_of_mem_append ?_ ?_))
  · cases n.negative <;> exact shown_of_all (by decide)
  · exact fun c hc ↦ shown_of_isDigit (h.isDigit_whole c hc)
  · unfold fractionText
    split
    · exact shown_of_all (by decide)
    · exact shown_of_mem_cons (by decide) fun c hc ↦ shown_of_isDigit (h.isDigit_fraction c hc)
  · rcases he : n.exponent with _ | ⟨negative, ds⟩
    · exact shown_of_all (by decide)
    · refine shown_of_mem_cons (by decide) (shown_of_mem_cons ?_ ?_)
      · cases negative <;> decide
      · exact fun c hc ↦ shown_of_isDigit (h.isDigit_exponent _ he c hc)

theorem shown_escape (c : Char) : ∀ d ∈ escape c, Shown d := by
  have hcontrol : ∀ n < 0x20,
      ('\\' :: 'u' :: Text.hexPadded 4 n).all (fun d ↦ decide (Shown d)) = true := by decide
  unfold escape
  split_ifs with hquote hslash hback hfeed hline hreturn htab hcode
  any_goals exact shown_of_all rfl
  · exact shown_of_all (hcontrol c.toNat hcode)
  · intro d hd
    cases List.mem_singleton.mp hd
    exact Nat.not_lt.mp hcode

theorem shown_quote (s : String) : ∀ c ∈ quote s, Shown c := by
  refine shown_of_mem_append (shown_of_mem_cons (by decide) ?_) (shown_of_all (by decide))
  intro c hc
  obtain ⟨d, -, hd⟩ := List.mem_flatMap.mp hc
  exact shown_escape d c hd

theorem shown_itemTexts {items : List Json} (h : ∀ j ∈ items, ∀ c ∈ j.text, Shown c) :
    ∀ c ∈ itemTexts items, Shown c := by
  induction items with
  | nil => exact shown_of_all rfl
  | cons j js ih =>
    obtain ⟨hj, hjs⟩ := List.forall_mem_cons.mp h
    cases js with
    | nil => exact hj
    | cons j' js => exact shown_of_mem_append hj (shown_of_mem_cons (by decide) (ih hjs))

theorem shown_memberTexts {members : List (String × Json)}
    (h : ∀ m ∈ members, ∀ c ∈ m.2.text, Shown c) : ∀ c ∈ memberTexts members, Shown c := by
  induction members with
  | nil => exact shown_of_all rfl
  | cons m ms ih =>
    obtain ⟨name, j⟩ := m
    obtain ⟨hj, hms⟩ := List.forall_mem_cons.mp h
    have hmember : ∀ c ∈ quote name ++ ':' :: j.text, Shown c :=
      shown_of_mem_append (shown_quote name) (shown_of_mem_cons (by decide) hj)
    cases ms with
    | nil => exact hmember
    | cons m' ms =>
      exact shown_of_mem_append hmember (shown_of_mem_cons (by decide) (ih hms))

/-- The text of a value has no controls. -/
theorem shown_text (j : Json) : ∀ c ∈ j.text, Shown c := by
  induction j with
  | null => exact shown_of_all (by decide)
  | bool b => cases b <;> exact shown_of_all (by decide)
  | integer i => exact (Numeral.proper_ofInt i).shown
  | float x =>
    rw [text]
    split
    · exact (Numeral.proper_ofFloat x).shown
    · exact shown_of_all (by decide)
  | string s => exact shown_quote s
  | array items ih =>
    exact shown_of_mem_append (shown_of_mem_cons (by decide) (shown_itemTexts ih))
      (shown_of_all (by decide))
  | object members ih =>
    exact shown_of_mem_append (shown_of_mem_cons (by decide) (shown_memberTexts ih))
      (shown_of_all (by decide))

/-- The text of a value is not blank. -/
theorem allBlank_text (j : Json) : Text.allBlank j.text = false := by
  obtain ⟨c, cs, htext, hc⟩ := exists_text j
  rw [htext, Text.allBlank, List.all_cons, hc.1]
  rfl

end Interchange.Json
