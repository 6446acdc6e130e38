import Interchange.Json.Document
import Interchange.Proofs.Number.Shortest

/-!
# Reading numerals

A numeral is read back from its text wherever nothing follows that would carry it on.  The numerals
that integers and floats are written as follow the grammar, and that of an integer reads as the
integer if 64 bits hold it.
-/

namespace Interchange.Json

open Document

/-! ## Digits -/

/-- Nothing that starts with a digit. -/
def ClosesDigits (rest : List Char) : Prop := ∀ c ∈ rest.head?, c.isDigit = false

theorem closesDigits_cons {c : Char} (h : c.isDigit = false) (cs : List Char) :
    ClosesDigits (c :: cs) := by
  rintro _ ⟨⟩
  exact h

/-- A numeral can end here: neither digits, nor a point, nor an exponent follow. -/
def ClosesNumeral (rest : List Char) : Prop :=
  ∀ c ∈ rest.head?, c.isDigit = false ∧ c ≠ '.' ∧ c ≠ 'e' ∧ c ≠ 'E'

theorem closesNumeral_nil : ClosesNumeral [] := by
  rintro c ⟨⟩

theorem closesNumeral_cons {c : Char} (h : c.isDigit = false ∧ c ≠ '.' ∧ c ≠ 'e' ∧ c ≠ 'E')
    (cs : List Char) : ClosesNumeral (c :: cs) := by
  rintro _ ⟨⟩
  exact h

theorem ClosesNumeral.closesDigits {rest : List Char} (h : ClosesNumeral rest) :
    ClosesDigits rest := fun c hc ↦ (h c hc).1

variable {ds rest : List Char}

theorem digits?_append (hne : ds ≠ []) (hds : ∀ c ∈ ds, c.isDigit = true)
    (hrest : ClosesDigits rest) : digits? (ds ++ rest) = some (ds, rest) := by
  have htake : (ds ++ rest).takeWhile Char.isDigit = ds := by
    rw [List.takeWhile_append_of_pos hds]
    cases rest with
    | nil => simp
    | cons c cs => rw [List.takeWhile_cons_of_neg (by simp [hrest c rfl]), List.append_nil]
  have hdrop : (ds ++ rest).dropWhile Char.isDigit = rest := by
    rw [List.dropWhile_append_of_pos hds]
    cases rest with
    | nil => rfl
    | cons c cs => rw [List.dropWhile_cons_of_neg (by simp [hrest c rfl])]
  unfold digits?
  rw [htake, hdrop]
  cases ds with
  | nil => exact absurd rfl hne
  | cons d ds => rfl

/-! ## The parts of a numeral -/

namespace Numeral

/-- The point and the digits after it. -/
def fractionText (ds : List Char) : List Char := if ds = [] then [] else '.' :: ds

def exponentText : Option (Bool × List Char) → List Char
  | none => []
  | some (negative, ds) => 'e' :: (if negative then '-' else '+') :: ds

theorem text_eq (n : Numeral) : n.text =
    (if n.negative then ['-'] else []) ++ (n.whole ++ (fractionText n.fraction ++
      exponentText n.exponent)) := by
  obtain ⟨negative, whole, fraction, exponent⟩ := n
  rcases exponent with _ | ⟨sign, ds⟩ <;>
    simp only [text, fractionText, exponentText, List.append_assoc]

/-- A numeral follows the grammar: there are whole digits, a zero stands alone, and an exponent has
digits. -/
structure Proper (n : Numeral) : Prop where
  whole_ne_nil : n.whole ≠ []
  isDigit_whole : ∀ c ∈ n.whole, c.isDigit = true
  eq_zero : n.whole.head? = some '0' → n.whole = ['0']
  isDigit_fraction : ∀ c ∈ n.fraction, c.isDigit = true
  exponent_ne_nil : ∀ e ∈ n.exponent, e.2 ≠ []
  isDigit_exponent : ∀ e ∈ n.exponent, ∀ c ∈ e.2, c.isDigit = true

theorem closes_exponentText {e : Option (Bool × List Char)} (hrest : ClosesNumeral rest) :
    ∀ c ∈ (exponentText e ++ rest).head?, c.isDigit = false ∧ c ≠ '.' := by
  rcases e with _ | ⟨sign, ds⟩
  · exact fun c hc ↦ ⟨(hrest c hc).1, (hrest c hc).2.1⟩
  · rintro c ⟨⟩
    decide

theorem closesDigits_fractionText {e : Option (Bool × List Char)} (ds : List Char)
    (hrest : ClosesNumeral rest) :
    ClosesDigits (fractionText ds ++ (exponentText e ++ rest)) := by
  unfold fractionText
  split
  · exact fun c hc ↦ (closes_exponentText hrest c hc).1
  · exact closesDigits_cons (by decide) _

theorem whole?_append (hne : ds ≠ []) (hds : ∀ c ∈ ds, c.isDigit = true)
    (hzero : ds.head? = some '0' → ds = ['0']) (hrest : ClosesDigits rest) :
    whole? (ds ++ rest) = some (ds, rest) := by
  unfold whole?
  rw [digits?_append hne hds hrest, Option.bind_eq_bind, Option.bind_some]
  dsimp only
  split
  · cases hzero rfl
  · rfl

theorem fraction?_append (hds : ∀ c ∈ ds, c.isDigit = true)
    (hrest : ∀ c ∈ rest.head?, c.isDigit = false ∧ c ≠ '.') :
    fraction? (fractionText ds ++ rest) = some (ds, rest) := by
  cases ds with
  | nil =>
    show fraction? rest = _
    unfold fraction?
    split
    · next cs => exact absurd rfl (hrest '.' rfl).2
    · rfl
  | cons d ds => exact digits?_append (List.cons_ne_nil d ds) hds fun c hc ↦ (hrest c hc).1

theorem exponent?_append {e : Option (Bool × List Char)} (hne : ∀ p ∈ e, p.2 ≠ [])
    (hds : ∀ p ∈ e, ∀ c ∈ p.2, c.isDigit = true) (hrest : ClosesNumeral rest) :
    exponent? (exponentText e ++ rest) = some (e, rest) := by
  rcases e with _ | ⟨sign, ds⟩
  · show exponent? rest = _
    unfold exponent?
    split
    · exact absurd rfl (hrest 'e' rfl).2.2.1
    · exact absurd rfl (hrest 'E' rfl).2.2.2
    · rfl
  · have hdigits : digits? (ds ++ rest) = some (ds, rest) :=
      digits?_append (hne _ rfl) (hds _ rfl) hrest.closesDigits
    cases sign
    · show ((digits? (ds ++ rest)).map _).map _ = _
      rw [hdigits]
      rfl
    · show ((digits? (ds ++ rest)).map _).map _ = _
      rw [hdigits]
      rfl

/-- A numeral is read back from its text, and what follows is left. -/
theorem Proper.numeral?_text {n : Numeral} (h : n.Proper) (hrest : ClosesNumeral rest) :
    numeral? (n.text ++ rest) = some (n, rest) := by
  obtain ⟨negative, whole, fraction, exponent⟩ := n
  have hwhole : whole? (whole ++ (fractionText fraction ++ (exponentText exponent ++ rest))) = _ :=
    whole?_append h.whole_ne_nil h.isDigit_whole h.eq_zero (closesDigits_fractionText _ hrest)
  have hfraction : fraction? (fractionText fraction ++ (exponentText exponent ++ rest)) = _ :=
    fraction?_append h.isDigit_fraction (closes_exponentText hrest)
  have hexponent : exponent? (exponentText exponent ++ rest) = some (exponent, rest) :=
    exponent?_append h.exponent_ne_nil h.isDigit_exponent hrest
  rw [text_eq]
  unfold numeral?
  cases negative with
  | true =>
    simp only [if_pos, List.append_assoc, List.cons_append, List.nil_append, Option.bind_eq_bind]
    rw [hwhole, Option.bind_some, hfraction, Option.bind_some, hexponent]
    rfl
  | false =>
    obtain ⟨d, ds, rfl⟩ := List.exists_cons_of_ne_nil h.whole_ne_nil
    simp only [Bool.false_eq_true, if_false, List.cons_append, List.nil_append,
      List.append_assoc, Option.bind_eq_bind] at hwhole ⊢
    split
    · next hminus =>
      cases hminus
      exact absurd (h.isDigit_whole '-' List.mem_cons_self) (by decide)
    · dsimp only
      rw [hwhole, Option.bind_some, hfraction, Option.bind_some, hexponent]
      rfl

theorem Proper.exists_text {n : Numeral} (h : n.Proper) :
    ∃ c cs, n.text = c :: cs ∧ (c = '-' ∨ c.isDigit = true) := by
  obtain ⟨d, ds, hds⟩ := List.exists_cons_of_ne_nil h.whole_ne_nil
  have hd : d.isDigit = true := h.isDigit_whole d (hds ▸ List.mem_cons_self)
  rw [text_eq, hds]
  cases n.negative with
  | true => exact ⟨'-', _, rfl, .inl rfl⟩
  | false => exact ⟨d, _, rfl, .inr hd⟩

/-! ## Numerals of numbers -/

theorem toDigits_eq_zero {n : Nat} (h : (Nat.toDigits 10 n).head? = some '0') :
    Nat.toDigits 10 n = ['0'] := by
  induction n using Nat.strongRecOn with
  | ind n ih =>
    by_cases hn : n < 10
    · rw [Nat.toDigits_of_lt_base hn]
      congr
      rw [Nat.toDigits_of_lt_base hn] at h
      exact Option.some.inj h
    · exfalso
      have hdiv : 0 < n / 10 := Nat.div_pos (Nat.not_lt.mp hn) (by decide)
      rw [Nat.toDigits_of_base_le (by decide) (Nat.not_lt.mp hn)] at h
      have hhead : (Nat.toDigits 10 (n / 10)).head? = some '0' := by
        obtain ⟨d, ds, hds⟩ := List.exists_cons_of_ne_nil (@Nat.toDigits_ne_nil (n / 10) 10)
        rw [hds] at h ⊢
        exact h
      have hzero : Nat.toDigits 10 (n / 10) = ['0'] := ih _ (by omega) hhead
      have hvalue : n / 10 = 0 := by
        rw [← Nat.ofDigitChars_ten_toDigits (n := n / 10), hzero]
        rfl
      omega

theorem proper_ofInt (i : Int) : (ofInt i).Proper where
  whole_ne_nil := Nat.toDigits_ne_nil
  isDigit_whole _ hc := Nat.isDigit_of_mem_toDigits (by decide) (by decide) hc
  eq_zero := toDigits_eq_zero
  isDigit_fraction := by
    rintro c ⟨⟩
  exponent_ne_nil := by
    rintro e ⟨⟩
  isDigit_exponent := by
    rintro e ⟨⟩

theorem text_shortest (x : Binary64) :
    x.shortest.text = Nat.toDigits 10 x.shortest.digits := by
  simp [Decimal.text, Nat.toString_eq_repr, Nat.repr]

theorem isDigit_shortest {x : Binary64} : ∀ c ∈ x.shortest.text, c.isDigit = true := by
  rw [text_shortest]
  exact fun c hc ↦ Nat.isDigit_of_mem_toDigits (by decide) (by decide) hc

theorem shortest_text_ne_nil (x : Binary64) : x.shortest.text ≠ [] := by
  rw [text_shortest]
  exact Nat.toDigits_ne_nil

/-- The digits of a float only start with a zero if the float is one. -/
theorem shortest_of_head? {x : Binary64} (h : x.shortest.text.head? = some '0') :
    x.shortest = ⟨0, 0⟩ := by
  cases hx : x.isZero with
  | true => exact if_pos hx
  | false =>
    exfalso
    rw [text_shortest] at h
    apply Binary64.digits_shortest_ne_zero hx
    have hvalue := congrArg (Nat.ofDigitChars 10 · 0) (toDigits_eq_zero h)
    rwa [Nat.ofDigitChars_ten_toDigits] at hvalue

theorem isDigit_zeros {n : Nat} : ∀ c ∈ List.replicate n '0', c.isDigit = true := by
  intro c hc
  rw [List.eq_of_mem_replicate hc]
  rfl

section

variable {ds : List Char} (negative : Bool) (n : Nat)

/-- Digits after the point, and after zeros. -/
theorem proper_below_one (hdigits : ∀ c ∈ ds, c.isDigit = true) :
    (⟨negative, ['0'], List.replicate n '0' ++ ds, none⟩ : Numeral).Proper where
  whole_ne_nil := List.cons_ne_nil _ _
  isDigit_whole := List.forall_mem_singleton.mpr rfl
  eq_zero _ := rfl
  isDigit_fraction c hc := (List.mem_append.mp hc).elim (isDigit_zeros c) (hdigits c)
  exponent_ne_nil := by
    rintro e ⟨⟩
  isDigit_exponent := by
    rintro e ⟨⟩

/-- Digits with the point after some of them, or after zeros if there are too few. -/
theorem proper_positional (hdigits : ∀ c ∈ ds, c.isDigit = true) (hne : ds ≠ [])
    (hzero : ds.head? = some '0' → ds = ['0'] ∧ n = 0) :
    (⟨negative, ds.take (n + 1) ++ List.replicate (n + 1 - ds.length) '0',
      if ds.drop (n + 1) = [] then ['0'] else ds.drop (n + 1), none⟩ : Numeral).Proper where
  whole_ne_nil := by simp [hne]
  isDigit_whole c hc := (List.mem_append.mp hc).elim
    (fun hc ↦ hdigits c (List.mem_of_mem_take hc)) (isDigit_zeros c)
  eq_zero := by
    intro hwhole
    have hhead : ds.head? = some '0' := by
      obtain ⟨d, ds, rfl⟩ := List.exists_cons_of_ne_nil hne
      exact hwhole
    obtain ⟨rfl, rfl⟩ := hzero hhead
    rfl
  isDigit_fraction := by
    intro c hc
    dsimp only at hc
    split at hc
    · cases List.mem_singleton.mp hc
      rfl
    · exact hdigits c (List.mem_of_mem_drop hc)
  exponent_ne_nil := by
    rintro e ⟨⟩
  isDigit_exponent := by
    rintro e ⟨⟩

/-- Digits with the point after the first, and an exponent. -/
theorem proper_scientific (hdigits : ∀ c ∈ ds, c.isDigit = true) (hne : ds ≠ []) (below : Bool) :
    (⟨negative, ds.take 1, ds.drop 1, some (below, digits n)⟩ : Numeral).Proper where
  whole_ne_nil := by simp [hne]
  isDigit_whole c hc := hdigits c (List.mem_of_mem_take hc)
  eq_zero := by
    intro hwhole
    obtain ⟨d, ds, rfl⟩ := List.exists_cons_of_ne_nil hne
    cases hwhole
    rfl
  isDigit_fraction c hc := hdigits c (List.mem_of_mem_drop hc)
  exponent_ne_nil := by
    rintro e ⟨⟩
    exact Nat.toDigits_ne_nil
  isDigit_exponent := by
    rintro e ⟨⟩ c hc
    exact Nat.isDigit_of_mem_toDigits (by decide) (by decide) hc

end

/-- The numeral of a float follows the grammar, whichever of its three forms it has. -/
theorem proper_ofFloat (x : Binary64) : (ofFloat x).Proper := by
  have hdigits : ∀ c ∈ x.shortest.text, c.isDigit = true := isDigit_shortest
  have hne := shortest_text_ne_nil x
  unfold ofFloat
  dsimp only
  split
  · split
    · exact proper_below_one _ _ hdigits
    · refine proper_positional _ _ hdigits hne fun hhead ↦ ?_
      rw [shortest_of_head? hhead]
      exact ⟨rfl, rfl⟩
  · exact proper_scientific _ _ hdigits hne _

/-- The numeral of an integer reads as the integer, if 64 bits hold it. -/
theorem toInt?_ofInt {i : Int} (hle : Int64.minValue.toInt ≤ i) (hlt : i < UInt64.size) :
    (ofInt i).toInt? = some i := by
  have hvalue : valueOf (digits i.natAbs) = i.natAbs := Nat.ofDigitChars_ten_toDigits
  have hmin : Int64.minValue.toInt = -9223372036854775808 := rfl
  unfold toInt?
  simp only [ofInt, isWhole, hvalue]
  by_cases hneg : i < 0
  · simp only [hneg, decide_true, if_true]
    rw [if_neg (by decide), if_pos (by omega)]
    congr
    omega
  · simp only [hneg, decide_false]
    rw [if_neg (by decide), if_neg (by decide), if_pos (by omega)]
    congr
    omega

end Numeral

end Interchange.Json
