import Interchange.Proofs.Tlv.Extent
import Interchange.Proofs.Tlv.RoundTrip
import Interchange.Proofs.Tlv.Success

/-!
# Messages that say where they end

A message is one variant with its length in front.  Bytes that break off before this length is
reached are refused before anything inside is looked at, and a reader that is given more stops at
the length and refuses the first byte behind it.  So nothing that is cut off or has something after
it is taken for a message, and no message is the beginning of another.  A literal with an irregular
time is written as a message that is never read, whatever stands behind it.
-/

namespace Interchange

open Tlv Tlv.Writer Tlv.Reader

/-! ## Variants -/

namespace Tlv

variable {α : Type} {r : Reader α} {a : α} {bs cs more item bytes : List UInt8} {name : String}
  {e : Fault}

/-- What is left of a variant that breaks off after its tag is no body. -/
theorem outcome_body_of_cut (hne : more ≠ [])
    (hl : (variantItem name item).length < lengthLimit + 5)
    (hcut : Tag.variant.byte :: cs ++ more = variantItem name item) :
    body.outcome cs = .error .unexpectedEnd := by
  rcases hbody : body.run cs with ⟨e | inside, rest⟩
  · rw [Attempt.outcome_of_run hbody, (onlyEnds_body.of_error trivial hbody).2]
  · obtain ⟨hlt, rfl⟩ := run_body_eq_ok.mp hbody
    have hsized : Complete (sized .variant inside) := .sized rfl hlt
    refine absurd (⟨more, hne, ?_⟩ : Incomplete (sized .variant inside ++ rest))
      hsized.not_incomplete
    have hitem := complete_variantItem hl
    rwa [← hcut] at hitem

/-- A variant that breaks off is not opened. -/
theorem outcome_variant_bind_of_cut {k : String × List UInt8 → Reader α} (hne : more ≠ [])
    (hl : (variantItem name item).length < lengthLimit + 5)
    (hcut : bs ++ more = variantItem name item) :
    (Reader.variant >>= k).outcome bs = .error .unexpectedEnd := by
  cases bs with
  | nil => rfl
  | cons b cs =>
    obtain rfl : b = Tag.variant.byte := (List.cons.inj hcut).1
    have hexpect : (expect .variant).run (Tag.variant.byte :: cs) = (.ok (), cs) :=
      Reads.expect .variant cs
    obtain ⟨rest, hbody⟩ : ∃ rest, body.run cs = (.error .unexpectedEnd, rest) :=
      ⟨_, Prod.ext (outcome_body_of_cut hne hl hcut) rfl⟩
    have hvariant : Reader.variant.run (Tag.variant.byte :: cs) =
        (.error .unexpectedEnd, rest) := by
      rw [Reader.variant, Attempt.run_bind_of_ok hexpect, Attempt.run_bind_of_error hbody]
    rw [Attempt.outcome, Attempt.run_bind_of_error hvariant]

/-! ## Messages -/

theorem whole_of_outcome_eq_error (h : r.outcome bs = .error e) : whole r bs = .error e := by
  rw [Attempt.outcome] at h
  unfold whole
  rcases hrun : r.run bs with ⟨x, rest⟩
  rw [hrun] at h
  cases h
  rfl

/-- A variant that breaks off ends too early for a reader that starts by opening it. -/
theorem whole_variant_bind_of_cut {k : String × List UInt8 → Reader α}
    (hl : (variantItem name item).length < lengthLimit + 5) (hcut : bs <+: variantItem name item)
    (hne : bs ≠ variantItem name item) :
    whole (Reader.variant >>= k) bs = .error .unexpectedEnd := by
  obtain ⟨more, hcut⟩ := hcut
  refine whole_of_outcome_eq_error (outcome_variant_bind_of_cut ?_ hl hcut)
  rintro rfl
  exact hne (by rwa [List.append_nil] at hcut)

/-- Bytes that are read, and neither cut off nor with anything behind them. -/
structure SelfDelimiting (ofBytes : List UInt8 → Except Fault α) (bytes : List UInt8) : Prop where
  isRead : ∃ a, ofBytes bytes = .ok a
  cut : ∀ bs, bs <+: bytes → bs ≠ bytes → ofBytes bs = .error .unexpectedEnd
  extended : ∀ b bs, ofBytes (bytes ++ b :: bs) = .error (.invalidTag b)

/-- A variant that is read is self-delimiting for a reader that starts by opening it. -/
theorem selfDelimiting_variantItem {k : String × List UInt8 → Reader α}
    (hl : (variantItem name item).length < lengthLimit + 5)
    (h : Reads (Reader.variant >>= k) (variantItem name item) a) :
    SelfDelimiting (whole (Reader.variant >>= k)) (variantItem name item) where
  isRead := by
    have hrun := h []
    rw [List.append_nil] at hrun
    exact ⟨a, whole_eq_ok.mpr hrun⟩
  cut bs := whole_variant_bind_of_cut hl
  extended := by
    intro b bs
    unfold whole
    rw [h (b :: bs)]

end Tlv

theorem Descriptor.selfDelimiting {d : Descriptor} {bytes : List UInt8}
    (h : d.toBytes = .ok bytes) : SelfDelimiting ofBytes bytes := by
  obtain ⟨rfl, hl, hd⟩ := toBytes_eq_ok.mp h
  exact selfDelimiting_variantItem hl (readLevels_layout (Nat.lt_succ_of_le hd) hl)

namespace Literal

variable {l : Literal} {bytes : List UInt8}

/-- No beginning of a literal's bytes is read, whatever times there are in it. -/
theorem ofBytes_of_cut (h : l.toBytes = .ok bytes) {bs : List UInt8} (hcut : bs <+: bytes)
    (hne : bs ≠ bytes) : ofBytes bs = .error .unexpectedEnd := by
  obtain ⟨rfl, hl, -⟩ := toBytes_eq_ok.mp h
  exact whole_variant_bind_of_cut hl hcut hne

/-- The bytes of an irregular time are refused before it shows whether anything follows. -/
theorem ofBytes_of_not_regular (h : l.toBytes = .ok bytes) (hregular : ¬ l.Regular)
    (bs : List UInt8) : ofBytes (bytes ++ bs) = .error .outOfRange := by
  obtain ⟨rfl, hl, hd⟩ := toBytes_eq_ok.mp h
  have hread : Yields (read 0) l.layout l.reread := isReread l (Nat.lt_succ_of_le hd) hl
  rw [reread, if_neg hregular] at hread
  exact whole_of_outcome_eq_error (congrArg Prod.fst (hread bs))

theorem selfDelimiting_iff (h : l.toBytes = .ok bytes) :
    SelfDelimiting ofBytes bytes ↔ l.Regular := by
  constructor
  · intro hself
    by_contra hregular
    obtain ⟨l', hl'⟩ := hself.isRead
    have hrefused := ofBytes_of_not_regular h hregular []
    rw [List.append_nil, hl'] at hrefused
    cases hrefused
  · intro hregular
    obtain ⟨rfl, hl, hd⟩ := toBytes_eq_ok.mp h
    have hread : Yields (read 0) l.layout l.reread := isReread l (Nat.lt_succ_of_le hd) hl
    rw [reread, if_pos hregular] at hread
    exact selfDelimiting_variantItem hl hread

end Literal

/-- The bytes of a literal or of a descriptor. -/
def IsMessage (bytes : List UInt8) : Prop :=
  (∃ l : Literal, l.toBytes = .ok bytes) ∨ ∃ d : Descriptor, d.toBytes = .ok bytes

theorem IsMessage.complete {bytes : List UInt8} (h : IsMessage bytes) : Complete bytes := by
  rcases h with ⟨l, h⟩ | ⟨d, h⟩
  · obtain ⟨rfl, hl, -⟩ := Literal.toBytes_eq_ok.mp h
    exact complete_variantItem hl
  · obtain ⟨rfl, hl, -⟩ := Descriptor.toBytes_eq_ok.mp h
    exact complete_variantItem hl

/-- A descriptor that was written is read, but not if it is cut off, which is the end of the bytes
wherever the cut is, nor with anything behind it, of which the first byte is refused.  So is a
literal, if all its times are regular.  If one is not, the bytes are cut off no less, but out of
range with anything behind them and by themselves.  No message is the beginning of another. -/
theorem toBytes_selfDelimiting (bytes : List UInt8) :
    (∀ l : Literal, l.toBytes = .ok bytes →
      (SelfDelimiting Literal.ofBytes bytes ↔ l.Regular) ∧
      (∀ bs, bs <+: bytes → bs ≠ bytes → Literal.ofBytes bs = .error .unexpectedEnd) ∧
      (¬ l.Regular → ∀ bs, Literal.ofBytes (bytes ++ bs) = .error .outOfRange)) ∧
    (∀ d : Descriptor, d.toBytes = .ok bytes → SelfDelimiting Descriptor.ofBytes bytes) ∧
    (∀ bytes', IsMessage bytes → IsMessage bytes' → bytes <+: bytes' → bytes = bytes') := by
  refine ⟨fun l h ↦ ⟨Literal.selfDelimiting_iff h, ?_, ?_⟩, fun d ↦ Descriptor.selfDelimiting, ?_⟩
  · intro bs hcut hne
    exact Literal.ofBytes_of_cut h hcut hne
  · exact Literal.ofBytes_of_not_regular h
  · rintro bytes' h h' ⟨more, he⟩
    exact (h.complete.append_inj h'.complete (he.trans (List.append_nil _).symm)).1

/-- A union of which members are repeated is not read back as it was written, but no less a
message, and so is a record with a leap second. -/
theorem toBytes_selfDelimiting_repetitive :
    (∃ bytes, Descriptor.repetitive.toBytes = .ok bytes ∧
      Descriptor.ofBytes (bytes.take 100) = .error .unexpectedEnd ∧
      Descriptor.ofBytes (bytes ++ [0x0E, 0x01]) = .error (.invalidTag 0x0E)) ∧
    ∃ bytes, Literal.extremes.toBytes = .ok bytes ∧
      Literal.ofBytes (bytes.take 40) = .error .unexpectedEnd ∧
      Literal.ofBytes (bytes ++ [0x00]) = .error (.invalidTag 0x00) := by
  have hbytes : Descriptor.repetitive.toBytes = .ok Descriptor.repetitive.layout :=
    Descriptor.toBytes_eq_ok.mpr ⟨rfl, by decide +kernel, by decide +kernel⟩
  have hbytes' : Literal.extremes.toBytes = .ok Literal.extremes.layout :=
    Literal.toBytes_eq_ok.mpr ⟨rfl, by decide +kernel, by decide +kernel⟩
  have hself := (toBytes_selfDelimiting _).2.1 _ hbytes
  have hself' := ((toBytes_selfDelimiting _).1 _ hbytes').1.mpr (by decide +kernel)
  refine ⟨⟨_, hbytes, ?_, hself.extended _ _⟩, ⟨_, hbytes', ?_, hself'.extended _ _⟩⟩
  · exact hself.cut _ (List.take_prefix _ _) (by decide +kernel)
  · exact hself'.cut _ (List.take_prefix _ _) (by decide +kernel)

/-- The bytes of a stray leap second are not refused for the byte that stands behind them. -/
theorem toBytes_selfDelimiting_strayLeapSecond : ∃ bytes,
    Literal.strayLeapSecond.toBytes = .ok bytes ∧
    Literal.ofBytes (bytes ++ [0x00]) = .error .outOfRange ∧
    Literal.ofBytes (bytes ++ [0x00]) ≠ .error (.invalidTag 0x00) := by
  have hbytes : Literal.strayLeapSecond.toBytes = .ok Literal.strayLeapSecond.layout :=
    Literal.toBytes_eq_ok.mpr ⟨rfl, by decide +kernel, by decide⟩
  have hrefused := Literal.ofBytes_of_not_regular hbytes (by decide) [0x00]
  refine ⟨_, hbytes, hrefused, ?_⟩
  rw [hrefused]
  rintro ⟨⟩

end Interchange
