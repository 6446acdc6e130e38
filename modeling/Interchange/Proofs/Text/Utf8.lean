import Interchange.Text.Utf8

/-!
# Bytes of text

The bytes of a text are those of its characters, one after the other.  A byte below a space is a
control by itself, and no part of another character.
-/

namespace Interchange.Text

theorem bytes_ofList (cs : List Char) :
    bytes (String.ofList cs) = cs.flatMap String.utf8EncodeChar := by
  simp [bytes, List.utf8Encode]

theorem bytes_append (cs ds : List Char) :
    bytes (String.ofList (cs ++ ds)) = bytes (String.ofList cs) ++ bytes (String.ofList ds) := by
  rw [bytes_ofList, bytes_ofList, bytes_ofList, List.flatMap_append]

/-- A character below 0x80 is one byte, and any other is of bytes that are not below that. -/
theorem utf8EncodeChar_cases (c : Char) :
    (c.toNat < 0x80 ∧ String.utf8EncodeChar c = [UInt8.ofNat c.toNat]) ∨
      (0x80 ≤ c.toNat ∧ ∀ b ∈ String.utf8EncodeChar c, 0x80 ≤ b) := by
  have hof (n : Nat) (hle : 0x80 ≤ n ∧ n < 0x100) : (0x80 : UInt8) ≤ UInt8.ofNat n := by
    rw [UInt8.le_iff_toNat_le, UInt8.toNat_ofNat_of_lt' hle.2]
    exact hle.1
  have hmarked (n : Nat) : 0x80 ≤ n % 0x40 + 0x80 ∧ n % 0x40 + 0x80 < 0x100 := by omega
  show (c.val.toNat < 0x80 ∧ String.utf8EncodeChar c = [UInt8.ofNat c.val.toNat]) ∨
    (0x80 ≤ c.val.toNat ∧ _)
  unfold String.utf8EncodeChar
  dsimp only
  generalize c.val.toNat = v
  -- several bytes are all marked by their leading bit
  split
  · exact .inl ⟨by omega, rfl⟩
  · refine .inr ⟨by omega, ?_⟩
    split
    · exact List.forall_mem_cons.mpr ⟨hof _ (by omega),
        List.forall_mem_singleton.mpr (hof _ (hmarked v))⟩
    · split
      · exact List.forall_mem_cons.mpr ⟨hof _ (by omega), List.forall_mem_cons.mpr
          ⟨hof _ (hmarked _), List.forall_mem_singleton.mpr (hof _ (hmarked v))⟩⟩
      · exact List.forall_mem_cons.mpr ⟨hof _ (by omega), List.forall_mem_cons.mpr
          ⟨hof _ (hmarked _), List.forall_mem_cons.mpr
            ⟨hof _ (hmarked _), List.forall_mem_singleton.mpr (hof _ (hmarked v))⟩⟩⟩

theorem toNat_ofNat {n : Nat} (h : n < 0x80) : (UInt8.ofNat n).toNat = n :=
  UInt8.toNat_ofNat_of_lt' (Nat.lt_trans h (by decide))

theorem ofNat_toNat_inj {c d : Char} (hc : c.toNat < 0x80) (hd : d.toNat < 0x80) :
    UInt8.ofNat c.toNat = UInt8.ofNat d.toNat ↔ c = d := by
  rw [← UInt8.toNat_inj, toNat_ofNat hc, toNat_ofNat hd, Char.toNat_inj]

theorem not_ofNat_toNat_le {c : Char} (hc : c.toNat < 0x80) : ¬ 0x80 ≤ UInt8.ofNat c.toNat := by
  rw [UInt8.le_iff_toNat_le, toNat_ofNat hc]
  exact Nat.not_le.mpr hc

/-- A byte below 0x80 is found in a character just if it is that character. -/
theorem mem_utf8EncodeChar_iff {c d : Char} (hc : c.toNat < 0x80) :
    UInt8.ofNat c.toNat ∈ String.utf8EncodeChar d ↔ c = d := by
  rcases utf8EncodeChar_cases d with ⟨hd, hbytes⟩ | ⟨hd, hbytes⟩
  · rw [hbytes, List.mem_singleton, ofNat_toNat_inj hc hd]
  · constructor
    · intro h
      exact absurd (hbytes _ h) (not_ofNat_toNat_le hc)
    · rintro rfl
      omega

/-- A byte below 0x80 is found in a text just if its character is. -/
theorem mem_bytes_iff {c : Char} (hc : c.toNat < 0x80) {cs : List Char} :
    UInt8.ofNat c.toNat ∈ bytes (String.ofList cs) ↔ c ∈ cs := by
  simp [bytes_ofList, List.mem_flatMap, mem_utf8EncodeChar_iff hc]

/-- A byte below 0x80 ends a character just if it is that character. -/
theorem getLast?_utf8EncodeChar_eq_iff {c d : Char} (hc : c.toNat < 0x80) :
    (String.utf8EncodeChar d).getLast? = some (UInt8.ofNat c.toNat) ↔ c = d := by
  constructor
  · intro h
    exact (mem_utf8EncodeChar_iff hc).mp (List.mem_of_getLast? h)
  · rintro rfl
    obtain ⟨-, hbytes⟩ :=
      (utf8EncodeChar_cases c).resolve_right fun h ↦ absurd hc (Nat.not_lt.mpr h.1)
    rw [hbytes, List.getLast?_singleton]

/-- A byte below 0x80 is the last one of a text just if its character is the last one. -/
theorem getLast?_bytes_eq_iff {c : Char} (hc : c.toNat < 0x80) {cs : List Char} :
    (bytes (String.ofList cs)).getLast? = some (UInt8.ofNat c.toNat) ↔ cs.getLast? = some c := by
  rcases List.eq_nil_or_concat cs with rfl | ⟨ds, d, rfl⟩
  · rw [bytes_ofList]
    simp
  · rw [List.concat_eq_append, List.getLast?_concat, Option.some_inj, bytes_append, bytes_ofList [d],
      List.flatMap_singleton, List.getLast?_append,
      Option.or_of_isSome (List.getLast?_isSome.mpr (String.utf8EncodeChar_ne_nil)),
      getLast?_utf8EncodeChar_eq_iff hc, eq_comm]

/-- The bytes of a character from the space on are from the space on. -/
theorem le_of_mem_utf8EncodeChar {c : Char} (h : 0x20 ≤ c.toNat) :
    ∀ b ∈ String.utf8EncodeChar c, 0x20 ≤ b := by
  rcases utf8EncodeChar_cases c with ⟨hc, hbytes⟩ | ⟨-, hbytes⟩
  · rw [hbytes, List.forall_mem_singleton, UInt8.le_iff_toNat_le, toNat_ofNat hc]
    exact h
  · intro b hb
    exact UInt8.le_trans (by decide) (hbytes b hb)

/-- The bytes of a text whose characters are from the space on are from the space on. -/
theorem le_of_mem_bytes {cs : List Char} (h : ∀ c ∈ cs, 0x20 ≤ c.toNat) :
    ∀ b ∈ bytes (String.ofList cs), 0x20 ≤ b := by
  rw [bytes_ofList]
  intro b hb
  obtain ⟨c, hc, hb⟩ := List.mem_flatMap.mp hb
  exact le_of_mem_utf8EncodeChar (h c hc) b hb

end Interchange.Text
