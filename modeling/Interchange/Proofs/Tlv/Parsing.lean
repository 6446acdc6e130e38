import Interchange.Proofs.Tlv.Reading

/-!
# What bytes are read

The converse of reading what was written.  A reader of an item returns a value only where the bytes
that are written for the value stand in front, so apart from what is inside a container there are no
two ways to write a value.  Where only the extent of an item matters, what stands in front is a tag
with as many bytes as the tag asks for, or with a length and as many bytes as that says.  Going
through a body that is accepted takes it apart into items or entries, and is a fold over these.
-/

namespace Interchange.Tlv

open Writer

/-- The number of bytes after a tag, unless a length says it. -/
def Tag.width? : Tag → Option Nat
  | true | false | unit => some 0
  | u32 => some 4
  | s64 | f64 => some 8
  | string | bytes | list | map | variant => none

/-- Bytes that are an item, whatever is inside it. -/
inductive Complete : List UInt8 → Prop
  | fixed {t : Tag} {cs : List UInt8} (h : t.width? = some cs.length) : Complete (t.byte :: cs)
  | sized {t : Tag} {cs : List UInt8} (h : t.width? = none) (hl : cs.length < lengthLimit) :
    Complete (sized t cs)

theorem Complete.exists_tag {item : List UInt8} (h : Complete item) :
    ∃ t cs, item = Tag.byte t :: cs := by
  cases h with
  | fixed h => exact ⟨_, _, rfl⟩
  | sized h hl => exact ⟨_, _, rfl⟩

theorem Complete.ne_nil {item : List UInt8} (h : Complete item) : item ≠ [] := by
  obtain ⟨t, cs, rfl⟩ := h.exists_tag
  exact List.cons_ne_nil _ _

end Interchange.Tlv

namespace Interchange.Tlv.Reader

open Attempt Writer

variable {α β : Type} {bs cs rest item : List UInt8}

/-! ## Parts of items -/

theorem run_peek_eq_ok {t : Tag} :
    peek.run bs = (.ok t, rest) ↔ bs = rest ∧ ∃ cs, rest = t.byte :: cs := by
  constructor
  · intro h
    cases bs with
    | nil => simp [peek, run_bind] at h
    | cons b bs =>
      rcases ht : Tag.ofByte? b with _ | u <;> simp only [peek, run_bind, run_get, ht] at h
      · cases h
      · cases h
        exact ⟨rfl, bs, by rw [Tag.byte_of_ofByte? ht]⟩
  · rintro ⟨rfl, cs, rfl⟩
    exact run_peek t cs

theorem run_expect_eq_ok {t : Tag} :
    (expect t).run bs = (.ok (), rest) ↔ bs = t.byte :: rest := by
  constructor
  · intro h
    obtain ⟨found, s, hpeek, h⟩ := run_bind_eq_ok.mp h
    obtain ⟨rfl, cs, rfl⟩ := run_peek_eq_ok.mp hpeek
    split at h
    · cases h
    · next hne =>
      cases h
      rw [Decidable.not_not.mp hne]
      rfl
  · rintro rfl
    exact Reads.expect t rest

theorem run_take_eq_ok {n : Nat} :
    (take n).run bs = (.ok cs, rest) ↔ cs.length = n ∧ bs = cs ++ rest := by
  constructor
  · intro h
    by_cases hn : bs.length < n <;> simp [take, run_bind, run_map, hn, Except.map] at h
    obtain ⟨rfl, rfl⟩ := h
    exact ⟨List.length_take_of_le (Nat.le_of_not_lt hn), (List.take_append_drop n bs).symm⟩
  · rintro ⟨hn, rfl⟩
    exact Reads.take hn rest

theorem run_number_eq_ok {width n : Nat} :
    (number width).run bs = (.ok n, rest) ↔
      n < Nat.pow 256 width ∧ bs = littleEndian width n ++ rest := by
  constructor
  · intro h
    obtain ⟨cs, htake, rfl⟩ := Attempt.run_map_eq_ok.mp h
    obtain ⟨rfl, rfl⟩ := run_take_eq_ok.mp htake
    exact ⟨ofLittleEndian_lt cs, by rw [littleEndian_ofLittleEndian]⟩
  · rintro ⟨hn, rfl⟩
    exact Reads.number hn rest

theorem run_body_eq_ok :
    body.run bs = (.ok cs, rest) ↔
      cs.length < lengthLimit ∧ bs = littleEndian 4 cs.length ++ cs ++ rest := by
  constructor
  · intro h
    obtain ⟨n, s, hn, htake⟩ := run_bind_eq_ok.mp h
    obtain ⟨hlt, rfl⟩ := run_number_eq_ok.mp hn
    obtain ⟨rfl, rfl⟩ := run_take_eq_ok.mp htake
    exact ⟨hlt, (List.append_assoc _ _ _).symm⟩
  · rintro ⟨hlt, rfl⟩
    exact Reads.body hlt rest

/-! ## Items -/

theorem run_sized_eq_ok {t : Tag} :
    (do expect t; body).run bs = (.ok cs, rest) ↔
      cs.length < lengthLimit ∧ bs = sized t cs ++ rest := by
  constructor
  · intro h
    obtain ⟨_, s, ht, hbody⟩ := run_bind_eq_ok.mp h
    obtain rfl := run_expect_eq_ok.mp ht
    obtain ⟨hlt, rfl⟩ := run_body_eq_ok.mp hbody
    exact ⟨hlt, rfl⟩
  · rintro ⟨hlt, rfl⟩
    exact Reads.sized t hlt rest

theorem run_bytes_eq_ok :
    bytes.run bs = (.ok cs, rest) ↔ cs.length < lengthLimit ∧ bs = sized .bytes cs ++ rest :=
  run_sized_eq_ok

theorem run_list_eq_ok :
    list.run bs = (.ok cs, rest) ↔ cs.length < lengthLimit ∧ bs = sized .list cs ++ rest :=
  run_sized_eq_ok

theorem run_map_eq_ok :
    map.run bs = (.ok cs, rest) ↔ cs.length < lengthLimit ∧ bs = sized .map cs ++ rest :=
  run_sized_eq_ok

theorem run_unit_eq_ok : unit.run bs = (.ok (), rest) ↔ bs = Tag.unit.byte :: rest :=
  run_expect_eq_ok

theorem run_bool_eq_ok {v : Bool} :
    bool.run bs = (.ok v, rest) ↔ bs = (if v then Tag.true else Tag.false).byte :: rest := by
  constructor
  · intro h
    obtain ⟨t, s, ht, h⟩ := run_bind_eq_ok.mp h
    obtain ⟨rfl, cs, rfl⟩ := run_peek_eq_ok.mp ht
    split at h <;> cases h <;> rfl
  · rintro rfl
    exact Reads.bool v rest

/-- An item of fixed size is the tag and the bytes of the number that its value is made of. -/
theorem run_fixed_eq_ok {t : Tag} {width : Nat} {f : Nat → α} {a : α} :
    (do expect t; return f (← number width)).run bs = (.ok a, rest) ↔
      ∃ n, n < Nat.pow 256 width ∧ f n = a ∧ bs = t.byte :: littleEndian width n ++ rest := by
  constructor
  · intro h
    obtain ⟨_, s, ht, hrest⟩ := run_bind_eq_ok.mp h
    obtain rfl := run_expect_eq_ok.mp ht
    obtain ⟨n, s, hn, hpure⟩ := run_bind_eq_ok.mp hrest
    obtain ⟨hlt, rfl⟩ := run_number_eq_ok.mp hn
    cases hpure
    exact ⟨n, hlt, rfl, rfl⟩
  · rintro ⟨n, hlt, rfl, rfl⟩
    exact Reads.fixed t width hlt f rest

theorem run_u32_eq_ok {v : UInt32} :
    u32.run bs = (.ok v, rest) ↔ bs = Tag.u32.byte :: littleEndian 4 v.toNat ++ rest := by
  constructor
  · intro h
    obtain ⟨n, hlt, rfl, rfl⟩ := run_fixed_eq_ok.mp h
    rw [UInt32.toNat_ofNat_of_lt' hlt]
  · rintro rfl
    exact Reads.u32 v rest

theorem run_s64_eq_ok {v : Int64} : s64.run bs = (.ok v, rest) ↔ bs = s64Item v ++ rest := by
  constructor
  · intro h
    obtain ⟨n, hlt, rfl, rfl⟩ := run_fixed_eq_ok (f := fun n ↦ (UInt64.ofNat n).toInt64).mp h
    rw [s64Item, UInt64.toUInt64_toInt64, UInt64.toNat_ofNat_of_lt' hlt]
  · rintro rfl
    exact Reads.s64 v rest

theorem run_f64_eq_ok {v : Binary64} :
    f64.run bs = (.ok v, rest) ↔ bs = Tag.f64.byte :: littleEndian 8 v.bits.toNat ++ rest := by
  constructor
  · intro h
    obtain ⟨n, hlt, rfl, rfl⟩ := run_fixed_eq_ok (f := fun n ↦ Binary64.mk (.ofNat n)).mp h
    rw [UInt64.toNat_ofNat_of_lt' hlt]
  · rintro rfl
    exact Reads.f64 v rest

theorem run_str_eq_ok {s : String} :
    str.run bs = (.ok s, rest) ↔ (Text.bytes s).length < lengthLimit ∧ bs = strItem s ++ rest := by
  constructor
  · intro h
    obtain ⟨_, cs, ht, hrest⟩ := run_bind_eq_ok.mp h
    obtain rfl := run_expect_eq_ok.mp ht
    obtain ⟨text, cs, hbody, hpure⟩ := run_bind_eq_ok.mp hrest
    obtain ⟨hlt, rfl⟩ := run_body_eq_ok.mp hbody
    split at hpure
    · cases hpure
    · next hs =>
      cases hpure
      obtain rfl := Text.bytes_of_ofBytes? hs
      exact ⟨hlt, rfl⟩
  · rintro ⟨hlt, rfl⟩
    exact Reads.str hlt rest

theorem run_variant_eq_ok {name : String} {item : List UInt8} :
    variant.run bs = (.ok (name, item), rest) ↔
      (variantItem name item).length < lengthLimit + 5 ∧ bs = variantItem name item ++ rest := by
  constructor
  · intro h
    obtain ⟨_, cs, ht, hrest⟩ := run_bind_eq_ok.mp h
    obtain rfl := run_expect_eq_ok.mp ht
    obtain ⟨inside, cs, hbody, hname⟩ := run_bind_eq_ok.mp hrest
    obtain ⟨hlt, rfl⟩ := run_body_eq_ok.mp hbody
    rcases hstr : str.run inside with ⟨e | n, cs⟩ <;> rw [hstr] at hname
    · cases hname
    · cases hname
      obtain ⟨-, rfl⟩ := run_str_eq_ok.mp hstr
      refine ⟨?_, rfl⟩
      rw [variantItem, length_sized]
      exact Nat.add_lt_add_right hlt 5
  · rintro ⟨hlt, rfl⟩
    exact Reads.variant hlt rest

/-! ## Bodies -/

/-- After its tag an item is passed over by its width, or by the length that it starts with. -/
theorem run_skip_cons (t : Tag) (cs : List UInt8) :
    skip.run (t.byte :: cs) = (match t.width? with
      | some n => discard (take n)
      | none => discard body : Reader Unit).run cs := by
  rw [skip, run_bind_of_ok (run_peek t cs), run_bind_of_ok (run_modify _ _)]
  cases t <;> rfl

theorem run_skip_eq_ok :
    skip.run bs = (.ok (), rest) ↔ ∃ item, Complete item ∧ bs = item ++ rest := by
  constructor
  · intro h
    obtain ⟨t, s, ht, -⟩ := run_bind_eq_ok.mp h
    obtain ⟨rfl, cs, rfl⟩ := run_peek_eq_ok.mp ht
    rw [run_skip_cons] at h
    split at h
    · next n hw =>
      obtain ⟨taken, htake, -⟩ := Attempt.run_map_eq_ok.mp h
      obtain ⟨rfl, rfl⟩ := run_take_eq_ok.mp htake
      exact ⟨t.byte :: taken, .fixed hw, rfl⟩
    · next hw =>
      obtain ⟨inside, hbody, -⟩ := Attempt.run_map_eq_ok.mp h
      obtain ⟨hlt, rfl⟩ := run_body_eq_ok.mp hbody
      exact ⟨sized t inside, .sized hw hlt, rfl⟩
  · rintro ⟨item, hitem, rfl⟩
    cases hitem with
    | fixed hw =>
      rw [List.cons_append, run_skip_cons, hw]
      exact Attempt.run_map_of_ok (Reads.take rfl rest) _
    | @sized t inside hw hl =>
      rw [Writer.sized, List.cons_append, List.cons_append, run_skip_cons, hw]
      exact Attempt.run_map_of_ok (Reads.body hl rest) _

theorem run_skip_of_complete (h : Complete item) (rest : List UInt8) :
    skip.run (item ++ rest) = (.ok (), rest) :=
  run_skip_eq_ok.mpr ⟨item, h, rfl⟩

theorem run_nextItem_eq_none (h : nextItem.run bs = (.ok none, rest)) : bs = [] := by
  obtain ⟨cs, s, hget, h⟩ := run_bind_eq_ok.mp h
  cases hget
  split at h
  · next hnil => exact hnil
  · split at h
    · cases h
    · obtain ⟨_, _, -, h⟩ := run_bind_eq_ok.mp h
      cases h

theorem run_nextItem_eq_some_iff :
    nextItem.run bs = (.ok (some item), rest) ↔ Complete item ∧ bs = item ++ rest := by
  constructor
  · intro h
    obtain ⟨s, u, hget, hnext⟩ := run_bind_eq_ok.mp h
    cases hget
    split at hnext
    · cases hnext
    · split at hnext
      · cases hnext
      · next hskip =>
        obtain ⟨item', hitem, rfl⟩ := run_skip_eq_ok.mp hskip
        cases hnext
        simpa using hitem
  · rintro ⟨hitem, rfl⟩
    have hne : item ++ rest ≠ [] := List.append_ne_nil_of_left_ne_nil hitem.ne_nil rest
    simp [nextItem, run_bind, run_map, hitem.ne_nil, run_skip_of_complete hitem rest, Except.map]

theorem run_nextItem_eq_some (h : nextItem.run bs = (.ok (some item), rest)) :
    item ≠ [] ∧ bs = item ++ rest := by
  obtain ⟨hitem, rfl⟩ := run_nextItem_eq_some_iff.mp h
  exact ⟨hitem.ne_nil, rfl⟩

theorem run_nextEntry_eq_none (h : nextEntry.run bs = (.ok none, rest)) : bs = [] := by
  obtain ⟨cs, s, hget, h⟩ := run_bind_eq_ok.mp h
  cases hget
  split at h
  · next hnil => exact hnil
  · obtain ⟨t, s, -, h⟩ := run_bind_eq_ok.mp h
    split at h
    · cases h
    · obtain ⟨_, -, h⟩ := Attempt.run_map_eq_ok.mp h
      cases h

theorem run_nextEntry_eq_some {e : String × List UInt8}
    (h : nextEntry.run bs = (.ok (some e), rest)) :
    (variantItem e.1 e.2).length < lengthLimit + 5 ∧ bs = variantItem e.1 e.2 ++ rest := by
  obtain ⟨cs, s, hget, h⟩ := run_bind_eq_ok.mp h
  cases hget
  split at h
  · cases h
  · obtain ⟨t, s, ht, h⟩ := run_bind_eq_ok.mp h
    obtain ⟨rfl, -⟩ := run_peek_eq_ok.mp ht
    split at h
    · cases h
    · obtain ⟨_, h, he⟩ := Attempt.run_map_eq_ok.mp h
      cases he
      exact run_variant_eq_ok.mp h

section

variable {next : Reader (Option α)} {g : α → List UInt8} {b b' : β}

/-- A body that is gone through to its end is made of the items that were taken off it. -/
theorem exists_of_foldBody {step : β → α → Except Fault β}
    (hnone : ∀ {bs rest}, next.run bs = (.ok none, rest) → bs = [])
    (hsome : ∀ {bs a rest}, next.run bs = (.ok (some a), rest) → g a ≠ [] ∧ bs = g a ++ rest)
    {fuel : Nat} (hf : bs.length ≤ fuel) (h : foldBody next step fuel b bs = .ok b') :
    ∃ as : List α, bs = as.flatMap g ∧ as.foldlM step b = .ok b' := by
  induction fuel generalizing b bs with
  | zero => exact ⟨[], List.eq_nil_of_length_eq_zero (Nat.le_zero.mp hf), h⟩
  | succ fuel ih =>
    rcases hnext : next.run bs with ⟨e | _ | a, rest⟩ <;> simp only [foldBody, hnext] at h
    · cases h
    · exact ⟨[], hnone hnext, h⟩
    · obtain ⟨hne, rfl⟩ := hsome hnext
      obtain ⟨c, hc, h⟩ := bind_eq_ok.mp h
      have hpos := List.length_pos_iff.mpr hne
      rw [List.length_append] at hf
      obtain ⟨as, rfl, has⟩ := ih (by omega) h
      exact ⟨a :: as, rfl, by rw [List.foldlM_cons, hc, ok_bind, has]⟩

theorem exists_of_foldItems {step : β → List UInt8 → Except Fault β}
    (h : foldItems step b bs = .ok b') :
    ∃ items : List (List UInt8), bs = items.flatMap id ∧ items.foldlM step b = .ok b' :=
  exists_of_foldBody run_nextItem_eq_none run_nextItem_eq_some (Nat.le_refl _) h

theorem exists_of_foldEntries {step : β → String → List UInt8 → Except Fault β}
    (h : foldEntries step b bs = .ok b') :
    ∃ entries : List (String × List UInt8), bs = entries.flatMap (fun e ↦ variantItem e.1 e.2) ∧
      entries.foldlM (fun b e ↦ step b e.1 e.2) b = .ok b' :=
  exists_of_foldBody run_nextEntry_eq_none
    (fun h ↦ ⟨List.cons_ne_nil _ _, (run_nextEntry_eq_some h).2⟩) (Nat.le_refl _) h

/-! ## Invariants of bodies -/

variable {P : Nat → β → Prop}

/-- What each step keeps, with the number of bytes gone through, holds after all of them. -/
theorem foldlM_induction {as : List α} {step : β → α → Except Fault β} {n : Nat}
    (h : as.foldlM step b = .ok b') (hb : P n b)
    (hstep : ∀ {n b a b'}, P n b → step b a = .ok b' → P (n + (g a).length) b') :
    P (n + (as.flatMap g).length) b' := by
  induction as generalizing n b with
  | nil =>
    cases h
    exact hb
  | cons a as ih =>
    rw [List.foldlM_cons] at h
    obtain ⟨c, hc, h⟩ := bind_eq_ok.mp h
    rw [List.flatMap_cons, List.length_append, ← Nat.add_assoc]
    exact ih h (hstep hb hc)

theorem foldItems_induction {step : β → List UInt8 → Except Fault β}
    (h : foldItems step b bs = .ok b') (hb : P 0 b)
    (hstep : ∀ {n b item b'}, P n b → step b item = .ok b' → P (n + item.length) b') :
    P bs.length b' := by
  obtain ⟨items, rfl, hfold⟩ := exists_of_foldItems h
  rw [← Nat.zero_add (List.length _)]
  exact foldlM_induction hfold hb hstep

theorem foldEntries_induction {step : β → String → List UInt8 → Except Fault β}
    (h : foldEntries step b bs = .ok b') (hb : P 0 b)
    (hstep : ∀ {n b name item b'}, P n b → step b name item = .ok b' →
      P (n + (variantItem name item).length) b') : P bs.length b' := by
  obtain ⟨entries, rfl, hfold⟩ := exists_of_foldEntries h
  rw [← Nat.zero_add (List.length _)]
  exact foldlM_induction hfold hb hstep

/-- What is collected from a body takes up no more bytes than the body, if nothing that is read
takes up more than it is read from. -/
theorem of_foldItems_collect {read : List UInt8 → Except Fault α} {Q : α → Prop} {as : List α}
    (hread : ∀ {item a}, read item = .ok a → Q a ∧ (g a).length ≤ item.length)
    (h : foldItems (fun as item ↦ do .ok (as ++ [← read item])) [] bs = .ok as) :
    (∀ a ∈ as, Q a) ∧ (as.flatMap g).length ≤ bs.length := by
  refine foldItems_induction (P := fun n as ↦ (∀ a ∈ as, Q a) ∧ (as.flatMap g).length ≤ n) h
    ⟨by simp, Nat.le_refl 0⟩ ?_
  rintro n as item as' ⟨hQ, hn⟩ hstep
  obtain ⟨a, ha, hstep⟩ := bind_eq_ok.mp hstep
  cases hstep
  obtain ⟨hQa, hlen⟩ := hread ha
  constructor
  · simpa [or_imp, forall_and] using ⟨hQ, hQa⟩
  · simp only [List.flatMap_append, List.flatMap_singleton, List.length_append]
    omega

end

/-! ## Lengths -/

/-- What a reader takes to return a value is no longer than all there is. -/
theorem length_le_of_outcome {r : Reader α} {a : α} {item : List UInt8}
    (hr : ∀ {rest}, r.run bs = (.ok a, rest) → bs = item ++ rest) (h : r.outcome bs = .ok a) :
    item.length ≤ bs.length := by
  obtain ⟨rest, hrun⟩ := outcome_eq_ok.mp h
  rw [hr hrun, List.length_append]
  exact Nat.le_add_right _ _

theorem length_le_of_unit (h : unit.outcome bs = .ok ()) : [Tag.unit.byte].length ≤ bs.length :=
  length_le_of_outcome run_unit_eq_ok.mp h

theorem length_le_of_bool {v : Bool} (h : bool.outcome bs = .ok v) :
    [(if v then Tag.true else Tag.false).byte].length ≤ bs.length :=
  length_le_of_outcome run_bool_eq_ok.mp h

theorem length_le_of_u32 {v : UInt32} (h : u32.outcome bs = .ok v) :
    (Tag.u32.byte :: littleEndian 4 v.toNat).length ≤ bs.length :=
  length_le_of_outcome run_u32_eq_ok.mp h

theorem length_le_of_s64 {v : Int64} (h : s64.outcome bs = .ok v) :
    (s64Item v).length ≤ bs.length := length_le_of_outcome run_s64_eq_ok.mp h

theorem length_le_of_f64 {v : Binary64} (h : f64.outcome bs = .ok v) :
    (Tag.f64.byte :: littleEndian 8 v.bits.toNat).length ≤ bs.length :=
  length_le_of_outcome run_f64_eq_ok.mp h

theorem length_le_of_str {s : String} (h : str.outcome bs = .ok s) :
    (strItem s).length ≤ bs.length :=
  length_le_of_outcome (fun h ↦ (run_str_eq_ok.mp h).2) h

theorem length_le_of_bytes (h : bytes.outcome bs = .ok cs) :
    (sized .bytes cs).length ≤ bs.length :=
  length_le_of_outcome (fun h ↦ (run_bytes_eq_ok.mp h).2) h

/-- A list whose body is no longer than one that was read is no longer than the item. -/
theorem length_sized_le_of_list {ds : List UInt8} (h : list.outcome bs = .ok cs)
    (hds : ds.length ≤ cs.length) : (sized .list ds).length ≤ bs.length := by
  have hcs : (sized .list cs).length ≤ bs.length :=
    length_le_of_outcome (fun h ↦ (run_list_eq_ok.mp h).2) h
  rw [length_sized] at hcs ⊢
  omega

/-- A map whose body is no longer than one that was read is no longer than the item. -/
theorem length_sized_le_of_map {ds : List UInt8} (h : map.outcome bs = .ok cs)
    (hds : ds.length ≤ cs.length) : (sized .map ds).length ≤ bs.length := by
  have hcs : (sized .map cs).length ≤ bs.length :=
    length_le_of_outcome (fun h ↦ (run_map_eq_ok.mp h).2) h
  rw [length_sized] at hcs ⊢
  omega

theorem length_le_of_variant {name : String} {item : List UInt8}
    (h : variant.outcome bs = .ok (name, item)) : (variantItem name item).length ≤ bs.length :=
  length_le_of_outcome (fun h ↦ (run_variant_eq_ok.mp h).2) h

/-! ## Whole bytes -/

theorem whole_eq_ok {r : Reader α} {a : α} : whole r bs = .ok a ↔ r.run bs = (.ok a, []) := by
  unfold whole
  rcases r.run bs with ⟨e | b, _ | ⟨c, cs⟩⟩ <;> simp

end Interchange.Tlv.Reader
