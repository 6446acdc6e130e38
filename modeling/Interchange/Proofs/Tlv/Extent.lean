import Interchange.Proofs.Tlv.Parsing
import Interchange.Tlv.Literal

/-!
# Where items end

Bytes start with an item, whatever is inside it, or are the beginning of one, or start with a byte
that is no tag.  Passing over an item looks at no more than this, and so does going from one item of
a body to the next.  A typed read that succeeds has taken an item in this sense, whatever it found
inside.
-/

namespace Interchange.Tlv

open Writer Reader

/-- Bytes that are the beginning of an item, and not all of it. -/
def Incomplete (bs : List UInt8) : Prop := ∃ more, more ≠ [] ∧ Complete (bs ++ more)

/-- Where no item starts: the end, the beginning of an item, or a byte that is no tag.  With the
fault that it comes to. -/
inductive Stops : List UInt8 → Option Fault → Prop
  | ended : Stops [] none
  | incomplete {bs : List UInt8} (hne : bs ≠ []) (h : Incomplete bs) :
    Stops bs (some .unexpectedEnd)
  | noTag {b : UInt8} {bs : List UInt8} (h : Tag.ofByte? b = none) :
    Stops (b :: bs) (some (.invalidTag b))

variable {bs cs rest item left : List UInt8} {items : List (List UInt8)} {stop : Option Fault}
  {e : Fault} {t : Tag}

/-- Bytes start with one item at most. -/
theorem Complete.append_inj {item' rest' : List UInt8} (h : Complete item) (h' : Complete item')
    (he : item ++ rest = item' ++ rest') : item = item' ∧ rest = rest' := by
  have hskip := run_skip_of_complete h rest
  rw [he, run_skip_of_complete h' rest'] at hskip
  cases hskip
  exact ⟨List.append_cancel_right he, rfl⟩

/-- Nothing that starts with an item is the beginning of another. -/
theorem Complete.not_incomplete (h : Complete item) : ¬ Incomplete (item ++ rest) := by
  rintro ⟨more, hne, hmore⟩
  have he : item ++ (rest ++ more) = (item ++ rest ++ more) ++ [] := by simp
  obtain ⟨-, hnil⟩ := h.append_inj hmore he
  exact hne (List.append_eq_nil_iff.mp hnil).2

/-! ## Faults -/

/-- That the only fault of a reader is the end of the bytes. -/
abbrev OnlyEnds {α : Type} (r : Reader α) : Prop :=
  r.Ends (fun _ ↦ True) (fun _ ↦ True) (· = .unexpectedEnd)

theorem onlyEnds_take (n : Nat) : OnlyEnds (take n) := by
  intro bs _
  by_cases hn : bs.length < n <;> simp [take, Attempt.run_bind, Attempt.run_map, hn, Except.map]

theorem OnlyEnds.map {α β : Type} {r : Reader α} (h : OnlyEnds r) (f : α → β) :
    OnlyEnds (f <$> r) :=
  Attempt.Ends.map h fun _ _ ↦ trivial

theorem onlyEnds_body : OnlyEnds body :=
  ((onlyEnds_take 4).map ofLittleEndian).bind fun n _ ↦ onlyEnds_take n

/-- After a tag nothing but the end of the bytes keeps an item from being passed over. -/
theorem eq_of_run_skip_cons (h : skip.run (t.byte :: cs) = (.error e, rest)) :
    e = .unexpectedEnd := by
  rw [run_skip_cons] at h
  split at h
  · exact (((onlyEnds_take _).map _).of_error trivial h).2
  · exact ((onlyEnds_body.map _).of_error trivial h).2

theorem run_skip_of_noTag {b : UInt8} (h : Tag.ofByte? b = none) :
    skip.run (b :: cs) = (.error (.invalidTag b), b :: cs) := by
  simp [skip, peek, Attempt.run_bind, h]

/-- Of bytes there are so many, or too few that can be filled up. -/
theorem exists_append_or_fill (n : Nat) (cs : List UInt8) :
    (∃ taken rest, taken.length = n ∧ cs = taken ++ rest) ∨
      ∃ more, more ≠ [] ∧ (cs ++ more).length = n := by
  rcases Nat.lt_or_ge cs.length n with hlt | hge
  · refine .inr ⟨List.replicate (n - cs.length) 0, ?_, ?_⟩
    · simpa using Nat.sub_ne_zero_of_lt hlt
    · rw [List.length_append, List.length_replicate]
      omega
  · exact .inl ⟨cs.take n, cs.drop n, List.length_take_of_le hge, (List.take_append_drop n cs).symm⟩

/-- Four bytes are a length. -/
theorem exists_length (hcs : cs.length = 4) : ∃ n, n < lengthLimit ∧ cs = littleEndian 4 n := by
  refine ⟨ofLittleEndian cs, ?_, ?_⟩
  · have hlt := ofLittleEndian_lt cs
    rwa [hcs] at hlt
  · rw [← hcs, littleEndian_ofLittleEndian]

/-- What starts with a tag starts with an item or is the beginning of one. -/
theorem complete_or_incomplete (t : Tag) (cs : List UInt8) :
    (∃ item rest, Complete item ∧ t.byte :: cs = item ++ rest) ∨ Incomplete (t.byte :: cs) := by
  rcases hw : t.width? with _ | n
  · rcases exists_append_or_fill 4 cs with ⟨head, cs, hhead, rfl⟩ | ⟨more, hne, hfill⟩
    · obtain ⟨n, hn, rfl⟩ := exists_length hhead
      rcases exists_append_or_fill n cs with ⟨inside, rest, rfl, rfl⟩ | ⟨more, hne, rfl⟩
      · exact .inl ⟨sized t inside, rest, .sized hw hn, by simp [sized]⟩
      · refine .inr ⟨more, hne, ?_⟩
        have hsized := Complete.sized hw hn
        rwa [sized, List.cons_append, ← List.append_assoc] at hsized
    -- Too few bytes for a length are filled up, and then as many bytes are added as it says.
    · obtain ⟨n, hn, hlength⟩ := exists_length hfill
      refine .inr ⟨more ++ List.replicate n 0, List.append_ne_nil_of_left_ne_nil hne _, ?_⟩
      have hsized : Complete (sized t (List.replicate n 0)) :=
        .sized hw (by rwa [List.length_replicate])
      rwa [sized, List.length_replicate, ← hlength, List.cons_append, List.append_assoc] at hsized
  · rcases exists_append_or_fill n cs with ⟨taken, rest, rfl, rfl⟩ | ⟨more, hne, rfl⟩
    · exact .inl ⟨t.byte :: taken, rest, .fixed hw, rfl⟩
    · exact .inr ⟨more, hne, .fixed hw⟩

/-- An item cannot be passed over just where none starts, and for the reason for which none does. -/
theorem outcome_skip_eq_error (hne : bs ≠ []) :
    skip.outcome bs = .error e ↔ Stops bs (some e) := by
  constructor
  · intro h
    obtain ⟨b, cs, rfl⟩ := List.exists_cons_of_ne_nil hne
    rcases hb : Tag.ofByte? b with _ | t
    · rw [Attempt.outcome_of_run (run_skip_of_noTag hb)] at h
      cases h
      exact .noTag hb
    · obtain rfl := Tag.byte_of_ofByte? hb
      obtain rfl : e = .unexpectedEnd := eq_of_run_skip_cons (Prod.ext h rfl)
      rcases complete_or_incomplete t cs with ⟨item, rest, hitem, he⟩ | hcut
      · rw [he, Attempt.outcome_of_run (run_skip_of_complete hitem rest)] at h
        cases h
      · exact .incomplete hne hcut
  · intro h
    cases h with
    | incomplete _ hcut =>
      rcases hrun : skip.run bs with ⟨e | _, rest⟩
      · obtain ⟨more, -, hmore⟩ := hcut
        obtain ⟨t, cs, hcs⟩ := hmore.exists_tag
        obtain ⟨b, bs, rfl⟩ := List.exists_cons_of_ne_nil hne
        obtain rfl := (List.cons.inj hcs).1
        rw [Attempt.outcome_of_run hrun, eq_of_run_skip_cons hrun]
      · obtain ⟨item, hitem, rfl⟩ := run_skip_eq_ok.mp hrun
        exact absurd hcut hitem.not_incomplete
    | noTag hb => exact Attempt.outcome_of_run (run_skip_of_noTag hb)

/-! ## Item after item -/

theorem outcome_nextItem_eq_error : nextItem.outcome bs = .error e ↔ Stops bs (some e) := by
  rcases Decidable.em (bs = []) with rfl | hne
  · rw [Attempt.outcome_of_run run_nextItem_nil]
    constructor <;> rintro ⟨⟩
    contradiction
  · rw [← outcome_skip_eq_error hne, Attempt.outcome, Attempt.outcome, nextItem,
      Attempt.run_bind_of_ok (Attempt.run_get bs), if_neg hne]
    rcases skip.run bs with ⟨e | _, rest⟩ <;> simp [Attempt.run_map, Except.map]

theorem length_lt_of_run_nextItem (h : nextItem.run bs = (.ok (some item), rest)) :
    rest.length < bs.length := by
  obtain ⟨hne, rfl⟩ := run_nextItem_eq_some h
  rw [List.length_append]
  exact Nat.lt_add_of_pos_left (List.length_pos_iff.mpr hne)

/-- The items that are taken off a body one after another, and the fault at which this stops unless
it comes to the end. -/
def Reader.itemsOf (bs : List UInt8) : List (List UInt8) × Option Fault :=
  match _ : nextItem.run bs with
  | (.error e, _) => ([], some e)
  | (.ok none, _) => ([], none)
  | (.ok (some item), rest) => (item :: (itemsOf rest).1, (itemsOf rest).2)
termination_by bs.length
decreasing_by all_goals exact length_lt_of_run_nextItem ‹_›

theorem itemsOf_eq (bs : List UInt8) :
    itemsOf bs = match nextItem.run bs with
      | (.error e, _) => ([], some e)
      | (.ok none, _) => ([], none)
      | (.ok (some item), rest) => (item :: (itemsOf rest).1, (itemsOf rest).2) := by
  rw [itemsOf]
  split <;> simp only [*]

theorem itemsOf_of_stops (h : Stops left stop) : itemsOf left = ([], stop) := by
  rw [itemsOf_eq]
  cases stop with
  | none =>
    cases h
    rfl
  | some e =>
    have herror := outcome_nextItem_eq_error.mpr h
    rw [Attempt.outcome] at herror
    rcases hrun : nextItem.run left with ⟨r, rest⟩
    rw [hrun] at herror
    cases herror
    rfl

theorem itemsOf_append (h : Complete item) (rest : List UInt8) :
    itemsOf (item ++ rest) = (item :: (itemsOf rest).1, (itemsOf rest).2) := by
  rw [itemsOf_eq, run_nextItem_eq_some_iff.mpr ⟨h, rfl⟩]

theorem itemsOf_flatten_append (hitems : ∀ item ∈ items, Complete item) (h : Stops left stop) :
    itemsOf (items.flatten ++ left) = (items, stop) := by
  induction items with
  | nil => exact itemsOf_of_stops h
  | cons item items ih =>
    obtain ⟨hitem, hitems⟩ := List.forall_mem_cons.mp hitems
    rw [List.flatten_cons, List.append_assoc, itemsOf_append hitem, ih hitems]

/-- Any body is a number of items and then something that is no item. -/
theorem exists_of_itemsOf (bs : List UInt8) :
    ∃ left, (∀ item ∈ (itemsOf bs).1, Complete item) ∧ Stops left (itemsOf bs).2 ∧
      bs = (itemsOf bs).1.flatten ++ left := by
  fun_induction itemsOf bs with
  | case1 bs e rest h =>
    exact ⟨bs, by simp, outcome_nextItem_eq_error.mp (Attempt.outcome_of_run h), rfl⟩
  | case2 bs rest h =>
    obtain rfl := run_nextItem_eq_none h
    exact ⟨[], by simp, .ended, rfl⟩
  | case3 bs item rest h ih =>
    obtain ⟨hitem, rfl⟩ := run_nextItem_eq_some_iff.mp h
    obtain ⟨left, hitems, hleft, hrest⟩ := ih
    refine ⟨left, List.forall_mem_cons.mpr ⟨hitem, hitems⟩, hleft, ?_⟩
    rw [List.flatten_cons, List.append_assoc, ← hrest]

theorem itemsOf_eq_iff :
    itemsOf bs = (items, stop) ↔
      ∃ left, (∀ item ∈ items, Complete item) ∧ Stops left stop ∧ bs = items.flatten ++ left := by
  constructor
  · intro h
    have hex := exists_of_itemsOf bs
    rwa [h] at hex
  · rintro ⟨left, hitems, hleft, rfl⟩
    exact itemsOf_flatten_append hitems hleft

section

variable {β : Type} (step : β → List UInt8 → Except Fault β) (b : β)

theorem foldBody_nextItem {fuel : Nat} (hf : bs.length ≤ fuel) :
    foldBody nextItem step fuel b bs = (do
      let b ← (itemsOf bs).1.foldlM step b
      (itemsOf bs).2.elim (.ok b) .error) := by
  induction fuel generalizing b bs with
  | zero =>
    obtain rfl := List.eq_nil_of_length_eq_zero (Nat.le_zero.mp hf)
    rw [itemsOf_of_stops .ended]
    rfl
  | succ fuel ih =>
    rw [itemsOf_eq, foldBody]
    rcases hnext : nextItem.run bs with ⟨e | _ | item, rest⟩
    · rfl
    · rfl
    · have hlt := length_lt_of_run_nextItem hnext
      simp only [List.foldlM_cons, bind_assoc]
      exact bind_congr fun b ↦ ih b (by omega)

/-- Going through a body takes in its items in turn, and then fails if there is more. -/
theorem foldItems_eq (bs : List UInt8) :
    foldItems step b bs = (do
      let b ← (itemsOf bs).1.foldlM step b
      (itemsOf bs).2.elim (.ok b) .error) :=
  foldBody_nextItem step b (Nat.le_refl _)

end

/-! ## Typed reads -/

/-- The reads of one item, each of a type of its own. -/
inductive ReadsItem : {α : Type} → Reader α → Prop
  | bool : ReadsItem Reader.bool
  | u32 : ReadsItem Reader.u32
  | s64 : ReadsItem Reader.s64
  | f64 : ReadsItem Reader.f64
  | unit : ReadsItem Reader.unit
  | str : ReadsItem Reader.str
  | bytes : ReadsItem Reader.bytes
  | list : ReadsItem Reader.list
  | map : ReadsItem Reader.map
  | variant : ReadsItem Reader.variant
  | descriptor (depth : Nat) : ReadsItem (Descriptor.read depth)
  | literal (depth : Nat) : ReadsItem (Literal.read depth)

theorem complete_tag (h : t.width? = some 0) : Complete [t.byte] := .fixed h

theorem complete_number {n : Nat} (v : Nat) (h : t.width? = some n) :
    Complete (t.byte :: littleEndian n v) :=
  .fixed (by rw [h, length_littleEndian])

theorem complete_variantItem {name : String}
    (h : (variantItem name item).length < lengthLimit + 5) : Complete (variantItem name item) := by
  rw [variantItem, length_sized] at h
  exact .sized rfl (Nat.lt_of_add_lt_add_right h)

section

variable {α : Type} {r : Reader α} {a : α}

/-- What only looks inside a variant has taken it. -/
theorem exists_of_run_variant_bind {k : String × List UInt8 → Reader α}
    (h : (Reader.variant >>= k).run bs = (.ok a, rest)) (hk : ∀ v s, ((k v).run s).2 = s) :
    ∃ item, Complete item ∧ bs = item ++ rest := by
  obtain ⟨⟨name, inside⟩, s, hvariant, hinside⟩ := Attempt.run_bind_eq_ok.mp h
  obtain ⟨hl, rfl⟩ := run_variant_eq_ok.mp hvariant
  have hs := hk (name, inside) s
  rw [hinside] at hs
  exact ⟨_, complete_variantItem hl, by rw [← hs]⟩

/-- A typed read that succeeds has taken an item. -/
theorem ReadsItem.exists_complete (hr : ReadsItem r) (h : r.run bs = (.ok a, rest)) :
    ∃ item, Complete item ∧ bs = item ++ rest := by
  cases hr with
  | bool =>
    obtain rfl := run_bool_eq_ok.mp h
    exact ⟨_, complete_tag (by cases a <;> rfl), rfl⟩
  | u32 =>
    obtain rfl := run_u32_eq_ok.mp h
    exact ⟨_, complete_number _ rfl, rfl⟩
  | s64 =>
    obtain rfl := run_s64_eq_ok.mp h
    exact ⟨_, complete_number _ rfl, rfl⟩
  | f64 =>
    obtain rfl := run_f64_eq_ok.mp h
    exact ⟨_, complete_number _ rfl, rfl⟩
  | unit =>
    obtain rfl := run_unit_eq_ok.mp h
    exact ⟨_, complete_tag rfl, rfl⟩
  | str =>
    obtain ⟨hl, rfl⟩ := run_str_eq_ok.mp h
    exact ⟨_, .sized rfl hl, rfl⟩
  | bytes =>
    obtain ⟨hl, rfl⟩ := run_bytes_eq_ok.mp h
    exact ⟨_, .sized rfl hl, rfl⟩
  | list =>
    obtain ⟨hl, rfl⟩ := run_list_eq_ok.mp h
    exact ⟨_, .sized rfl hl, rfl⟩
  | map =>
    obtain ⟨hl, rfl⟩ := run_map_eq_ok.mp h
    exact ⟨_, .sized rfl hl, rfl⟩
  | variant =>
    obtain ⟨hl, rfl⟩ := run_variant_eq_ok.mp h
    exact ⟨_, complete_variantItem hl, rfl⟩
  | descriptor depth =>
    unfold Descriptor.read at h
    generalize maxDepth + 1 - depth = levels at h
    cases levels with
    | zero => cases h
    | succ levels => exact exists_of_run_variant_bind h fun _ _ ↦ rfl
  | literal depth =>
    unfold Literal.read at h
    generalize maxDepth + 1 - depth = levels at h
    cases levels with
    | zero => cases h
    | succ levels => exact exists_of_run_variant_bind h fun _ _ ↦ rfl

end

/-! ## Agreement -/

/-- A typed read that succeeds leaves what passing over the item leaves.  The items that a body is
taken apart into are those that are passed over, none of them empty: where this comes to the end
they are the whole body, and otherwise they are all before the place where no item starts, and the
fault is the one for which none does.  Going through a body is going through these items. -/
theorem extents_agree :
    (∀ {α : Type} {r : Reader α} {bs a rest}, ReadsItem r → r.run bs = (.ok a, rest) →
      skip.run bs = (.ok (), rest)) ∧
    (∀ item, Complete item ↔ item ≠ [] ∧ ∀ rest, skip.run (item ++ rest) = (.ok (), rest)) ∧
    (∀ bs items, itemsOf bs = (items, none) ↔
      (∀ item ∈ items, Complete item) ∧ items.flatten = bs) ∧
    (∀ bs items e, itemsOf bs = (items, some e) ↔ ∃ left,
      (∀ item ∈ items, Complete item) ∧ Stops left (some e) ∧ items.flatten ++ left = bs) ∧
    (∀ {β : Type} (step : β → List UInt8 → Except Fault β) b bs, foldItems step b bs = (do
      let b ← (itemsOf bs).1.foldlM step b
      (itemsOf bs).2.elim (.ok b) .error)) := by
  refine ⟨fun hr h ↦ ?_, fun item ↦ ⟨fun h ↦ ⟨h.ne_nil, run_skip_of_complete h⟩, fun ⟨_, h⟩ ↦ ?_⟩,
    fun bs items ↦ ?_, fun bs items e ↦ ?_, fun step b bs ↦ foldItems_eq step b bs⟩
  · exact run_skip_eq_ok.mpr (hr.exists_complete h)
  · obtain ⟨item', hitem, he⟩ := run_skip_eq_ok.mp (h [])
    rwa [List.append_cancel_right he]
  · rw [itemsOf_eq_iff]
    constructor
    · rintro ⟨left, hitems, hleft, rfl⟩
      cases hleft
      exact ⟨hitems, (List.append_nil _).symm⟩
    · rintro ⟨hitems, rfl⟩
      exact ⟨[], hitems, .ended, (List.append_nil _).symm⟩
  · rw [itemsOf_eq_iff]
    simp only [eq_comm]

/-- After a unit and an empty list stands the beginning of a number. -/
theorem extents_agree_cut :
    skip.run [0x0E, 0x20, 0, 0, 0, 0, 0x05, 7] = (.ok (), [0x20, 0, 0, 0, 0, 0x05, 7]) ∧
    itemsOf [0x0E, 0x20, 0, 0, 0, 0, 0x05, 7] =
      ([[0x0E], [0x20, 0, 0, 0, 0]], some .unexpectedEnd) := by
  constructor
  · exact extents_agree.1 .unit (show Reader.unit.run _ = (.ok (), _) from rfl)
  · refine (extents_agree.2.2.2.1 _ _ _).mpr ⟨[0x05, 7], ?_, ?_, rfl⟩
    · have hunit : Complete [Tag.unit.byte] := complete_tag rfl
      have hlist : Complete (sized .list []) := .sized rfl (by decide)
      exact List.forall_mem_cons.mpr ⟨hunit, List.forall_mem_singleton.mpr hlist⟩
    · have hnumber : Complete (Tag.u32.byte :: littleEndian 4 7) := complete_number 7 rfl
      exact .incomplete (by simp) ⟨[0, 0, 0], by simp, hnumber⟩

end Interchange.Tlv
