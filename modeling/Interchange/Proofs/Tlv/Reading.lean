import Interchange.Proofs.Attempt
import Interchange.Proofs.Tlv.Writing
import Interchange.Tlv.Reader

/-!
# What reading makes of written items

`Reads r bytes a` says that a reader takes exactly these bytes off the front, whatever follows them,
and returns a value; `Yields r bytes x` says so of a reader that may also refuse what they hold.
The readers of single items read what the layouts of items hold, and going through a body that holds
a number of items in a row is a fold over those items.
-/

namespace Interchange.Tlv.Reader

open Writer

variable {α β γ : Type}

/-- A reader takes these bytes and nothing after them, and returns a value. -/
def Reads (r : Reader α) (bs : List UInt8) (a : α) : Prop :=
  ∀ rest, r.run (bs ++ rest) = (.ok a, rest)

variable {r : Reader α} {bs cs : List UInt8} {a : α}

theorem Reads.outcome (h : Reads r bs a) : r.outcome bs = .ok a :=
  Attempt.outcome_of_run (by simpa using h [])

theorem Reads.pure (a : α) : Reads (pure a) [] a := fun _ ↦ rfl

theorem Reads.bind {k : α → Reader β} {b : β} (h : Reads r bs a) (hk : Reads (k a) cs b) :
    Reads (r >>= k) (bs ++ cs) b := fun rest ↦ by
  rw [List.append_assoc, Attempt.run_bind_of_ok (h _), hk]

/-- What follows may only look at the value. -/
theorem Reads.bind_nil {k : α → Reader β} {b : β} (h : Reads r bs a) (hk : Reads (k a) [] b) :
    Reads (r >>= k) bs b := by
  simpa using h.bind hk

theorem Reads.mapped (h : Reads r bs a) (f : α → β) : Reads (f <$> r) bs (f a) := fun rest ↦
  Attempt.run_map_of_ok (h rest) f

theorem Reads.ofExcept {x : Except Fault α} (h : x = .ok a) : Reads (.ofExcept x) [] a :=
  fun rest ↦ by simp [h]

/-- A reader takes these bytes and nothing after them, and comes to a value or a refusal. -/
def Yields (r : Reader α) (bs : List UInt8) (x : Except Fault α) : Prop :=
  ∀ rest, r.run (bs ++ rest) = (x, rest)

theorem Yields.outcome {x : Except Fault α} (h : Yields r bs x) : r.outcome bs = x :=
  Attempt.outcome_of_run (by simpa using h [])

/-- What follows only looks at the value, and may refuse it. -/
theorem Reads.bind_yields {x : Except Fault β} {k : α → Reader β} (h : Reads r bs a)
    (hk : k a = .ofExcept x) : Yields (r >>= k) bs x := by
  intro rest
  rw [Attempt.run_bind_of_ok (h rest), hk, Attempt.run_ofExcept]

/-! ## Parts of items -/

theorem run_peek (t : Tag) (rest : List UInt8) :
    peek.run (t.byte :: rest) = (.ok t, t.byte :: rest) := by
  simp [peek, Attempt.run_bind]

theorem Reads.expect (t : Tag) : Reads (expect t) [t.byte] () := fun rest ↦ by
  have h : peek.run (t.byte :: rest) = _ := run_peek t rest
  simp [Reader.expect, Attempt.run_bind, h]

theorem Reads.take {n : Nat} (h : bs.length = n) : Reads (take n) bs bs := fun rest ↦ by
  have hn : ¬(bs ++ rest).length < n := by simp [h]
  subst h
  simp [Reader.take, Attempt.run_bind, Attempt.run_map, -List.length_append, if_neg hn]
  rfl

theorem Reads.number {width n : Nat} (h : n < Nat.pow 256 width) :
    Reads (number width) (littleEndian width n) n := by
  have htake := (Reads.take (length_littleEndian width n)).mapped ofLittleEndian
  rwa [ofLittleEndian_littleEndian h] at htake

theorem Reads.body (h : bs.length < lengthLimit) :
    Reads body (littleEndian 4 bs.length ++ bs) bs := by
  have hnumber : Reads (Reader.number 4) (littleEndian 4 bs.length) bs.length := .number h
  exact hnumber.bind (.take rfl)

/-! ## Items -/

/-- An item with a length is read by passing over its tag and taking its body. -/
theorem Reads.sized (t : Tag) (h : bs.length < lengthLimit) :
    Reads (do Reader.expect t; Reader.body) (Writer.sized t bs) bs :=
  (Reads.expect t).bind (.body h)

theorem Reads.unit : Reads unit [Tag.unit.byte] () := .expect .unit

theorem Reads.bool (v : Bool) : Reads bool [(if v then Tag.true else Tag.false).byte] v :=
  fun rest ↦ by
    have h (t : Tag) : peek.run (t.byte :: rest) = _ := run_peek t rest
    cases v <;> simp [Reader.bool, Attempt.run_bind, Attempt.run_map, h, Except.map]

/-- An item of fixed size is read by passing over its tag and taking a number. -/
theorem Reads.fixed (t : Tag) (width : Nat) {n : Nat} (h : n < Nat.pow 256 width) (f : Nat → α) :
    Reads (do Reader.expect t; return f (← Reader.number width))
      (t.byte :: littleEndian width n) (f n) :=
  (Reads.expect t).bind ((Reads.number h).bind_nil (.pure (f n)))

theorem Reads.u32 (v : UInt32) : Reads u32 (Tag.u32.byte :: littleEndian 4 v.toNat) v := by
  have h := Reads.fixed .u32 4 v.toNat_lt UInt32.ofNat
  rwa [UInt32.ofNat_toNat] at h

theorem Reads.s64 (v : Int64) : Reads s64 (s64Item v) v := by
  have h := Reads.fixed .s64 8 v.toUInt64.toNat_lt fun n ↦ (UInt64.ofNat n).toInt64
  rwa [UInt64.ofNat_toNat] at h

theorem Reads.f64 (v : Binary64) : Reads f64 (Tag.f64.byte :: littleEndian 8 v.bits.toNat) v := by
  have h := Reads.fixed .f64 8 v.bits.toNat_lt fun n ↦ Binary64.mk (.ofNat n)
  rwa [UInt64.ofNat_toNat] at h

theorem Reads.str {s : String} (h : (Text.bytes s).length < lengthLimit) :
    Reads str (strItem s) s :=
  (Reads.expect .string).bind <| (Reads.body h).bind_nil <| by
    rw [Text.ofBytes?_bytes]
    exact .pure s

/-- A variant opens into its name and the bytes of its item. -/
theorem Reads.variant {name : String} {item : List UInt8}
    (h : (variantItem name item).length < lengthLimit + 5) :
    Reads variant (variantItem name item) (name, item) := by
  rw [length_variantItem] at h
  have hstr : Reader.str.run (strItem name ++ item) = (.ok name, item) := Reads.str (by omega) item
  have hbody : Reads Reader.body _ (strItem name ++ item) := .body (by
    rw [List.length_append, length_strItem]
    omega)
  refine (Reads.expect .variant).bind (hbody.bind_nil ?_)
  rw [hstr]
  exact .pure _

theorem Reads.bytes (h : bs.length < lengthLimit) :
    Reads Reader.bytes (Writer.sized .bytes bs) bs := .sized .bytes h

theorem Reads.list (h : bs.length < lengthLimit) :
    Reads Reader.list (Writer.sized .list bs) bs := .sized .list h

theorem Reads.map (h : bs.length < lengthLimit) : Reads Reader.map (Writer.sized .map bs) bs :=
  .sized .map h

/-! ## Bodies -/

theorem Reads.skip {name : String} {item : List UInt8}
    (h : (variantItem name item).length < lengthLimit + 5) :
    Reads skip (variantItem name item) () := fun rest ↦ by
  have hpeek (cs : List UInt8) : peek.run (Tag.variant.byte :: cs) = _ := run_peek .variant cs
  have hbody : Reads Reader.body _ (strItem name ++ item) := .body (by
    rw [length_variantItem] at h
    rw [List.length_append, length_strItem]
    omega)
  simp only [variantItem, Writer.sized, List.cons_append, Reader.skip, Attempt.run_bind, hpeek,
    Attempt.run_modify, List.tail_cons]
  exact Attempt.run_map_of_ok (hbody rest) _

theorem Reads.nextItem {name : String} {item : List UInt8}
    (h : (variantItem name item).length < lengthLimit + 5) :
    Reads nextItem (variantItem name item) (some (variantItem name item)) := fun rest ↦ by
  have hne : variantItem name item ++ rest ≠ [] := List.cons_ne_nil _ _
  simp [Reader.nextItem, Attempt.run_bind, Attempt.run_map, hne, Reads.skip h rest, Except.map]

theorem Reads.nextEntry {name : String} {item : List UInt8}
    (h : (variantItem name item).length < lengthLimit + 5) :
    Reads nextEntry (variantItem name item) (some (name, item)) := fun rest ↦ by
  have hne : variantItem name item ++ rest ≠ [] := List.cons_ne_nil _ _
  have hpeek : peek.run (variantItem name item ++ rest) =
      (.ok .variant, variantItem name item ++ rest) := run_peek .variant _
  have hvariant := Reads.variant h rest
  simp [Reader.nextEntry, Attempt.run_bind, hne, hpeek, Attempt.run_map, hvariant, Except.map]

section

variable {next : Reader (Option α)} {cs : List γ} {g : γ → List UInt8} {f : γ → α}

/-- Items that are read take bytes. -/
theorem length_le_length_flatMap (hnil : next.run [] = (.ok none, []))
    (h : ∀ c ∈ cs, Reads next (g c) (some (f c))) : cs.length ≤ (cs.flatMap g).length := by
  induction cs with
  | nil => exact Nat.zero_le _
  | cons c cs ih =>
    have hc : 0 < (g c).length := by
      refine List.length_pos_iff.mpr ?_
      intro he
      have hread := h c List.mem_cons_self []
      rw [he, List.nil_append, hnil] at hread
      cases hread
    have hcs := ih fun d hd ↦ h d (List.mem_cons_of_mem c hd)
    simp only [List.length_cons, List.flatMap_cons, List.length_append]
    omega

/-- Going through a body that holds items in a row is a fold over the items. -/
theorem foldBody_flatMap {step : β → α → Except Fault β} (hnil : next.run [] = (.ok none, []))
    {fuel : Nat} (h : ∀ c ∈ cs, Reads next (g c) (some (f c))) (hf : cs.length ≤ fuel) (b : β) :
    foldBody next step fuel b (cs.flatMap g) = cs.foldlM (fun b c ↦ step b (f c)) b := by
  induction cs generalizing fuel b with
  | nil =>
    cases fuel with
    | zero => rfl
    | succ fuel => simp only [foldBody, List.flatMap_nil, hnil]; rfl
  | cons c cs ih =>
    obtain ⟨fuel, rfl⟩ := Nat.exists_eq_add_of_le' (Nat.lt_of_lt_of_le (Nat.succ_pos _) hf)
    have hfuel : cs.length ≤ fuel := Nat.le_of_succ_le_succ hf
    have hrest : ∀ c ∈ cs, Reads next (g c) (some (f c)) :=
      fun d hd ↦ h d (List.mem_cons_of_mem c hd)
    simp only [foldBody, List.flatMap_cons, h c List.mem_cons_self _, List.foldlM_cons]
    exact bind_congr fun b ↦ ih hrest hfuel b

theorem run_nextItem_nil : nextItem.run [] = (.ok none, []) := rfl

theorem run_nextEntry_nil : nextEntry.run [] = (.ok none, []) := rfl

/-- Going through the body of a list folds over its items. -/
theorem foldItems_flatMap {step : β → List UInt8 → Except Fault β}
    (h : ∀ c ∈ cs, Reads nextItem (g c) (some (g c))) (b : β) :
    foldItems step b (cs.flatMap g) = cs.foldlM (fun b c ↦ step b (g c)) b :=
  foldBody_flatMap run_nextItem_nil h (length_le_length_flatMap run_nextItem_nil h) b

/-- Going through the body of a map folds over its entries. -/
theorem foldEntries_flatMap {step : β → String → List UInt8 → Except Fault β}
    {f : γ → String × List UInt8} (h : ∀ c ∈ cs, Reads nextEntry (g c) (some (f c))) (b : β) :
    foldEntries step b (cs.flatMap g) = cs.foldlM (fun b c ↦ step b (f c).1 (f c).2) b :=
  foldBody_flatMap run_nextEntry_nil h (length_le_length_flatMap run_nextEntry_nil h) b

/-- Going through a body of named entries takes in one after the other. -/
theorem foldEntries_entries {step : β → String → List UInt8 → Except Fault β}
    (entries : List (String × List UInt8))
    (h : (entries.flatMap fun e ↦ variantItem e.1 e.2).length < lengthLimit) (b : β) :
    foldEntries step b (entries.flatMap fun e ↦ variantItem e.1 e.2) =
      entries.foldlM (fun b e ↦ step b e.1 e.2) b := by
  refine foldEntries_flatMap (fun e he ↦ .nextEntry ?_) b
  obtain ⟨before, after, rfl⟩ := List.append_of_mem he
  rw [List.flatMap_append, List.flatMap_cons, List.length_append, List.length_append] at h
  omega

/-- Going through a body of two entries takes in the one and then the other. -/
theorem foldEntries_pair {step : β → String → List UInt8 → Except Fault β} {m n : String}
    {as bs : List UInt8} (h : (variantItem m as ++ variantItem n bs).length < lengthLimit) (b : β) :
    foldEntries step b (variantItem m as ++ variantItem n bs) = (do step (← step b m as) n bs) := by
  have hfold : foldEntries step b _ = _ :=
    foldEntries_entries [(m, as), (n, bs)] (by simpa using h) b
  simpa using hfold

end

/-! ## Whole items -/

theorem outcome_str {s : String} (h : (strItem s).length < lengthLimit + 5) :
    str.outcome (strItem s) = .ok s := by
  rw [length_strItem] at h
  exact (Reads.str (by omega)).outcome

theorem outcome_list (h : bs.length < lengthLimit) :
    list.outcome (Writer.sized .list bs) = .ok bs := (Reads.list h).outcome

theorem outcome_map (h : bs.length < lengthLimit) :
    map.outcome (Writer.sized .map bs) = .ok bs := (Reads.map h).outcome

end Interchange.Tlv.Reader
