import Interchange.Proofs.Tlv.Writing

/-!
# Items

An item with everything in it, as a tree: what the bytes of a writer stand for.  A list holds items,
a map holds named items, each in a variant of its own, and a variant has a name and holds one item.
An item fits if every length within is one that four bytes hold, so that what stands in front of a
body is the body's length.

A frame of a writer holds items, as many as it counts; those of a map are variants, and a variant
has its name in front and holds one item at most.  A writer is sound if every frame holds items, the
outermost one is the root, and every other frame is one that the frame around it admits.
-/

namespace Interchange.Tlv

open Writer

/-- An item with everything in it. -/
inductive Item where
  | bool (value : Bool)
  | u32 (value : UInt32)
  | s64 (value : Int64)
  | f64 (value : Binary64)
  | unit
  | str (value : String)
  | bytes (value : List UInt8)
  | list (items : List Item)
  | map (entries : List (String × Item))
  | variant (name : String) (item : Item)

namespace Item

def tag : Item → Tag
  | bool v => if v then .true else .false
  | u32 _ => .u32
  | s64 _ => .s64
  | f64 _ => .f64
  | unit => .unit
  | str _ => .string
  | bytes _ => .bytes
  | list _ => .list
  | map _ => .map
  | variant _ _ => .variant

mutual

/-- The bytes of an item. -/
def layout : Item → List UInt8
  | bool v => [(if v then Tag.true else Tag.false).byte]
  | u32 v => Tag.u32.byte :: littleEndian 4 v.toNat
  | s64 v => s64Item v
  | f64 v => Tag.f64.byte :: littleEndian 8 v.bits.toNat
  | unit => [Tag.unit.byte]
  | str v => strItem v
  | bytes v => sized .bytes v
  | list items => sized .list (itemsLayout items)
  | map entries => sized .map (entriesLayout entries)
  | variant name item => variantItem name item.layout

def itemsLayout : List Item → List UInt8
  | [] => []
  | item :: items => item.layout ++ itemsLayout items

def entriesLayout : List (String × Item) → List UInt8
  | [] => []
  | (name, item) :: entries => variantItem name item.layout ++ entriesLayout entries

end

theorem itemsLayout_eq_flatMap (items : List Item) : itemsLayout items = items.flatMap layout := by
  induction items with
  | nil => rfl
  | cons item items ih => rw [itemsLayout, ih]; rfl

theorem entriesLayout_eq_flatMap (entries : List (String × Item)) :
    entriesLayout entries = (entries.map fun e ↦ variant e.1 e.2).flatMap layout := by
  induction entries with
  | nil => rfl
  | cons e entries ih => rw [entriesLayout, ih]; rfl

mutual

/-- Whether four bytes hold the length of every string, byte string and body within. -/
def Fits : Item → Prop
  | bool _ | u32 _ | s64 _ | f64 _ | unit => True
  | str v => (Text.bytes v).length < lengthLimit
  | bytes v => v.length < lengthLimit
  | list items => (itemsLayout items).length < lengthLimit ∧ ItemsFit items
  | map entries => (entriesLayout entries).length < lengthLimit ∧ EntriesFit entries
  | variant name item => (strItem name ++ item.layout).length < lengthLimit ∧ item.Fits

def ItemsFit : List Item → Prop
  | [] => True
  | item :: items => item.Fits ∧ ItemsFit items

def EntriesFit : List (String × Item) → Prop
  | [] => True
  | (name, item) :: entries =>
    ((strItem name ++ item.layout).length < lengthLimit ∧ item.Fits) ∧ EntriesFit entries

end

theorem itemsFit_iff {items : List Item} : ItemsFit items ↔ ∀ item ∈ items, item.Fits := by
  induction items with
  | nil => simp [ItemsFit]
  | cons item items ih => simp [ItemsFit, ih]

theorem entriesFit_iff {entries : List (String × Item)} :
    EntriesFit entries ↔ ∀ e ∈ entries, (variant e.1 e.2).Fits := by
  induction entries with
  | nil => simp [EntriesFit]
  | cons e entries ih => simp only [EntriesFit, ih, List.forall_mem_cons, Fits]

/-- Items that are variants are the entries of a map. -/
theorem exists_entries {items : List Item} (h : ∀ item ∈ items, item.tag = .variant) :
    ∃ entries : List (String × Item), items = entries.map fun e ↦ variant e.1 e.2 := by
  induction items with
  | nil => exact ⟨[], rfl⟩
  | cons item items ih =>
    obtain ⟨entries, rfl⟩ := ih fun i hi ↦ h i (List.mem_cons_of_mem item hi)
    have htag := h item List.mem_cons_self
    cases item with
    | variant name item => exact ⟨(name, item) :: entries, rfl⟩
    | bool v => cases v <;> cases htag
    | _ => cases htag

end Item

/-! ## Frames -/

/-- The tag of a container of a kind. -/
def Scope.tag? : Scope → Option Tag
  | root => none
  | list => some .list
  | map => some .map
  | variant => some .variant

/-- Whether these bytes may stand in front of these items in a frame of a kind. -/
def Scope.Permits : Scope → List UInt8 → List Item → Prop
  | root, head, _ | list, head, _ => head = []
  | map, head, items => head = [] ∧ ∀ item ∈ items, item.tag = .variant
  | variant, head, items => (∃ name, head = strItem name) ∧ items.length ≤ 1

namespace Frame

/-- Whether a frame holds these items after these bytes. -/
structure Holds (f : Frame) (head : List UInt8) (items : List Item) : Prop where
  permits : f.scope.Permits head items
  count : f.count = items.length
  body : f.body.toList = head ++ items.flatMap Item.layout
  fits : ∀ item ∈ items, item.Fits

variable {f : Frame} {head : List UInt8} {items : List Item} {tag : Tag} {scope : Scope}

theorem admits_eq_ok : f.admits tag = .ok () ↔
    (f.scope = .map → tag = .variant) ∧ (f.scope = .variant → f.count = 0) := by
  unfold admits
  cases f.scope <;> simp

theorem Holds.opened (h : scope ≠ .variant) : (opened scope).Holds [] [] where
  permits := by cases scope <;> simp_all [Frame.opened, Scope.Permits]
  count := rfl
  body := rfl
  fits := by simp

theorem Holds.named (name : String) :
    ((Frame.opened .variant).append (strItem name)).Holds (strItem name) [] where
  permits := ⟨⟨name, rfl⟩, Nat.zero_le 1⟩
  count := rfl
  body := by simp [Frame.opened, append]
  fits := by simp

/-- A frame takes any item that it admits. -/
theorem Holds.push {item : Item} (h : f.Holds head items) (hi : item.Fits)
    (ha : f.admits item.tag = .ok ()) : (f.push item.layout).Holds head (items ++ [item]) where
  permits := by
    obtain ⟨hmap, hvariant⟩ := admits_eq_ok.mp ha
    have hp := h.permits
    have hc := h.count
    rw [scope_push]
    cases hs : f.scope <;> rw [hs] at hp
    · exact hp
    · exact hp
    · refine ⟨hp.1, fun i hi ↦ ?_⟩
      rcases List.mem_append.mp hi with hi | hi
      · exact hp.2 i hi
      · rw [List.mem_singleton.mp hi, hmap hs]
    · refine ⟨hp.1, ?_⟩
      rw [hvariant hs] at hc
      simp [← hc]
  count := by simp [h.count]
  body := by simp [h.body]
  fits := by simpa [or_imp, forall_and] using ⟨h.fits, hi⟩

/-- A frame that may be closed is an item. -/
theorem Holds.closed (h : f.Holds head items) (ht : f.scope.tag? = some tag)
    (hc : f.scope = .variant → f.count ≠ 0) (hl : f.body.size < lengthLimit) :
    ∃ item : Item, item.tag = tag ∧ item.Fits ∧ item.layout = sized tag f.body.toList := by
  have hp := h.permits
  have hbody := h.body
  have hcount := h.count
  rw [← Array.length_toList] at hl
  cases hs : f.scope <;> rw [hs] at hp ht <;> cases ht
  · cases hp
    rw [List.nil_append, ← Item.itemsLayout_eq_flatMap] at hbody
    rw [hbody] at hl ⊢
    exact ⟨.list items, rfl, ⟨hl, Item.itemsFit_iff.mpr h.fits⟩, rfl⟩
  · obtain ⟨rfl, hvariants⟩ := hp
    obtain ⟨entries, rfl⟩ := Item.exists_entries hvariants
    rw [List.nil_append, ← Item.entriesLayout_eq_flatMap] at hbody
    rw [hbody] at hl ⊢
    have hfits := List.forall_mem_map.mp h.fits
    exact ⟨.map entries, rfl, ⟨hl, Item.entriesFit_iff.mpr hfits⟩, rfl⟩
  · obtain ⟨⟨name, rfl⟩, hle⟩ := hp
    rw [hcount] at hc
    obtain ⟨item, rfl⟩ :=
      List.length_eq_one_iff.mp (Nat.le_antisymm hle (Nat.pos_of_ne_zero (hc hs)))
    rw [List.flatMap_singleton] at hbody
    rw [hbody] at hl ⊢
    exact ⟨.variant name item, rfl, ⟨hl, h.fits item List.mem_cons_self⟩, rfl⟩

end Frame

/-! ## Writers -/

/-- Whether every frame holds items, down to the root, and each is one the frame around it
admits. -/
inductive Stacked : Frame → List Frame → Prop
  | root {f : Frame} {head : List UInt8} {items : List Item} (hs : f.scope = .root)
      (hf : f.Holds head items) : Stacked f []
  | inside {f outer : Frame} {below : List Frame} {head : List UInt8} {items : List Item}
      {tag : Tag} (hf : f.Holds head items) (ht : f.scope.tag? = some tag)
      (ha : outer.admits tag = .ok ()) (ho : Stacked outer below) : Stacked f (outer :: below)

/-- Whether a writer's frames are as calls may leave them. -/
def Writer.Sound (w : Writer) : Prop := Stacked w.top w.below

namespace Writer

theorem sound_empty : empty.Sound := .root rfl (.opened (by decide))

/-- An item that is admitted keeps a writer sound. -/
theorem Sound.push {w : Writer} (h : w.Sound) {item : Item} (hi : item.Fits)
    (ha : w.top.admits item.tag = .ok ()) : ({ w with top := w.top.push item.layout }).Sound := by
  obtain ⟨top, below⟩ := w
  cases h with
  | root hs hf => exact .root hs (hf.push hi ha)
  | inside hf ht hadmits ho => exact .inside (hf.push hi ha) ht hadmits ho

/-- A container that is opened where it is admitted keeps a writer sound. -/
theorem Sound.opened {w : Writer} (h : w.Sound) {f : Frame} {head : List UInt8} {tag : Tag}
    (hf : f.Holds head []) (ht : f.scope.tag? = some tag) (ha : w.top.admits tag = .ok ()) :
    Sound ⟨f, w.top :: w.below⟩ := .inside hf ht ha h

/-- Closing a container keeps a writer sound. -/
theorem Sound.closed {f outer : Frame} {below : List Frame} {tag : Tag}
    (h : Sound ⟨f, outer :: below⟩) (ht : f.scope.tag? = some tag)
    (hc : f.scope = .variant → f.count ≠ 0) (hl : f.body.size < lengthLimit) :
    Sound ⟨outer.push (sized tag f.body.toList), below⟩ := by
  cases h with
  | inside hf ht' ha ho =>
    cases ht.symm.trans ht'
    obtain ⟨item, rfl, hfits, hlayout⟩ := hf.closed ht hc hl
    rw [← hlayout]
    exact Sound.push (w := ⟨outer, below⟩) ho hfits ha

/-- The bytes of a sound writer with nothing open are those of items, as many as the root counts. -/
theorem Sound.items {w : Writer} (h : w.Sound) (hb : w.below = []) :
    ∃ items : List Item, (∀ item ∈ items, item.Fits) ∧
      w.top.body.toList = items.flatMap Item.layout ∧ items.length = w.top.count := by
  obtain ⟨top, below⟩ := w
  cases h with
  | root hs hf =>
    have hp := hf.permits
    rw [hs] at hp
    cases hp
    exact ⟨_, hf.fits, by simpa using hf.body, hf.count.symm⟩
  | inside => cases hb

end Writer

end Interchange.Tlv
