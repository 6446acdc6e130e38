import Interchange.Tlv.Writer

/-!
# What steps of writing do

A step either puts the bytes of a number of items into the innermost frame and touches nothing else,
or fails for a reason.  `Appends` and `Refuses` say so for every writer that has room for the step,
whatever is open around the frame, and there is one lemma for each way to build steps from steps.
So what a step writes is found by going through its text once.
-/

namespace Interchange.Tlv

/-- Whether a frame is of a kind and has room for so many items. -/
structure Frame.HasRoom (f : Frame) (scope : Scope) (n : Nat) : Prop where
  isScope : f.scope = scope
  /-- Only variants are bounded. -/
  room : scope = .variant → f.count + n ≤ 1

namespace Frame

/-- A frame after so many more items with these bytes. -/
def grow (f : Frame) (n : Nat) (bytes : List UInt8) : Frame :=
  { f with count := f.count + n, body := f.body ++ bytes }

variable {f : Frame} {scope : Scope} {m n : Nat} {a b : List UInt8}

theorem grow_one (f : Frame) (bytes : List UInt8) : f.grow 1 bytes = f.push bytes := rfl

theorem grow_grow : (f.grow m a).grow n b = f.grow (m + n) (a ++ b) := by
  simp [grow, Nat.add_assoc, ← Array.toList_inj]

theorem HasRoom.opened (scope : Scope) (h : scope ≠ .variant ∨ n ≤ 1) :
    (opened scope).HasRoom scope n :=
  ⟨rfl, fun hs ↦ by simpa [Frame.opened] using h.resolve_left (not_not_intro hs)⟩

theorem HasRoom.mono (h : f.HasRoom scope n) (hm : m ≤ n) : f.HasRoom scope m :=
  ⟨h.isScope, fun hs ↦ by have := h.room hs; omega⟩

theorem HasRoom.grow (h : f.HasRoom scope (m + n)) : (f.grow m a).HasRoom scope n :=
  ⟨h.isScope, fun hs ↦ by have := h.room hs; simp only [Frame.grow]; omega⟩

/-- A frame with room takes any item, but a map takes only variants. -/
theorem HasRoom.admits (h : f.HasRoom scope 1) {tag : Tag} (ht : scope = .map → tag = .variant) :
    f.admits tag = .ok () := by
  obtain ⟨hs, hr⟩ := h
  subst hs
  unfold Frame.admits
  split
  · rfl
  · rfl
  · next he => exact if_pos (ht he)
  · next he => exact if_neg (by have := hr he; omega)

end Frame

namespace Writer

/-- A step puts the bytes of so many items into every frame of a kind that has room for them. -/
def Appends (scope : Scope) (x : Step Unit) (n : Nat) (bytes : List UInt8) : Prop :=
  ∀ f below, f.HasRoom scope n → x.run ⟨f, below⟩ = (.ok (), ⟨f.grow n bytes, below⟩)

/-- A step fails for a reason in every frame of a kind that has room for an item. -/
def Refuses (scope : Scope) (x : Step Unit) (e : Fault) : Prop :=
  ∀ f below, f.HasRoom scope 1 → ∃ w, x.run ⟨f, below⟩ = (.error e, w)

variable {scope : Scope} {x y : Step Unit} {m n : Nat} {a b : List UInt8} {e : Fault}

/-! ## Steps one after another -/

theorem Appends.pure (scope : Scope) : Appends scope (pure ()) 0 [] := fun f below _ ↦ by
  simp [Frame.grow]

theorem Appends.seq (hx : Appends scope x m a) (hy : Appends scope y n b) :
    Appends scope (do x; y) (m + n) (a ++ b) := fun f below h ↦ by
  rw [Attempt.run_bind_of_ok (hx f below (h.mono (Nat.le_add_right m n))),
    hy _ below h.grow, Frame.grow_grow]

theorem Refuses.throw (scope : Scope) (e : Fault) : Refuses scope (throw e) e :=
  fun f below _ ↦ ⟨⟨f, below⟩, rfl⟩

theorem Refuses.seq (hx : Refuses scope x e) : Refuses scope (do x; y) e := fun f below h ↦ by
  obtain ⟨w, hw⟩ := hx f below h
  exact ⟨w, Attempt.run_bind_of_error hw _⟩

/-- What comes before a failing step and writes something does not keep it from failing. -/
theorem Refuses.after (hy : Refuses scope y e) (hs : scope ≠ .variant)
    (hx : Appends scope x m a) : Refuses scope (do x; y) e := fun f below h ↦ by
  have room {k : Nat} : f.HasRoom scope k := ⟨h.isScope, fun hv ↦ absurd hv hs⟩
  obtain ⟨w, hw⟩ := hy (f.grow m a) below room.grow
  exact ⟨w, by rw [Attempt.run_bind_of_ok (hx f below room), hw]⟩

section

variable {α : Type} {as : List α} {f : α → Step Unit} {g : α → List UInt8}

theorem Appends.forM (h : ∀ a ∈ as, Appends scope (f a) 1 (g a)) :
    Appends scope (forM as f) as.length (as.flatMap g) := by
  induction as with
  | nil => exact .pure scope
  | cons a as ih =>
    have hseq := (h a List.mem_cons_self).seq (ih fun b hb ↦ h b (List.mem_cons_of_mem a hb))
    simpa [List.forM_cons, Nat.add_comm] using hseq

/-- A loop fails as the first of its steps that fails, if each step either writes or fails so. -/
theorem Refuses.forM (hs : scope ≠ .variant)
    (h : ∀ a ∈ as, Appends scope (f a) 1 (g a) ∨ Refuses scope (f a) e)
    (hr : ∃ a ∈ as, Refuses scope (f a) e) : Refuses scope (forM as f) e := by
  induction as with
  | nil => obtain ⟨a, ha, -⟩ := hr; cases ha
  | cons a as ih =>
    rw [List.forM_cons]
    rcases h a List.mem_cons_self with ha | ha
    · obtain ⟨b, hb, hfb⟩ := hr
      rcases List.mem_cons.mp hb with rfl | hb
      · exact hfb.seq
      · exact (ih (fun c hc ↦ h c (List.mem_cons_of_mem a hc)) ⟨b, hb, hfb⟩).after hs ha
    · exact ha.seq

end

/-! ## Plain items -/

theorem Appends.put {tag : Tag} (ht : scope = .map → tag = .variant) (payload : List UInt8) :
    Appends scope (put tag payload) 1 (tag.byte :: payload) := fun f below h ↦ by
  simp [Writer.put, Attempt.run_bind, h.admits ht, Frame.grow_one]

theorem Appends.putSized {tag : Tag} {body : List UInt8} (ht : scope = .map → tag = .variant)
    (hb : body.length < lengthLimit) :
    Appends scope (putSized tag body) 1 (sized tag body) := fun f below h ↦ by
  simp [Writer.putSized, Nat.not_le.mpr hb, Attempt.run_bind, h.admits ht, Frame.grow_one]

/-- The bytes of a string. -/
def strItem (s : String) : List UInt8 := sized .string (Text.bytes s)

/-- The bytes of an integer. -/
def s64Item (v : Int64) : List UInt8 := Tag.s64.byte :: littleEndian 8 v.toUInt64.toNat

@[simp] theorem length_s64Item (v : Int64) : (s64Item v).length = 9 := by simp [s64Item]

theorem Appends.s64 (hs : scope ≠ .map) (v : Int64) : Appends scope (s64 v) 1 (s64Item v) :=
  .put (absurd · hs) _

theorem Appends.str {s : String} (hs : scope ≠ .map) (hb : (Text.bytes s).length < lengthLimit) :
    Appends scope (str s) 1 (strItem s) :=
  .putSized (absurd · hs) hb

/-! ## Containers -/

theorem run_openScope {f : Frame} (h : f.HasRoom scope 1) {tag : Tag}
    (ht : scope = .map → tag = .variant) (inner : Scope) (below : List Frame) :
    (openScope tag inner).run ⟨f, below⟩ = (.ok (), ⟨.opened inner, f :: below⟩) := by
  simp [openScope, Attempt.run_bind, h.admits ht]

/-- A container is closed into the frame around it, as one item. -/
theorem run_closeScope {f g : Frame} (hf : f.scope = scope) {tag : Tag}
    (hc : scope = .variant → f.count ≠ 0) (hb : f.body.size < lengthLimit) (below : List Frame) :
    (closeScope tag scope).run ⟨f, g :: below⟩ =
      (.ok (), ⟨g.push (sized tag f.body.toList), below⟩) := by
  have hc' : ¬(scope = .variant ∧ f.count = 0) := fun h ↦ hc h.1 h.2
  simp [closeScope, Attempt.run_bind, hf, hc', Nat.not_le.mpr hb]

section

variable {inside : Step Unit} {body : List UInt8} {name : String} {tag : Tag} {inner : Scope}

/-- A container around what is written inside is one item. -/
theorem Appends.within (ht : scope = .map → tag = .variant) (hinner : inner ≠ .variant)
    (hi : Appends inner inside n body) (hb : body.length < lengthLimit) :
    Appends scope (do openScope tag inner; inside; closeScope tag inner) 1 (sized tag body) :=
  fun f below h ↦ by
  have hscope : ((Frame.opened inner).grow n body).scope = inner := rfl
  rw [Attempt.run_bind_of_ok (run_openScope h ht inner below),
    Attempt.run_bind_of_ok (hi _ (f :: below) (.opened _ (.inl hinner))),
    run_closeScope hscope (absurd · hinner) (by simpa [Frame.grow, Frame.opened] using hb)]
  simp [Frame.grow, Frame.opened, Frame.push]

theorem Appends.list (hs : scope ≠ .map) (hi : Appends .list inside n body)
    (hb : body.length < lengthLimit) : Appends scope (list inside) 1 (sized .list body) :=
  .within (absurd · hs) (by decide) hi hb

theorem Appends.map (hs : scope ≠ .map) (hi : Appends .map inside n body)
    (hb : body.length < lengthLimit) : Appends scope (map inside) 1 (sized .map body) :=
  .within (absurd · hs) (by decide) hi hb

/-- The bytes of a variant with a name. -/
def variantItem (name : String) (body : List UInt8) : List UInt8 :=
  sized .variant (strItem name ++ body)

@[simp] theorem length_sized (tag : Tag) (body : List UInt8) :
    (sized tag body).length = body.length + 5 := by
  simp [sized]
  omega

@[simp] theorem length_strItem (s : String) :
    (strItem s).length = (Text.bytes s).length + 5 := length_sized .string _

@[simp] theorem length_variantItem (name : String) (body : List UInt8) :
    (variantItem name body).length = (Text.bytes name).length + body.length + 10 := by
  simp [variantItem]
  omega

/-- A variant opens with its name in it, which is not an item. -/
theorem run_variantBegin {f : Frame} (h : f.HasRoom scope 1)
    (hn : (Text.bytes name).length < lengthLimit) (below : List Frame) :
    (variantBegin name).run ⟨f, below⟩ =
      (.ok (), ⟨(Frame.opened .variant).append (strItem name), f :: below⟩) := by
  have happ : Appends .variant (str name) 1 (strItem name) := .str (by decide) hn
  have hstr := happ (.opened .variant) (f :: below) (.opened _ (.inr (Nat.le_refl _)))
  unfold variantBegin
  rw [Attempt.run_bind_of_ok (run_openScope h (fun _ ↦ rfl) .variant below),
    Attempt.run_bind_of_ok hstr]
  rfl

/-- A variant is written if its body, which starts with the name, is not too long. -/
theorem Appends.variant (hi : Appends .variant inside 1 body)
    (hb : (variantItem name body).length < lengthLimit + 5) :
    Appends scope (variant name inside) 1 (variantItem name body) := fun f below h ↦ by
  rw [length_variantItem] at hb
  have hn : (Text.bytes name).length < lengthLimit := by omega
  have hin := hi ((Frame.opened .variant).append (strItem name)) (f :: below)
    ⟨rfl, fun _ ↦ Nat.le_refl _⟩
  have hscope : (((Frame.opened .variant).append (strItem name)).grow 1 body).scope =
    .variant := rfl
  unfold Writer.variant variantEnd
  rw [Attempt.run_bind_of_ok (run_variantBegin h hn below), Attempt.run_bind_of_ok hin,
    run_closeScope hscope (fun _ ↦ Nat.succ_ne_zero 0)
      (by simp [Frame.grow, Frame.append, Frame.opened]; omega)]
  simp [Frame.grow, Frame.opened, Frame.append, Frame.push, variantItem]

/-- A failure inside a container is a failure of the whole. -/
theorem Refuses.within (ht : scope = .map → tag = .variant) (hi : Refuses inner inside e) :
    Refuses scope (do openScope tag inner; inside; closeScope tag inner) e := fun f below h ↦ by
  obtain ⟨w, hw⟩ := hi (.opened inner) (f :: below) (.opened _ (.inr (Nat.le_refl _)))
  exact ⟨w, by rw [Attempt.run_bind_of_ok (run_openScope h ht inner below),
    Attempt.run_bind_of_error hw]⟩

theorem Refuses.list (hs : scope ≠ .map) (hi : Refuses .list inside e) :
    Refuses scope (list inside) e := .within (absurd · hs) hi

theorem Refuses.map (hs : scope ≠ .map) (hi : Refuses .map inside e) :
    Refuses scope (map inside) e := .within (absurd · hs) hi

theorem Refuses.variant (hn : (Text.bytes name).length < lengthLimit)
    (hi : Refuses .variant inside e) : Refuses scope (variant name inside) e := fun f below h ↦ by
  obtain ⟨w, hw⟩ := hi ((Frame.opened .variant).append (strItem name)) (f :: below)
    ⟨rfl, fun _ ↦ Nat.le_refl _⟩
  unfold Writer.variant
  exact ⟨w, by rw [Attempt.run_bind_of_ok (run_variantBegin h hn below),
    Attempt.run_bind_of_error hw]⟩

end

/-! ## All bytes of a step -/

theorem Appends.bytesOf (hx : Appends .root x n a) : bytesOf x = .ok a := by
  have h := hx (.opened .root) [] (.opened _ (.inl (by decide)))
  simp only [Writer.bytesOf, Writer.empty, h]
  simp [finish, Frame.grow, Frame.opened]

theorem Refuses.bytesOf (hx : Refuses .root x e) : bytesOf x = .error e := by
  obtain ⟨w, hw⟩ := hx (.opened .root) [] (.opened _ (.inl (by decide)))
  simp only [Writer.bytesOf, Writer.empty, hw]

end Writer

end Interchange.Tlv
