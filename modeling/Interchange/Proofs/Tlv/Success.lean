import Interchange.Proofs.Attempt
import Interchange.Proofs.Tlv.Calls
import Interchange.Proofs.Tlv.Literal

/-!
# What has been written

A step that succeeds has put the bytes of its items into the innermost frame, whatever room there
was for them and however long they are: `Yields` says so, and passes from steps to what is built
from them.  The length of a container is checked as it is closed, so a descriptor or a literal that
was written had a body that fits, and was within the limit of nesting.
-/

namespace Interchange.Tlv.Writer

open Attempt

/-- A step that succeeds has put the bytes of so many items into the innermost frame. -/
def Yields (x : Step Unit) (n : Nat) (bytes : List UInt8) : Prop :=
  ∀ ⦃f below w⦄, x.run ⟨f, below⟩ = (.ok (), w) → w = ⟨f.grow n bytes, below⟩

variable {x y inside : Step Unit} {m n : Nat} {a b body : List UInt8} {tag : Tag} {scope : Scope}
  {name : String} {w w' : Writer}

theorem Yields.pure : Yields (pure ()) 0 [] := by
  rintro f below w ⟨⟩
  simp [Frame.grow]

theorem Yields.seq (hx : Yields x m a) (hy : Yields y n b) :
    Yields (do x; y) (m + n) (a ++ b) := by
  intro f below w h
  obtain ⟨_, s, hxrun, hyrun⟩ := run_bind_eq_ok.mp h
  obtain rfl := hx hxrun
  rw [hy hyrun, Frame.grow_grow]

/-- A step that succeeds has not been kept from it. -/
theorem Yields.guarded (c : Prop) [Decidable c] {e : Fault} (hx : Yields x n b) :
    Yields (do
      if c then throw e
      x) n b := by
  intro f below w h
  split at h
  · cases h
  · exact hx h

theorem Yields.forM {α : Type} {as : List α} {f : α → Step Unit} {g : α → List UInt8}
    (h : ∀ a ∈ as, Yields (f a) 1 (g a)) : Yields (forM as f) as.length (as.flatMap g) := by
  induction as with
  | nil => exact .pure
  | cons a as ih =>
    have hseq := (h a List.mem_cons_self).seq (ih fun b hb ↦ h b (List.mem_cons_of_mem a hb))
    simpa [List.forM_cons, Nat.add_comm] using hseq

/-! ## Plain items -/

theorem Yields.put (tag : Tag) (payload : List UInt8) :
    Yields (put tag payload) 1 (tag.byte :: payload) := by
  intro f below w h
  obtain ⟨w, s, hget, h⟩ := run_bind_eq_ok.mp h
  cases hget
  obtain ⟨_, -, h⟩ := run_ofExcept_bind_eq_ok.mp h
  cases h
  rfl

theorem Yields.putSized (tag : Tag) (body : List UInt8) :
    Yields (putSized tag body) 1 (sized tag body) := by
  intro f below w h
  unfold Writer.putSized at h
  split at h
  · cases h
  · obtain ⟨w, s, hget, h⟩ := run_bind_eq_ok.mp h
    cases hget
    obtain ⟨_, -, h⟩ := run_ofExcept_bind_eq_ok.mp h
    cases h
    rfl

theorem Yields.s64 (v : Int64) : Yields (s64 v) 1 (s64Item v) := .put _ _

theorem Yields.str (v : String) : Yields (str v) 1 (strItem v) := .putSized _ _

/-! ## Containers -/

theorem run_openScope_eq_ok (h : (openScope tag scope).run w = (.ok (), w')) :
    w' = ⟨.opened scope, w.top :: w.below⟩ := by
  obtain ⟨w, s, hget, h⟩ := run_bind_eq_ok.mp h
  cases hget
  obtain ⟨_, -, h⟩ := run_ofExcept_bind_eq_ok.mp h
  cases h
  rfl

theorem run_closeScope_eq_ok (h : (closeScope tag scope).run w = (.ok (), w')) :
    w.top.body.size < lengthLimit ∧
      ∃ outer below, w.below = outer :: below ∧
        w' = ⟨outer.push (sized tag w.top.body.toList), below⟩ := by
  by_cases hc : w.Closes scope
  · by_cases hl : w.top.body.size < lengthLimit
    · obtain ⟨outer, below, hb, hrun⟩ := run_closeScope_of_closes tag hc hl
      cases hrun.symm.trans h
      exact ⟨hl, outer, below, hb, rfl⟩
    · obtain ⟨outer, below, -, hrun⟩ := run_closeScope_of_overlong tag hc (Nat.not_lt.mp hl)
      cases hrun.symm.trans h
  · obtain ⟨e, hrun⟩ := run_closeScope_of_not_closes tag hc
    cases hrun.symm.trans h

theorem run_variantBegin_eq_ok (h : (variantBegin name).run w = (.ok (), w')) :
    w' = ⟨(Frame.opened .variant).append (strItem name), w.top :: w.below⟩ := by
  obtain ⟨_, s, hopen, h⟩ := run_bind_eq_ok.mp h
  obtain rfl := run_openScope_eq_ok hopen
  obtain ⟨_, s, hstr, h⟩ := run_bind_eq_ok.mp h
  obtain rfl := Yields.str name hstr
  cases h
  rfl

theorem Yields.within (hi : Yields inside n body) :
    Yields (do openScope tag scope; inside; closeScope tag scope) 1 (sized tag body) := by
  intro f below w h
  obtain ⟨_, s, hopen, h⟩ := run_bind_eq_ok.mp h
  obtain rfl := run_openScope_eq_ok hopen
  obtain ⟨_, s, hinside, h⟩ := run_bind_eq_ok.mp h
  obtain rfl := hi hinside
  obtain ⟨-, outer, below, hb, rfl⟩ := run_closeScope_eq_ok h
  cases hb
  simp [Frame.grow, Frame.opened, Frame.push]

theorem Yields.list (hi : Yields inside n body) : Yields (list inside) 1 (sized .list body) :=
  .within hi

theorem Yields.map (hi : Yields inside n body) : Yields (map inside) 1 (sized .map body) :=
  .within hi

/-- A variant that was written fits. -/
theorem Yields.run_variant (hi : Yields inside n body)
    {f : Frame} {below : List Frame} (h : (variant name inside).run ⟨f, below⟩ = (.ok (), w)) :
    (variantItem name body).length < lengthLimit + 5 ∧
      w = ⟨f.grow 1 (variantItem name body), below⟩ := by
  obtain ⟨_, s, hbegin, h⟩ := run_bind_eq_ok.mp h
  obtain rfl := run_variantBegin_eq_ok hbegin
  obtain ⟨_, s, hinside, h⟩ := run_bind_eq_ok.mp h
  obtain rfl := hi hinside
  obtain ⟨hl, outer, below, hb, rfl⟩ := run_closeScope_eq_ok h
  cases hb
  have hbody : (((Frame.opened .variant).append (strItem name)).grow n body).body.toList =
      strItem name ++ body := by
    simp [Frame.grow, Frame.opened, Frame.append]
  constructor
  · rw [← Array.length_toList, hbody] at hl
    rw [variantItem, length_sized]
    exact Nat.add_lt_add_right hl 5
  · rw [hbody]
    rfl

theorem Yields.variant (name : String) (hi : Yields inside n body) :
    Yields (variant name inside) 1 (variantItem name body) :=
  fun _ _ _ h ↦ (hi.run_variant h).2

theorem Yields.entryStr (name value : String) :
    Yields (entryStr name value) 1 (variantItem name (strItem value)) :=
  .variant name (.str value)

theorem Yields.entryS64 (name : String) (value : Int64) :
    Yields (entryS64 name value) 1 (variantItem name (s64Item value)) :=
  .variant name (.s64 value)

theorem Yields.blobEntries (type : BlobType) :
    Yields (blobEntries type) 2 (Descriptor.blobEntryBytes type) :=
  (Yields.entryStr _ _).seq (.entryStr _ _)

/-! ## All bytes -/

theorem exists_run_of_bytesOf (h : bytesOf x = .ok b) :
    ∃ w, x.run empty = (.ok (), w) ∧ w.finish = .ok b := by
  unfold bytesOf at h
  rcases hrun : x.run empty with ⟨e | _, w⟩ <;> rw [hrun] at h
  · cases h
  · exact ⟨w, rfl, h⟩

/-- A variant that is all that was written fits. -/
theorem bytesOf_variant_eq_ok (hi : Yields inside n body)
    (h : bytesOf (variant name inside) = .ok b) :
    b = variantItem name body ∧ (variantItem name body).length < lengthLimit + 5 := by
  obtain ⟨w, hrun, hfinish⟩ := exists_run_of_bytesOf h
  obtain ⟨hl, rfl⟩ := hi.run_variant hrun
  cases hfinish
  exact ⟨by simp [Frame.grow, Frame.opened], hl⟩

end Interchange.Tlv.Writer

namespace Interchange

open Tlv Tlv.Writer

/-! ## Descriptors -/

namespace Descriptor

theorem yields_of_body {d : Descriptor} {depth : Nat} (h : Yields (d.writeBody depth) 1 d.payload) :
    Yields (d.write depth) 1 d.layout := by
  rw [write]
  exact .guarded _ (.variant _ h)

theorem yields_writeBody (d : Descriptor) (depth : Nat) :
    Yields (d.writeBody depth) 1 d.payload := by
  induction d generalizing depth with
  | primitive kind =>
    rw [writeBody]
    exact .str kind.name
  | collection d ih =>
    rw [writeBody]
    exact yields_of_body (ih _)
  | mapping d ih =>
    rw [writeBody]
    exact yields_of_body (ih _)
  | union members tagField ih =>
    have hmembers : Yields (forM members (write (depth + 1))) members.length
        (members.flatMap layout) := .forM fun d hd ↦ yields_of_body (ih d hd _)
    rw [writeBody, writeMembers_eq_forM, payload, memberBytes_eq_flatMap]
    exact .map ((Yields.variant _ (.list hmembers)).seq (.entryStr _ _))
  | blob type =>
    rw [writeBody]
    exact .map (.blobEntries type)
  | record fields ih =>
    rw [writeBody, writeFields_eq_forM, payload, fieldBytes_eq_flatMap]
    exact .list (.forM fun f hf ↦ .variant _ (yields_of_body (ih f hf _)))

/-- What is written is the layout, of descriptors that fit and are within the limit of nesting. -/
theorem toBytes_eq_ok {d : Descriptor} {bytes : List UInt8} : d.toBytes = .ok bytes ↔
    bytes = d.layout ∧ d.layout.length < lengthLimit + 5 ∧ d.depth ≤ maxDepth := by
  constructor
  · intro h
    obtain ⟨rfl, hl⟩ := bytesOf_variant_eq_ok (yields_writeBody d 0)
      (by rwa [toBytes, write_of_le (Nat.zero_le _)] at h)
    refine ⟨rfl, hl, Nat.le_of_not_lt fun hd ↦ ?_⟩
    cases (toBytes_of_lt_depth hd hl).symm.trans h
  · rintro ⟨rfl, hl, hd⟩
    exact toBytes_of_depth_le hd hl

end Descriptor

/-! ## Literals -/

namespace Literal

theorem yields_writeScalar (s : Scalar) : Yields (writeScalar s) 1 (scalarBytes s) := by
  cases s with
  | none => exact .put _ _
  | integer v => exact .s64 v
  | float v => exact .put _ _
  | string v => exact .str v
  | boolean v => exact .put _ _
  | datetime v => exact .map ((Yields.entryS64 _ _).seq (.variant _ (.put _ _)))
  | duration v => exact .map ((Yields.entryS64 _ _).seq (.entryS64 _ _))
  | binary v => exact .putSized _ _

theorem yields_of_body {l : Literal} {depth : Nat} (h : Yields (l.writeBody depth) 1 l.payload) :
    Yields (l.write depth) 1 l.layout := by
  rw [write]
  exact .guarded _ (.variant _ h)

theorem yields_writeEntries {es : List (String × Literal)} {depth : Nat}
    (h : ∀ e ∈ es, Yields (e.2.write depth) 1 e.2.layout) :
    Yields (writeEntries depth es) es.length (entryBytes es) := by
  rw [writeEntries_eq_forM, entryBytes_eq_flatMap]
  exact .forM fun e he ↦ .variant _ (h e he)

theorem yields_writeBody (l : Literal) (depth : Nat) : Yields (l.writeBody depth) 1 l.payload := by
  induction l generalizing depth with
  | scalar s =>
    rw [writeBody]
    exact yields_writeScalar s
  | blob b =>
    rw [writeBody]
    exact .map ((Yields.entryStr _ _).seq (.blobEntries b.type))
  | collection items ih =>
    rw [writeBody, writeItems_eq_forM, payload, itemBytes_eq_flatMap]
    exact .list (.forM fun l hl ↦ yields_of_body (ih l hl _))
  | mapping entries ih =>
    rw [writeBody]
    exact .map (yields_writeEntries fun e he ↦ yields_of_body (ih e he _))
  | record fields ih =>
    rw [writeBody]
    exact .map (yields_writeEntries fun e he ↦ yields_of_body (ih e he _))
  | union type l ih =>
    rw [writeBody]
    exact .map ((Yields.variant _ (Descriptor.yields_of_body (type.yields_writeBody _))).seq
      (.variant _ (yields_of_body (ih _))))

/-- What is written is the layout, of literals that fit and are within the limit of nesting. -/
theorem toBytes_eq_ok {l : Literal} {bytes : List UInt8} : l.toBytes = .ok bytes ↔
    bytes = l.layout ∧ l.layout.length < lengthLimit + 5 ∧ l.depth ≤ maxDepth := by
  constructor
  · intro h
    obtain ⟨rfl, hl⟩ := bytesOf_variant_eq_ok (yields_writeBody l 0)
      (by rwa [toBytes, write_of_le (Nat.zero_le _)] at h)
    refine ⟨rfl, hl, Nat.le_of_not_lt fun hd ↦ ?_⟩
    cases (toBytes_of_lt_depth hd hl).symm.trans h
  · rintro ⟨rfl, hl, hd⟩
    exact toBytes_of_depth_le hd hl

end Literal

end Interchange
