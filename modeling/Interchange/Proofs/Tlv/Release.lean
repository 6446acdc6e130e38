import Interchange.Proofs.Tlv.Calls
import Interchange.Proofs.Tlv.Literal

/-!
# What is released

A writer may be called with anything in any order, and calls that fail may be passed over, one that
wrote half a literal and leaves its containers open included.  As long as no length is too large,
what is released in the end are the bytes of whole items, as many as were completed at the root.

A step that writes descriptors or literals is built from others inside containers.  `Keeps` says
that a step leaves a sound writer sound and closes nothing that was open before it, however it ends;
it passes from steps to what is built from them.  `Completes` says in addition that a step that
succeeds has put in one item, and that one that fails has either done nothing or not come back out
of the container that it opened.
-/

namespace Interchange.Tlv.Writer

open Attempt

/-! ## Steps that keep writers sound -/

/-- A step keeps a sound writer sound, unless a length is too large, and closes nothing that was
open; if it succeeds, it leaves nothing else open. -/
def Keeps (x : Step Unit) : Prop :=
  ∀ (w w' : Writer) (r : Except Fault Unit), w.Sound → x.run w = (r, w') →
    (∀ n, r ≠ .error (.tooLarge n)) →
      w'.Sound ∧ w.below <:+ w'.below ∧ (r = .ok () → w'.below = w.below)

/-- A step that keeps a sound writer sound puts one item in, or else does nothing or stays inside a
container that it opened. -/
def Completes (x : Step Unit) : Prop :=
  ∀ (w w' : Writer) (r : Except Fault Unit), w.Sound → x.run w = (r, w') →
    (∀ n, r ≠ .error (.tooLarge n)) → w'.Sound ∧
      (r = .ok () ∧ (∃ bytes, w' = { w with top := w.top.push bytes }) ∨
        (∃ e, r = .error e) ∧ (w' = w ∨ w.top :: w.below <:+ w'.below))

variable {x y inside : Step Unit} {tag : Tag} {scope : Scope} {name : String}

theorem Completes.keeps (h : Completes x) : Keeps x := by
  intro w w' r hw hrun hr
  obtain ⟨hw', ⟨-, bytes, rfl⟩ | ⟨⟨e, rfl⟩, rfl | hsuffix⟩⟩ := h _ _ _ hw hrun hr
  · exact ⟨hw', List.suffix_refl _, fun _ ↦ rfl⟩
  · exact ⟨hw', List.suffix_refl _, nofun⟩
  · exact ⟨hw', (List.suffix_cons _ _).trans hsuffix, nofun⟩

theorem Keeps.pure : Keeps (pure ()) := by
  rintro w w' r hw ⟨⟩ -
  exact ⟨hw, List.suffix_refl _, fun _ ↦ rfl⟩

theorem Keeps.seq (hx : Keeps x) (hy : Keeps y) : Keeps (do x; y) := by
  intro w w' r hw hrun hr
  rcases hxrun : x.run w with ⟨e | _, w₁⟩
  · cases (run_bind_of_error hxrun _).symm.trans hrun
    obtain ⟨hw₁, hsuffix, -⟩ := hx _ _ _ hw hxrun hr
    exact ⟨hw₁, hsuffix, nofun⟩
  · obtain ⟨hw₁, -, hbelow⟩ := hx _ _ _ hw hxrun nofun
    rw [run_bind_of_ok hxrun] at hrun
    obtain ⟨hw', hsuffix, hok⟩ := hy _ _ _ hw₁ hrun hr
    rw [hbelow rfl] at hsuffix hok
    exact ⟨hw', hsuffix, hok⟩

theorem Keeps.forM {α : Type} {as : List α} {f : α → Step Unit} (h : ∀ a ∈ as, Keeps (f a)) :
    Keeps (forM as f) := by
  induction as with
  | nil => exact .pure
  | cons a as ih =>
    rw [List.forM_cons]
    exact (h a List.mem_cons_self).seq (ih fun b hb ↦ h b (List.mem_cons_of_mem a hb))

theorem Completes.throw (e : Fault) (y : Step Unit) : Completes (do throw e; y) := by
  rintro w w' r hw ⟨⟩ -
  exact ⟨hw, .inr ⟨⟨e, rfl⟩, .inl rfl⟩⟩

/-! ### Items -/

/-- A step that does what a call may do, and neither opens nor closes anything, completes an
item. -/
theorem Completes.of_effect (h : ∀ w, Effect w (x.run w)) (hb : ∀ w, (x.run w).2.below = w.below) :
    Completes x := by
  intro w w' r hw hrun _
  have heff := h w
  have hbelow := hb w
  rw [hrun] at heff hbelow
  refine ⟨heff.sound hw, ?_⟩
  cases heff with
  | refused e => exact .inr ⟨⟨e, rfl⟩, .inl rfl⟩
  | put hf ha => exact .inl ⟨rfl, _, rfl⟩
  | opened hf ht ha => exact absurd hbelow (List.cons_ne_self _ _)
  | closed hcons ht hc hl =>
    rw [hcons] at hbelow
    exact absurd hbelow.symm (List.cons_ne_self _ _)

theorem below_put (tag : Tag) (payload : List UInt8) (w : Writer) :
    ((put tag payload).run w).2.below = w.below := by
  rcases ha : w.top.admits tag with e | _ <;> simp [put, run_bind, ha]

theorem below_putSized (tag : Tag) (body : List UInt8) (w : Writer) :
    ((putSized tag body).run w).2.below = w.below := by
  by_cases hl : lengthLimit ≤ body.length
  · simp [putSized, hl, run_bind]
  · rcases ha : w.top.admits tag with e | _ <;> simp [putSized, hl, run_bind, ha]

/-- The calls that put an item in complete it. -/
theorem Completes.put {payload : List UInt8} (item : Item) (ht : item.tag = tag) (hf : item.Fits)
    (hl : item.layout = tag.byte :: payload) : Completes (put tag payload) :=
  .of_effect (effect_put item ht hf hl) (below_put tag payload)

theorem Completes.unit : Completes Writer.unit := .put .unit rfl trivial rfl

theorem Completes.bool (v : Bool) : Completes (Writer.bool v) := .put (.bool v) rfl trivial rfl

theorem Completes.u32 (v : UInt32) : Completes (Writer.u32 v) := .put (.u32 v) rfl trivial rfl

theorem Completes.s64 (v : Int64) : Completes (Writer.s64 v) := .put (.s64 v) rfl trivial rfl

theorem Completes.f64 (v : Binary64) : Completes (Writer.f64 v) := .put (.f64 v) rfl trivial rfl

theorem Completes.str (v : String) : Completes (Writer.str v) :=
  .of_effect (effect_putSized (.str v) rfl id rfl) (below_putSized _ _)

theorem Completes.bytes (v : List UInt8) : Completes (Writer.bytes v) :=
  .of_effect (effect_putSized (.bytes v) rfl id rfl) (below_putSized _ _)

/-! ### Containers -/

/-- A step opens a container inside a sound writer or does nothing, unless a length is too large. -/
def Opens (x : Step Unit) : Prop :=
  ∀ (w w' : Writer) (r : Except Fault Unit), w.Sound → x.run w = (r, w') →
    (∀ n, r ≠ .error (.tooLarge n)) →
      (r = .ok () ∧ ∃ f, w' = ⟨f, w.top :: w.below⟩ ∧ w'.Sound) ∨ (∃ e, r = .error e) ∧ w' = w

theorem Opens.openScope (ht : scope.tag? = some tag) (hs : scope ≠ .variant) :
    Opens (openScope tag scope) := by
  intro w w' r hw hrun _
  rcases ha : w.top.admits tag with e | _
  · cases (run_openScope_of_refused ha).symm.trans hrun
    exact .inr ⟨⟨e, rfl⟩, rfl⟩
  · cases (run_openScope_of_admitted ha).symm.trans hrun
    exact .inl ⟨rfl, _, rfl, hw.opened (.opened hs) ht ha⟩

theorem Opens.variantBegin (name : String) : Opens (variantBegin name) := by
  intro w w' r hw hrun hr
  rcases ha : w.top.admits .variant with e | _
  · cases (run_variantBegin_of_refused ha).symm.trans hrun
    exact .inr ⟨⟨e, rfl⟩, rfl⟩
  · by_cases hn : (Text.bytes name).length < lengthLimit
    · cases (run_variantBegin_of_admitted ha hn).symm.trans hrun
      exact .inl ⟨rfl, _, rfl, hw.opened (.named name) rfl ha⟩
    · cases (run_variantBegin_of_overlong ha (Nat.not_lt.mp hn)).symm.trans hrun
      exact absurd rfl (hr _)

/-- A container around what keeps writers sound is completed. -/
theorem Completes.within (hx : Opens x) (hi : Keeps inside) (ht : scope.tag? = some tag) :
    Completes (do x; inside; closeScope tag scope) := by
  intro w w' r hw hrun hr
  rcases hxrun : x.run w with ⟨e | _, w₁⟩
  · cases (run_bind_of_error hxrun _).symm.trans hrun
    obtain ⟨⟨⟩, -⟩ | ⟨-, rfl⟩ := hx _ _ _ hw hxrun hr
    exact ⟨hw, .inr ⟨⟨e, rfl⟩, .inl rfl⟩⟩
  rw [run_bind_of_ok hxrun] at hrun
  obtain ⟨-, f, rfl, hw₁⟩ | ⟨⟨e, ⟨⟩⟩, -⟩ := hx _ _ _ hw hxrun nofun
  rcases hirun : inside.run ⟨f, w.top :: w.below⟩ with ⟨e | _, w₂⟩
  · -- What is open inside stays open, around it the container and the frame that it stands in.
    cases (run_bind_of_error hirun _).symm.trans hrun
    obtain ⟨hw₂, hsuffix, -⟩ := hi _ _ _ hw₁ hirun hr
    exact ⟨hw₂, .inr ⟨⟨e, rfl⟩, .inr hsuffix⟩⟩
  rw [run_bind_of_ok hirun] at hrun
  obtain ⟨hw₂, -, hbelow⟩ := hi _ _ _ hw₁ hirun nofun
  have hbelow : w₂.below = w.top :: w.below := hbelow rfl
  by_cases hc : w₂.Closes scope
  · by_cases hl : w₂.top.body.size < lengthLimit
    · obtain ⟨outer, below, hcons, hclose⟩ := run_closeScope_of_closes tag hc hl
      have heff := effect_closeScope ht fun h ↦ Nat.not_le.mpr hl h.2
      rw [hrun] at heff
      cases hclose.symm.trans hrun
      cases hcons.symm.trans hbelow
      exact ⟨heff.sound hw₂, .inl ⟨rfl, _, rfl⟩⟩
    · obtain ⟨outer, below, -, hclose⟩ := run_closeScope_of_overlong tag hc (Nat.not_lt.mp hl)
      cases hclose.symm.trans hrun
      exact absurd rfl (hr _)
  · obtain ⟨e, hclose⟩ := run_closeScope_of_not_closes tag hc
    cases hclose.symm.trans hrun
    exact ⟨hw₂, .inr ⟨⟨e, rfl⟩, .inr (hbelow ▸ List.suffix_refl _)⟩⟩

theorem Completes.list (hi : Keeps inside) : Completes (list inside) :=
  .within (.openScope rfl (by decide)) hi rfl

theorem Completes.map (hi : Keeps inside) : Completes (map inside) :=
  .within (.openScope rfl (by decide)) hi rfl

theorem Completes.variant (name : String) (hi : Keeps inside) : Completes (variant name inside) :=
  .within (.variantBegin name) hi rfl

theorem Completes.entryStr (name value : String) : Completes (entryStr name value) :=
  .variant name (Completes.str value).keeps

theorem Completes.entryS64 (name : String) (value : Int64) : Completes (entryS64 name value) :=
  .variant name (Completes.s64 value).keeps

theorem Keeps.blobEntries (type : BlobType) : Keeps (blobEntries type) :=
  (Completes.entryStr _ _).keeps.seq (Completes.entryStr _ _).keeps

end Interchange.Tlv.Writer

namespace Interchange

open Tlv Tlv.Writer

/-! ### Descriptors and literals -/

/-- A descriptor is completed when what stands inside its variant keeps writers sound. -/
theorem Descriptor.completes_of_body {d : Descriptor} {depth : Nat}
    (h : Writer.Keeps (d.writeBody depth)) : Completes (d.write depth) := by
  by_cases hd : maxDepth < depth
  · rw [write, if_pos hd]
    exact .throw _ _
  · rw [write_of_le (Nat.le_of_not_lt hd)]
    exact .variant _ h

theorem Descriptor.completes_write (d : Descriptor) (depth : Nat) : Completes (d.write depth) := by
  induction d generalizing depth with
  | primitive kind =>
    refine completes_of_body ?_
    rw [writeBody]
    exact (Completes.str _).keeps
  | collection d ih =>
    refine completes_of_body ?_
    rw [writeBody]
    exact (ih _).keeps
  | mapping d ih =>
    refine completes_of_body ?_
    rw [writeBody]
    exact (ih _).keeps
  | union members tagField ih =>
    refine completes_of_body ?_
    rw [writeBody, writeMembers_eq_forM]
    have hmembers : Writer.Keeps (forM members (write (depth + 1))) :=
      .forM fun d hd ↦ (ih d hd _).keeps
    exact (Completes.map ((Completes.variant _ (Completes.list hmembers).keeps).keeps.seq
      (Completes.entryStr _ _).keeps)).keeps
  | blob type =>
    refine completes_of_body ?_
    rw [writeBody]
    exact (Completes.map (.blobEntries type)).keeps
  | record fields ih =>
    refine completes_of_body ?_
    rw [writeBody, writeFields_eq_forM]
    exact (Completes.list (.forM fun f hf ↦ (Completes.variant _ (ih f hf _).keeps).keeps)).keeps

/-- A literal is completed when what stands inside its variant keeps writers sound. -/
theorem Literal.completes_of_body {l : Literal} {depth : Nat}
    (h : Writer.Keeps (l.writeBody depth)) : Completes (l.write depth) := by
  by_cases hd : maxDepth < depth
  · rw [write, if_pos hd]
    exact .throw _ _
  · rw [write_of_le (Nat.le_of_not_lt hd)]
    exact .variant _ h

theorem Literal.completes_writeScalar (s : Scalar) : Completes (writeScalar s) := by
  cases s with
  | none => exact .unit
  | integer v => exact .s64 v
  | float v => exact .f64 v
  | string v => exact .str v
  | boolean v => exact .bool v
  | datetime v =>
    exact .map ((Completes.entryS64 _ _).keeps.seq
      (Completes.variant _ (Completes.u32 _).keeps).keeps)
  | duration v => exact .map ((Completes.entryS64 _ _).keeps.seq (Completes.entryS64 _ _).keeps)
  | binary v => exact .bytes v

theorem Literal.completes_write (l : Literal) (depth : Nat) : Completes (l.write depth) := by
  induction l generalizing depth with
  | scalar s =>
    refine completes_of_body ?_
    rw [writeBody]
    exact (completes_writeScalar s).keeps
  | blob b =>
    refine completes_of_body ?_
    rw [writeBody]
    exact (Completes.map ((Completes.entryStr _ _).keeps.seq (.blobEntries _))).keeps
  | collection items ih =>
    refine completes_of_body ?_
    rw [writeBody, writeItems_eq_forM]
    exact (Completes.list (.forM fun l hl ↦ (ih l hl _).keeps)).keeps
  | mapping entries ih =>
    refine completes_of_body ?_
    rw [writeBody, writeEntries_eq_forM]
    exact (Completes.map (.forM fun e he ↦ (Completes.variant _ (ih e he _).keeps).keeps)).keeps
  | record fields ih =>
    refine completes_of_body ?_
    rw [writeBody, writeEntries_eq_forM]
    exact (Completes.map (.forM fun e he ↦ (Completes.variant _ (ih e he _).keeps).keeps)).keeps
  | union type l ih =>
    refine completes_of_body ?_
    rw [writeBody]
    exact (Completes.map ((Completes.variant _ (type.completes_write _).keeps).keeps.seq
      (Completes.variant _ (ih _).keeps).keeps)).keeps

namespace Tlv.Writer

/-! ## The root -/

/-- The outermost of frames. -/
def outermost : Frame → List Frame → Frame
  | f, [] => f
  | _, outer :: below => outermost outer below

/-- The number of items at the root. -/
def rootCount (w : Writer) : Nat := (outermost w.top w.below).count

/-- Whether a call completed an item at the root: it succeeded, and nothing is open after it. -/
def CompletesRoot (r : Except Fault Unit × Writer) : Prop := r.1 = .ok () ∧ r.2.below = []

instance (r : Except Fault Unit × Writer) : Decidable (CompletesRoot r) :=
  match r with
  | (.ok (), w) => decidable_of_iff (w.below = []) (by simp [CompletesRoot])
  | (.error _, _) => isFalse (by simp [CompletesRoot])

theorem outermost_append (f : Frame) (opened : List Frame) (g : Frame) (below : List Frame) :
    outermost f (opened ++ g :: below) = outermost g below := by
  induction opened generalizing f with
  | nil => rfl
  | cons h opened ih => exact ih h

/-- What an item put in front adds to the number of items at the root. -/
theorem rootCount_push (f : Frame) (bytes : List UInt8) (below : List Frame) :
    rootCount ⟨f.push bytes, below⟩ = rootCount ⟨f, below⟩ + if below = [] then 1 else 0 := by
  cases below <;> simp [rootCount, outermost]

/-- A step fares well if it keeps sound writers sound and counts what it completes at the root. -/
def Fares (x : Step Unit) : Prop :=
  ∀ w : Writer, w.Sound → (∀ n, (x.run w).1 ≠ .error (.tooLarge n)) →
    (x.run w).2.Sound ∧
      (x.run w).2.rootCount = w.rootCount + if CompletesRoot (x.run w) then 1 else 0

theorem Completes.fares {x : Step Unit} (h : Completes x) : Fares x := by
  intro w hw hr
  rcases hrun : x.run w with ⟨r, w'⟩
  rw [hrun] at hr
  obtain ⟨hw', hcases⟩ := h _ _ _ hw hrun hr
  refine ⟨hw', ?_⟩
  rcases hcases with ⟨rfl, bytes, rfl⟩ | ⟨⟨e, rfl⟩, rfl | ⟨opened, hopened⟩⟩
  · simp [CompletesRoot, rootCount_push]
  · simp [CompletesRoot]
  · simp [CompletesRoot, rootCount, ← hopened, outermost_append]

/-- A call of a writer's own operations that does not fail for a length fares well. -/
theorem Move.fares (m : Move) : Fares m.step := by
  intro w hw hr
  have heff : Effect w (m.step.run w) := by
    refine m.effect fun ho ↦ ?_
    obtain ⟨n, w', hrun, -⟩ := m.run_of_overflows ho
    exact hr n (by rw [hrun])
  refine ⟨heff.sound hw, ?_⟩
  generalize m.step.run w = r at heff
  cases heff with
  | refused e => simp [CompletesRoot]
  | put hf ha => simp [CompletesRoot, rootCount_push]
  | opened hf ht ha => simp [CompletesRoot, rootCount, outermost]
  | @closed outer below _ hb ht hc hl =>
    have hcount : w.rootCount = rootCount ⟨outer, below⟩ := by rw [rootCount, hb]; rfl
    simp [CompletesRoot, rootCount_push, hcount]

/-! ## Calls in any order -/

/-- A call of a writer. -/
inductive Call where
  | move (m : Move)
  | descriptor (d : Descriptor)
  | literal (l : Literal)

def Call.step : Call → Step Unit
  | move m => m.step
  | descriptor d => d.write 0
  | literal l => l.write 0

theorem Call.fares : (c : Call) → Fares c.step
  | move m => m.fares
  | descriptor d => (d.completes_write 0).fares
  | literal l => (l.completes_write 0).fares

/-- How steps one after another end, those that fail included, and the writers after them. -/
def trace (w : Writer) : List (Step Unit) → List (Except Fault Unit × Writer)
  | [] => []
  | x :: xs => x.run w :: trace (x.run w).2 xs

theorem Sound.after_calls {w : Writer} {calls : List Call} (hw : w.Sound)
    (hr : ∀ r ∈ w.trace (calls.map Call.step), ∀ n, r.1 ≠ .error (.tooLarge n)) :
    (w.after (calls.map Call.step)).Sound ∧
      (w.after (calls.map Call.step)).rootCount =
        w.rootCount + (w.trace (calls.map Call.step)).countP fun r ↦ CompletesRoot r := by
  induction calls generalizing w with
  | nil => exact ⟨hw, rfl⟩
  | cons c cs ih =>
    obtain ⟨hc, hcs⟩ := List.forall_mem_cons.mp hr
    obtain ⟨hw', hcount⟩ := c.fares w hw hc
    obtain ⟨hsound, hcounts⟩ := ih hw' hcs
    refine ⟨hsound, hcounts.trans ?_⟩
    rw [hcount, List.map_cons, trace, List.countP_cons]
    simp only [decide_eq_true_eq]
    omega

/-- Whatever a writer is called with, in whatever order and with failed calls passed over, if no
length is too large then what is released are the bytes of whole items, as many as were completed at
the root. -/
theorem items_of_finish {calls : List Call} {bytes : List UInt8}
    (hr : ∀ r ∈ empty.trace (calls.map Call.step), ∀ n, r.1 ≠ .error (.tooLarge n))
    (h : (empty.after (calls.map Call.step)).finish = .ok bytes) :
    ∃ items : List Item, (∀ item ∈ items, item.Fits) ∧ bytes = items.flatMap Item.layout ∧
      items.length = (empty.trace (calls.map Call.step)).countP fun r ↦ CompletesRoot r := by
  obtain ⟨hsound, hcount⟩ := sound_empty.after_calls hr
  unfold finish at h
  split at h
  · next hb =>
    cases h
    obtain ⟨items, hfits, hlayout, hlen⟩ := hsound.items hb
    refine ⟨items, hfits, hlayout, ?_⟩
    rw [rootCount, hb, outermost, ← hlen] at hcount
    simpa [rootCount, empty, outermost, Frame.opened] using hcount
  · cases h

/-- Where no variant is admitted, a literal is refused at once. -/
theorem run_write_of_refused {w : Writer} {e : Fault} (l : Literal)
    (ha : w.top.admits .variant = .error e) : (l.write 0).run w = (.error e, w) := by
  rw [Literal.write_of_le (Nat.zero_le _), Writer.variant]
  exact Attempt.run_bind_of_error (run_variantBegin_of_refused ha) _

/-- A variant into which a literal goes twice, of which it is refused once, among calls that are out
of place. -/
def repeatedly (l : Literal) : List Call :=
  [.move .mapEnd, .move (.variantBegin "a"), .literal l, .literal l, .move .listEnd,
    .move .variantEnd]

theorem items_of_finish_repeatedly :
    ∃ items : List Item, (∀ item ∈ items, item.Fits) ∧
      variantItem "a" (Literal.collection []).layout = items.flatMap Item.layout ∧
      items.length = (empty.trace ((repeatedly (.collection [])).map Call.step)).countP
        fun r ↦ CompletesRoot r := by
  -- The frame of the variant before its item is in, and after.
  let f := (Frame.opened .variant).append (strItem "a")
  let g := f.grow 1 (Literal.collection []).layout
  have hopen : (Writer.variantBegin "a").run empty = (.ok (), ⟨f, [.opened .root]⟩) := rfl
  have hwrite : ((Literal.collection []).write 0).run ⟨f, [.opened .root]⟩ =
      (.ok (), ⟨g, [.opened .root]⟩) :=
    Literal.isWritten _ (by decide) (by decide +kernel) f _ ⟨rfl, fun _ ↦ Nat.le_refl _⟩
  have hagain : ((Literal.collection []).write 0).run ⟨g, [.opened .root]⟩ =
      (.error .tooManyItems, ⟨g, [.opened .root]⟩) := run_write_of_refused _ rfl
  have hmismatch : Writer.listEnd.run ⟨g, [.opened .root]⟩ =
      (.error (.scopeMismatch .list .variant), ⟨g, [.opened .root]⟩) := rfl
  have hclose : Writer.variantEnd.run ⟨g, [.opened .root]⟩ = (.ok (),
      ⟨(Frame.opened .root).push (variantItem "a" (Literal.collection []).layout), []⟩) := by
    have hbody : g.body.toList = strItem "a" ++ (Literal.collection []).layout := by
      simp [g, f, Frame.grow, Frame.append, Frame.opened]
    have hsize : g.body.size < lengthLimit := by
      rw [← Array.length_toList, hbody]
      decide +kernel
    rw [variantItem, ← hbody]
    exact run_closeScope rfl (fun _ ↦ Nat.succ_ne_zero 0) hsize []
  have hunderflow : Writer.mapEnd.run empty = (.error .scopeUnderflow, empty) := rfl
  refine items_of_finish ?_ ?_
  · simp [trace, repeatedly, Call.step, Move.step, hunderflow, hopen, hwrite, hagain, hmismatch,
      hclose]
  · simp only [after, repeatedly, List.map, Call.step, Move.step, hunderflow, hopen, hwrite, hagain,
      hmismatch, hclose]
    simp [finish, Frame.opened]

end Tlv.Writer

end Interchange
