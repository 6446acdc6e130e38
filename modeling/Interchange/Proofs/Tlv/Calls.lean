import Interchange.Proofs.Tlv.Item

/-!
# Single calls

What one call of a writer's own operations does.  A call that fails leaves the writer as it was, and
one that succeeds puts an item in, opens a container or closes one, with one exception: where the
limit of lengths is met half way through a call, what the call did before stays.  That is when the
body of a container that is being closed is too long, and when the name of a variant that has just
been opened is.  The container is then left under a length that is not its own, and the variant
without a name.
-/

namespace Interchange.Tlv.Writer

open Attempt

/-- A call of one of a writer's own operations. -/
inductive Move where
  | bool (value : Bool)
  | u32 (value : UInt32)
  | s64 (value : Int64)
  | f64 (value : Binary64)
  | unit
  | str (value : String)
  | bytes (value : List UInt8)
  | listBegin
  | listEnd
  | mapBegin
  | mapEnd
  | variantBegin (name : String)
  | variantEnd

def Move.step : Move → Step Unit
  | bool v => Writer.bool v
  | u32 v => Writer.u32 v
  | s64 v => Writer.s64 v
  | f64 v => Writer.f64 v
  | unit => Writer.unit
  | str v => Writer.str v
  | bytes v => Writer.bytes v
  | listBegin => Writer.listBegin
  | listEnd => Writer.listEnd
  | mapBegin => Writer.mapBegin
  | mapEnd => Writer.mapEnd
  | variantBegin name => Writer.variantBegin name
  | variantEnd => Writer.variantEnd

/-- Whether the innermost container may be closed as one of a kind. -/
structure Closes (w : Writer) (scope : Scope) : Prop where
  isOpen : w.below ≠ []
  isScope : w.top.scope = scope
  hasItem : scope = .variant → w.top.count ≠ 0

/-- Whether a call meets the limit of lengths half way: at the body of a container that it closes,
or at the name of a variant that it has opened. -/
def Move.Overflows (w : Writer) : Move → Prop
  | listEnd => w.Closes .list ∧ lengthLimit ≤ w.top.body.size
  | mapEnd => w.Closes .map ∧ lengthLimit ≤ w.top.body.size
  | variantEnd => w.Closes .variant ∧ lengthLimit ≤ w.top.body.size
  | variantBegin name =>
    w.top.admits .variant = .ok () ∧ lengthLimit ≤ (Text.bytes name).length
  | _ => False

/-- How a call may go that does not meet the limit half way. -/
inductive Effect (w : Writer) : Except Fault Unit × Writer → Prop
  /-- A call that fails changes nothing. -/
  | refused (e : Fault) : Effect w (.error e, w)
  | put {item : Item} (hf : item.Fits) (ha : w.top.admits item.tag = .ok ()) :
    Effect w (.ok (), { w with top := w.top.push item.layout })
  | opened {f : Frame} {head : List UInt8} {tag : Tag} (hf : f.Holds head [])
    (ht : f.scope.tag? = some tag) (ha : w.top.admits tag = .ok ()) :
    Effect w (.ok (), ⟨f, w.top :: w.below⟩)
  | closed {outer : Frame} {below : List Frame} {tag : Tag} (hb : w.below = outer :: below)
    (ht : w.top.scope.tag? = some tag) (hc : w.top.scope = .variant → w.top.count ≠ 0)
    (hl : w.top.body.size < lengthLimit) :
    Effect w (.ok (), ⟨outer.push (sized tag w.top.body.toList), below⟩)

variable {w : Writer} {tag : Tag} {scope : Scope}

/-! ## Items -/

theorem effect_put {payload : List UInt8} (item : Item) (ht : item.tag = tag) (hf : item.Fits)
    (hl : item.layout = tag.byte :: payload) (w : Writer) :
    Effect w ((put tag payload).run w) := by
  subst ht
  rw [put, run_bind_of_ok (run_get w)]
  rcases ha : w.top.admits item.tag with e | _
  · exact .refused e
  · have heff := Effect.put hf ha
    rwa [hl] at heff

theorem effect_putSized {body : List UInt8} (item : Item) (ht : item.tag = tag)
    (hf : body.length < lengthLimit → item.Fits) (hl : item.layout = sized tag body) (w : Writer) :
    Effect w ((putSized tag body).run w) := by
  subst ht
  by_cases hlt : lengthLimit ≤ body.length
  · rw [putSized, if_pos hlt]
    exact .refused _
  · rcases ha : w.top.admits item.tag with e | _
    · have hrun : (putSized item.tag body).run w = (.error e, w) := by
        simp [putSized, hlt, run_bind, ha]
      rw [hrun]
      exact .refused e
    · have hrun : (putSized item.tag body).run w =
          (.ok (), { w with top := w.top.push (sized item.tag body) }) := by
        simp [putSized, hlt, run_bind, ha]
      rw [hrun, ← hl]
      exact .put (hf (Nat.not_le.mp hlt)) ha

/-! ## Containers -/

theorem run_openScope_of_refused {e : Fault} (ha : w.top.admits tag = .error e) :
    (openScope tag scope).run w = (.error e, w) := by
  simp [openScope, run_bind, ha]

theorem run_openScope_of_admitted (ha : w.top.admits tag = .ok ()) :
    (openScope tag scope).run w = (.ok (), ⟨.opened scope, w.top :: w.below⟩) := by
  simp [openScope, run_bind, ha]

theorem effect_openScope (ht : scope.tag? = some tag) (hs : scope ≠ .variant) (w : Writer) :
    Effect w ((openScope tag scope).run w) := by
  rcases ha : w.top.admits tag with e | _
  · rw [run_openScope_of_refused ha]
    exact .refused e
  · rw [run_openScope_of_admitted ha]
    exact .opened (.opened hs) ht ha

theorem run_variantBegin_of_refused {name : String} {e : Fault}
    (ha : w.top.admits .variant = .error e) : (variantBegin name).run w = (.error e, w) :=
  run_bind_of_error (run_openScope_of_refused ha) _

/-- A name that is too long is refused once the variant is open, which is left open without it. -/
theorem run_variantBegin_of_overlong {name : String} (ha : w.top.admits .variant = .ok ())
    (hn : lengthLimit ≤ (Text.bytes name).length) :
    (variantBegin name).run w =
      (.error (.tooLarge (Text.bytes name).length), ⟨.opened .variant, w.top :: w.below⟩) := by
  have hstr (w : Writer) : (str name).run w = (.error (.tooLarge (Text.bytes name).length), w) := by
    rw [str, putSized, if_pos hn]
    rfl
  rw [variantBegin, run_bind_of_ok (run_openScope_of_admitted ha), run_bind_of_error (hstr _)]

theorem run_variantBegin_of_admitted {name : String} (ha : w.top.admits .variant = .ok ())
    (hn : (Text.bytes name).length < lengthLimit) :
    (variantBegin name).run w =
      (.ok (), ⟨(Frame.opened .variant).append (strItem name), w.top :: w.below⟩) := by
  have happ : Appends .variant (str name) 1 (strItem name) := .str (by decide) hn
  rw [variantBegin, run_bind_of_ok (run_openScope_of_admitted ha),
    run_bind_of_ok (happ _ _ (.opened _ (.inr (Nat.le_refl _))))]
  rfl

theorem effect_variantBegin {name : String} {w : Writer}
    (h : ¬ (w.top.admits .variant = .ok () ∧ lengthLimit ≤ (Text.bytes name).length)) :
    Effect w ((variantBegin name).run w) := by
  rcases ha : w.top.admits .variant with e | _
  · rw [run_variantBegin_of_refused ha]
    exact .refused e
  · rw [run_variantBegin_of_admitted ha (Nat.not_le.mp fun hn ↦ h ⟨ha, hn⟩)]
    exact .opened (.named name) rfl ha

/-- A body that is too long is left in the container around it, under a length of zero, and is not
counted as an item of it. -/
theorem run_closeScope_of_overlong (tag : Tag) (h : w.Closes scope)
    (hl : lengthLimit ≤ w.top.body.size) :
    ∃ outer below, w.below = outer :: below ∧ (closeScope tag scope).run w =
      (.error (.tooLarge w.top.body.size),
        ⟨outer.append (tag.byte :: littleEndian 4 0 ++ w.top.body.toList), below⟩) := by
  obtain ⟨outer, below, hb⟩ := List.exists_cons_of_ne_nil h.isOpen
  have hc : ¬ (scope = .variant ∧ w.top.count = 0) := fun hv ↦ h.hasItem hv.1 hv.2
  refine ⟨outer, below, hb, ?_⟩
  simp [closeScope, run_bind, hb, h.isScope, hc, hl]

theorem run_closeScope_of_closes (tag : Tag) (h : w.Closes scope)
    (hl : w.top.body.size < lengthLimit) :
    ∃ outer below, w.below = outer :: below ∧ (closeScope tag scope).run w =
      (.ok (), ⟨outer.push (sized tag w.top.body.toList), below⟩) := by
  obtain ⟨outer, below, hb⟩ := List.exists_cons_of_ne_nil h.isOpen
  have hc : ¬ (scope = .variant ∧ w.top.count = 0) := fun hv ↦ h.hasItem hv.1 hv.2
  refine ⟨outer, below, hb, ?_⟩
  simp [closeScope, run_bind, hb, h.isScope, hc, Nat.not_le.mpr hl]

theorem run_closeScope_of_not_closes (tag : Tag) (h : ¬ w.Closes scope) :
    ∃ e, (closeScope tag scope).run w = (.error e, w) := by
  rcases hb : w.below with _ | ⟨outer, below⟩
  · exact ⟨.scopeUnderflow, by simp [closeScope, run_bind, hb]⟩
  · by_cases hs : w.top.scope = scope
    · have hv : ¬ (scope = .variant → w.top.count ≠ 0) := fun hv ↦ h ⟨by simp [hb], hs, hv⟩
      obtain ⟨hv, h0⟩ : scope = .variant ∧ w.top.count = 0 := by simpa using hv
      exact ⟨.emptyVariant, by simp [closeScope, run_bind, hb, hs, hv, h0]⟩
    · exact ⟨.scopeMismatch scope w.top.scope, by simp [closeScope, run_bind, hb, hs]⟩

theorem effect_closeScope (ht : scope.tag? = some tag)
    (h : ¬ (w.Closes scope ∧ lengthLimit ≤ w.top.body.size)) :
    Effect w ((closeScope tag scope).run w) := by
  by_cases hc : w.Closes scope
  · have hl : w.top.body.size < lengthLimit := Nat.not_le.mp fun hl ↦ h ⟨hc, hl⟩
    obtain ⟨outer, below, hb, hrun⟩ := run_closeScope_of_closes tag hc hl
    rw [hrun]
    exact .closed hb (by rw [hc.isScope, ht]) (by rw [hc.isScope]; exact hc.hasItem) hl
  · obtain ⟨e, hrun⟩ := run_closeScope_of_not_closes tag hc
    rw [hrun]
    exact .refused e

/-! ## All calls -/

/-- What a call does that does not meet the limit of lengths half way. -/
theorem Move.effect {m : Move} (h : ¬ m.Overflows w) : Effect w (m.step.run w) := by
  cases m with
  | bool v => exact effect_put (.bool v) rfl trivial rfl w
  | u32 v => exact effect_put (.u32 v) rfl trivial rfl w
  | s64 v => exact effect_put (.s64 v) rfl trivial rfl w
  | f64 v => exact effect_put (.f64 v) rfl trivial rfl w
  | unit => exact effect_put .unit rfl trivial rfl w
  | str v => exact effect_putSized (.str v) rfl id rfl w
  | bytes v => exact effect_putSized (.bytes v) rfl id rfl w
  | listBegin => exact effect_openScope rfl (by decide) w
  | mapBegin => exact effect_openScope rfl (by decide) w
  | variantBegin name => exact effect_variantBegin h
  | listEnd => exact effect_closeScope rfl h
  | mapEnd => exact effect_closeScope rfl h
  | variantEnd => exact effect_closeScope rfl h

/-- A call that meets the limit of lengths half way fails for it and leaves another writer. -/
theorem Move.run_of_overflows {m : Move} (h : m.Overflows w) :
    ∃ n w', m.step.run w = (.error (.tooLarge n), w') ∧ w' ≠ w := by
  have hclose (tag : Tag) {scope : Scope} (h : w.Closes scope ∧ lengthLimit ≤ w.top.body.size) :
      ∃ n w', (closeScope tag scope).run w = (.error (.tooLarge n), w') ∧ w' ≠ w := by
    obtain ⟨outer, below, hb, hrun⟩ := run_closeScope_of_overlong tag h.1 h.2
    refine ⟨_, _, hrun, fun he ↦ ?_⟩
    rw [← he] at hb
    exact List.cons_ne_self _ _ hb.symm
  cases m with
  | listEnd => exact hclose .list h
  | mapEnd => exact hclose .map h
  | variantEnd => exact hclose .variant h
  | variantBegin name =>
    refine ⟨_, _, run_variantBegin_of_overlong h.1 h.2, ?_⟩
    intro he
    exact List.cons_ne_self _ _ (congrArg Writer.below he)
  | _ => exact h.elim

/-- A call that does not meet the limit half way keeps a writer sound. -/
theorem Effect.sound {r : Except Fault Unit × Writer} (h : Effect w r) (hw : w.Sound) :
    r.2.Sound := by
  cases h with
  | refused e => exact hw
  | put hf ha => exact hw.push hf ha
  | opened hf ht ha => exact hw.opened hf ht ha
  | closed hb ht hc hl =>
    obtain ⟨top, below⟩ := w
    obtain rfl := hb
    exact hw.closed ht hc hl

/-! ## Calls one after another -/

/-- The writer after steps one after another, those that fail included. -/
def after (w : Writer) : List (Step Unit) → Writer
  | [] => w
  | x :: xs => after (x.run w).2 xs

/-- Whether no call of a number of calls meets the limit of lengths half way. -/
def Smooth (w : Writer) : List Move → Prop
  | [] => True
  | m :: ms => ¬ m.Overflows w ∧ Smooth (m.step.run w).2 ms

theorem Sound.after {moves : List Move} (hw : w.Sound) (h : w.Smooth moves) :
    (w.after (moves.map Move.step)).Sound := by
  induction moves generalizing w with
  | nil => exact hw
  | cons m ms ih => exact ih ((Move.effect h.1).sound hw) h.2

/-- Whatever was called before, a call that fails leaves the writer as it was if and only if it does
not meet the limit of lengths half way.  Where no call did, only the bytes of whole items are
released. -/
theorem Move.eq_iff_of_refused (moves : List Move) :
    (∀ {m : Move} {w' : Writer} {e : Fault},
      m.step.run (empty.after (moves.map Move.step)) = (.error e, w') →
        (w' = empty.after (moves.map Move.step) ↔
          ¬ m.Overflows (empty.after (moves.map Move.step)))) ∧
    (Smooth empty moves → ∀ {bytes : List UInt8},
      (empty.after (moves.map Move.step)).finish = .ok bytes →
        ∃ items : List Item, (∀ item ∈ items, item.Fits) ∧
          bytes = items.flatMap Item.layout) := by
  constructor
  · intro m w' e hrun
    generalize empty.after (moves.map Move.step) = w at hrun ⊢
    constructor
    · rintro rfl ho
      obtain ⟨n, w', hrun', hne⟩ := m.run_of_overflows ho
      exact hne (Prod.mk.inj (hrun'.symm.trans hrun)).2
    · intro ho
      have heff := m.effect ho
      rw [hrun] at heff
      cases heff
      rfl
  · intro hsmooth bytes hfinish
    unfold finish at hfinish
    split at hfinish
    · next hb =>
      cases hfinish
      obtain ⟨items, hfits, hlayout, -⟩ := (sound_empty.after hsmooth).items hb
      exact ⟨items, hfits, hlayout⟩
    · cases hfinish

/-- A map refuses what is no variant and a variant a second item, and what was refused is not among
the bytes. -/
theorem Move.eq_iff_of_refused_unit :
    (∃ w', Move.unit.step.run (empty.after [Move.mapBegin.step]) = (.error .invalidMapEntry, w') ∧
      (w' = empty.after [Move.mapBegin.step] ↔
        ¬ Move.unit.Overflows (empty.after [Move.mapBegin.step]))) ∧
    ∃ items : List Item, (∀ item ∈ items, item.Fits) ∧
      [0x33, 0x07, 0, 0, 0, 0x10, 0x01, 0, 0, 0, 0x61, 0x0E] = items.flatMap Item.layout := by
  refine ⟨⟨_, rfl, (Move.eq_iff_of_refused [.mapBegin]).1 rfl⟩, ?_⟩
  have hsmooth : Smooth empty [.variantBegin "a", .variantEnd, .unit, .unit, .variantEnd] :=
    ⟨fun h ↦ absurd h.2 (by decide +kernel), fun h ↦ absurd h.2 (by decide +kernel), id, id,
      fun h ↦ absurd h.2 (by decide +kernel), trivial⟩
  exact (Move.eq_iff_of_refused _).2 hsmooth rfl

/-! ## At the limit of lengths -/

/-- A list that holds as many bytes as four bytes can count is too long to be closed.  It is closed
all the same, under a length of zero. -/
theorem run_listEnd_of_overlong {body : List UInt8} (hb : body.length < lengthLimit)
    (hl : lengthLimit ≤ body.length + 5) :
    ∃ w', Move.listEnd.step.run (empty.after [Move.listBegin.step, (Move.bytes body).step]) =
        (.error (.tooLarge (body.length + 5)), w') ∧
      w' ≠ empty.after [Move.listBegin.step, (Move.bytes body).step] ∧
      w'.finish = .ok (Tag.list.byte :: littleEndian 4 0 ++ sized .bytes body) := by
  have hw : empty.after [Move.listBegin.step, (Move.bytes body).step] =
      ⟨(Frame.opened .list).push (sized .bytes body), [.opened .root]⟩ := by
    have happ : Appends .list (bytes body) 1 (sized .bytes body) := .putSized (by decide) hb
    have hbegin : Writer.listBegin.run empty = (.ok (), ⟨.opened .list, [.opened .root]⟩) := rfl
    have hbytes := happ (.opened .list) [.opened .root] (.opened _ (.inl (by decide)))
    simp only [after, Move.step, hbegin, hbytes, Frame.grow_one]
  have hsize : ((Frame.opened .list).push (sized .bytes body)).body.toList = sized .bytes body := by
    simp [Frame.opened]
  rw [hw]
  obtain ⟨outer, below, hcons, hrun⟩ := run_closeScope_of_overlong .list
    (w := ⟨(Frame.opened .list).push (sized .bytes body), [.opened .root]⟩)
    ⟨by simp, rfl, by simp⟩ (by rw [← Array.length_toList, hsize, length_sized]; exact hl)
  cases hcons
  rw [← Array.length_toList, hsize, length_sized] at hrun
  refine ⟨_, hrun, ?_, ?_⟩
  · simp
  · simp [finish, Frame.append, Frame.opened]

/-- A call that fails may leave something behind, and what is left may be released. -/
theorem Move.not_eq_of_refused : ∃ w w' n, w = empty.after [Move.listBegin.step,
      (Move.bytes (List.replicate 4294967295 0)).step] ∧
    Move.listEnd.step.run w = (.error (.tooLarge n), w') ∧ w' ≠ w ∧
    w'.finish = .ok (Tag.list.byte :: littleEndian 4 0 ++
      sized .bytes (List.replicate 4294967295 0)) := by
  have hlen : (List.replicate 4294967295 (0 : UInt8)).length = 4294967295 := List.length_replicate
  obtain ⟨w', hrun, hne, hfinish⟩ :=
    run_listEnd_of_overlong (by rw [hlen]; decide) (by rw [hlen]; decide)
  exact ⟨_, w', _, rfl, hrun, hne, hfinish⟩

end Interchange.Tlv.Writer
