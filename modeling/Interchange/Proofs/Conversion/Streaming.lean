import Interchange.Proofs.Conversion.Agreement
import Interchange.Proofs.Conversion.Inputs
import Interchange.Proofs.Streams

/-!
# Encoding streams

A stream is encoded item by item as it is pulled.  What the items come to does not depend on the
session, so pulling between them makes no difference: a stream comes to what the list of its items
comes to.  It is only pulled as far as that is settled: up to the first item whose conversion fails,
and else to its end.

Two things a list cannot do: a stream may fail itself, which is the outcome if all items before
convert, and it may give nothing, which is refused.  But before anything is pulled the type of the
list has to be described.
-/

namespace Interchange

open Session Attempt

/-! ## Items one after the other -/

/-- Encodes the item at a position of a list, one level further in. -/
def encodeItem (deeper : Option Encoder) (place : Place) (element : HostType) (d : Descriptor)
    (i : Nat) (v : Value) : Conversion Literal := do
  let (encode, inner) ← .ofExcept (enter deeper place (.index i))
  encode inner element v d

/-- What items from a position on come to, one after the other. -/
def convertAll (item : Nat → Value → Except Fault Literal) :
    Nat → List Value → Except Fault (List Literal)
  | _, [] => .ok []
  | i, v :: vs => do
    let l ← item i v
    return l :: (← convertAll item (i + 1) vs)

/-- Of items from a position on, the first whose conversion fails is so many after the first of
all. -/
inductive FailsAt (item : Nat → Value → Except Fault Literal) :
    Nat → List Value → Nat → Fault → Prop
  | here {i : Nat} {v : Value} {vs : List Value} {f : Fault} (h : item i v = .error f) :
    FailsAt item i (v :: vs) 0 f
  | later {i k : Nat} {v : Value} {vs : List Value} {f : Fault} {l : Literal}
    (h : item i v = .ok l) (rest : FailsAt item (i + 1) vs k f) : FailsAt item i (v :: vs) (k + 1) f

section

variable {item : Nat → Value → Except Fault Literal} {i k : Nat} {vs : List Value}
  {ls : List Literal} {f g : Fault}

theorem length_of_convertAll (h : convertAll item i vs = .ok ls) : ls.length = vs.length := by
  induction vs generalizing i ls with
  | nil =>
    cases h
    rfl
  | cons v vs ih =>
    obtain ⟨l, -, h⟩ := bind_eq_ok.mp h
    obtain ⟨ls, hls, h⟩ := bind_eq_ok.mp h
    cases h
    exact congrArg Nat.succ (ih hls)

theorem FailsAt.unique {k' : Nat} (h : FailsAt item i vs k f) (h' : FailsAt item i vs k' g) :
    k = k' ∧ f = g := by
  induction h generalizing k' with
  | here h =>
    rcases h' with h' | ⟨h', -⟩ <;> cases h.symm.trans h'
    exact ⟨rfl, rfl⟩
  | later h _ ih =>
    rcases h' with h' | ⟨-, rest⟩
    · cases h.symm.trans h'
    · obtain ⟨rfl, rfl⟩ := ih rest
      exact ⟨rfl, rfl⟩

/-- Items do not all convert just if there is a first that fails, and that is the outcome. -/
theorem convertAll_eq_error_iff : convertAll item i vs = .error f ↔ ∃ k, FailsAt item i vs k f := by
  induction vs generalizing i with
  | nil =>
    constructor
    · rintro ⟨⟩
    · rintro ⟨k, ⟨⟩⟩
  | cons v vs ih =>
    rw [convertAll]
    cases hitem : item i v with
    | error g =>
      constructor
      · rintro ⟨⟩
        exact ⟨0, .here hitem⟩
      · rintro ⟨k, h | ⟨h, -⟩⟩ <;> cases hitem.symm.trans h
        rfl
    | ok l =>
      have hrest : (convertAll item (i + 1) vs >>= fun ls ↦ pure (l :: ls)) = .error f ↔
          convertAll item (i + 1) vs = .error f := by
        cases convertAll item (i + 1) vs <;> simp
      rw [ok_bind, hrest, ih]
      constructor
      · rintro ⟨k, h⟩
        exact ⟨k + 1, .later hitem h⟩
      · rintro ⟨k, h | ⟨-, h⟩⟩
        · cases hitem.symm.trans h
        · exact ⟨_, h⟩

end

/-! ## Items as they are pulled -/

section

variable {I : Session → Prop} {deeper : Option Encoder} {place : Place} {t : HostType}
  {d : Descriptor} {item : Nat → Value → Except Fault Literal} {i k id fuel : Nat} {v : Value}
  {vs : List Value} {ls : List Literal} {f : Option Fault} {g : Fault} {s s' : Session}

/-- In all sessions of a kind, items convert like this, and the session stays as it is. -/
def ConvertsLike (I : Session → Prop) (deeper : Option Encoder) (place : Place) (t : HostType)
    (d : Descriptor) (item : Nat → Value → Except Fault Literal) (vs : List Value) : Prop :=
  ∀ i, ∀ v ∈ vs, ∀ s, I s → (encodeItem deeper place t d i v).run s = (item i v, s)

theorem ConvertsLike.tail (h : ConvertsLike I deeper place t d item (v :: vs)) :
    ConvertsLike I deeper place t d item vs := fun i w hw ↦ h i w (List.mem_cons_of_mem _ hw)

theorem encodeItems_cons : encodeItems deeper place t d i (v :: vs) = (do
    let l ← encodeItem deeper place t d i v
    return l :: (← encodeItems deeper place t d (i + 1) vs)) := by
  rw [encodeItems, encodeItem, bind_assoc]

/-- A list of items comes to what the items come to one after the other. -/
theorem run_encodeItems (hitem : ConvertsLike I deeper place t d item vs) (hs : I s) :
    (encodeItems deeper place t d i vs).run s = (convertAll item i vs, s) := by
  induction vs generalizing i with
  | nil => rfl
  | cons v vs ih =>
    rw [encodeItems_cons, run_bind, hitem i v List.mem_cons_self s hs, convertAll]
    cases item i v with
    | error g => rfl
    | ok l =>
      dsimp only
      rw [run_bind, ih hitem.tail, ok_bind]
      cases convertAll item (i + 1) vs <;> rfl

/-- An item that is pulled is encoded before the next is pulled. -/
theorem run_encodePulled_of_item (hrun : (pull false id).run s = (.ok (some v), s')) :
    (encodePulled deeper false place t d id (fuel + 1) i).run s = (do
      let l ← encodeItem deeper place t d i v
      return l :: (← encodePulled deeper false place t d id fuel (i + 1)) :
        Conversion (List Literal)).run s' := by
  rw [encodePulled, run_bind_of_ok hrun, encodeItem, bind_assoc]

/-- What the literals of all items of a stream come to, given how it ends. -/
def endedBy (ls : List Literal) : Option Fault → Except Fault (List Literal)
  | none => .ok ls
  | some g => .error g

variable (hI : ∀ s source, I s → I (s.setSource id source))

include hI

theorem of_run_pull {outcome : Except Fault (Option Value)} (hs : I s)
    (hrun : (pull false id).run s = (outcome, s')) : I s' := by
  obtain ⟨source, -, rfl⟩ := run_pull_eq_iff.mp hrun
  exact hI s source hs

/-- Where all items convert, the stream is pulled until it is over. -/
theorem run_encodePulled_of_convertAll (h : Delivers id vs f s)
    (hitem : ConvertsLike I deeper place t d item vs) (hs : I s) (hfuel : vs.length < fuel)
    (hls : convertAll item i vs = .ok ls) :
    ∃ s', (encodePulled deeper false place t d id fuel i).run s = (endedBy ls f, s') ∧
      s'.source id = .over := by
  induction h generalizing fuel i ls with
  | @ends s s' hrun hover =>
    obtain ⟨fuel, rfl⟩ := Nat.exists_eq_add_one_of_ne_zero (Nat.ne_zero_of_lt hfuel)
    cases hls
    rw [encodePulled, run_bind_of_ok hrun]
    exact ⟨s', rfl, hover⟩
  | @fails s s' g hrun hover =>
    obtain ⟨fuel, rfl⟩ := Nat.exists_eq_add_one_of_ne_zero (Nat.ne_zero_of_lt hfuel)
    rw [encodePulled, run_bind_of_error hrun]
    exact ⟨s', rfl, hover⟩
  | @item s s₁ v vs f hrun rest ih =>
    obtain ⟨fuel, rfl⟩ := Nat.exists_eq_add_one_of_ne_zero (Nat.ne_zero_of_lt hfuel)
    obtain ⟨l, hl, hls⟩ := bind_eq_ok.mp hls
    obtain ⟨ls, hothers, hls⟩ := bind_eq_ok.mp hls
    cases hls
    have hs₁ := of_run_pull hI hs hrun
    have hencode := hitem i v List.mem_cons_self s₁ hs₁
    rw [hl] at hencode
    obtain ⟨s', hpulled, hover⟩ := ih hitem.tail hs₁ (Nat.lt_of_succ_lt_succ hfuel) hothers
    refine ⟨s', ?_, hover⟩
    rw [run_encodePulled_of_item hrun, run_bind_of_ok hencode, run_bind, hpulled]
    cases f <;> rfl

/-- Where the conversion of an item fails, the stream is pulled up to that item. -/
theorem run_encodePulled_of_failsAt (hfails : FailsAt item i vs k g) (h : Delivers id vs f s)
    (hitem : ConvertsLike I deeper place t d item vs) (hs : I s) (hfuel : vs.length < fuel) :
    ∃ s', (encodePulled deeper false place t d id fuel i).run s = (.error g, s') ∧
      Delivers id (vs.drop (k + 1)) f s' := by
  induction hfails generalizing fuel s with
  | @here i v vs g hv =>
    cases h with
    | @item _ s₁ _ _ _ hrun rest =>
    obtain ⟨fuel, rfl⟩ := Nat.exists_eq_add_one_of_ne_zero (Nat.ne_zero_of_lt hfuel)
    have hs₁ := of_run_pull hI hs hrun
    have hencode := hitem i v List.mem_cons_self s₁ hs₁
    rw [hv] at hencode
    rw [run_encodePulled_of_item hrun, run_bind_of_error hencode]
    exact ⟨s₁, rfl, rest⟩
  | @later i k v vs g l hv _ ih =>
    cases h with
    | @item _ s₁ _ _ _ hrun rest =>
    obtain ⟨fuel, rfl⟩ := Nat.exists_eq_add_one_of_ne_zero (Nat.ne_zero_of_lt hfuel)
    have hs₁ := of_run_pull hI hs hrun
    have hencode := hitem i v List.mem_cons_self s₁ hs₁
    rw [hv] at hencode
    obtain ⟨s', hpulled, hrest⟩ := ih rest hitem.tail hs₁ (Nat.lt_of_succ_lt_succ hfuel)
    refine ⟨s', ?_, hrest⟩
    rw [run_encodePulled_of_item hrun, run_bind_of_ok hencode, run_bind_of_error hpulled]

/-- A stream that gives nothing is refused. -/
def nonEmpty (place : Place) : List Literal → Except Fault (List Literal)
  | [] => .error (.emptyStream place.path)
  | ls => .ok ls

omit hI in
theorem run_encodeStream {outcome : Except Fault (List Literal)}
    (h : (encodePulled deeper false place t d id (s.remaining id + 1) 0).run s = (outcome, s')) :
    (encodeStream deeper false place t d id).run s = (outcome >>= nonEmpty place, s') := by
  rw [encodeStream, run_bind_of_ok (run_get s), run_bind, h]
  rcases outcome with g | _ | ⟨l, ls⟩ <;> rfl

end

/-! ## Streams as values -/

namespace Setup

variable {u : Setup} {place : Place} {t : HostType} {d : Descriptor} {v : Value}
  {s s' s₁ s₂ : Session} {id k : Nat} {items : List Value} {ls : List Literal}
  {f : Option Fault} {g : Fault}

/-- What the item at a position of a list comes to, in a session that describes its type so. -/
def itemOutcome (u : Setup) (s : Session) (place : Place) (element : HostType) (d : Descriptor)
    (i : Nat) (v : Value) : Except Fault Literal :=
  (encodeItem (below (u.registry.encode (some u.delegate)) (u.levels place)) place element d i
    v).outcome s

theorem run_toLiteral_of_run {outcome : Except Fault Literal}
    (hd : (u.describe place t).run s = (.ok d, s₁))
    (hl : (u.encode place t v d).run s₁ = (outcome, s₂)) :
    (u.toLiteral place t v).run s = (outcome >>= u.verified place d, s₂) := by
  show (u.describe place t >>= _).run s = _
  rw [run_bind_of_ok hd]
  show (u.encode place t v d >>= _).run s₁ = _
  rw [run_bind, hl]
  cases outcome <;> rfl

theorem run_encode_stream {outcome : Except Fault (List Literal)} (hr : u.registry.Standard)
    (h : (encodePulled (below (u.registry.encode (some u.delegate)) (u.levels place)) false place t
      d id (s.remaining id + 1) 0).run s = (outcome, s')) :
    (u.encode place (.list t) (.stream id) (.collection d)).run s =
      (Literal.collection <$> (outcome >>= nonEmpty place), s') := by
  rw [Setup.encode, Registry.encode_of_resolve (hr.resolve_generic (o := .sequence) rfl)]
  show (Literal.collection <$> encodeStream _ false place t d id).run s = _
  rw [run_map, run_encodeStream h]
  rfl

/-- Describing a type takes nothing from a stream, even if it fails. -/
theorem delivers_of_describe {outcome : Except Fault Descriptor} (h : Delivers id items f s)
    (hd : (u.describe place t).run s = (outcome, s')) : Delivers id items f s' := by
  obtain ⟨ds, rfl⟩ := (onlyRecalls_describe (u.levels place) place t).of_run hd
  exact h.congr rfl rfl rfl

theorem recalls_setSource {r : Registry} {known : Knowledge} {source : Source}
    (h : s.Recalls r known) : (s.setSource id source).Recalls r known :=
  ⟨h.coherent, h.knows⟩

section

variable (hr : u.registry.Standard) (hs : s.Coherent u.registry)

include hr hs

/-- A list is described by the descriptor of its items, and sessions that remember that convert the
items alike. -/
theorem convertsLike_of_describe {d' : Descriptor} (hfree : ∀ v ∈ items, v.StreamFree)
    (hd : (u.describe place (.list t)).run s = (.ok d', s₁)) :
    ∃ d, d' = .collection d ∧ s₁.Recalls u.registry s₁.known ∧
      ConvertsLike (Session.Recalls u.registry s₁.known)
        (below (u.registry.encode (some u.delegate)) (u.levels place)) place t d
        (u.itemOutcome s₁ place t d) items := by
  obtain ⟨hs₁, hdescribed⟩ := describe_ok hs hd
  have resolved : u.registry.resolve (.list t) = .ok .sequence :=
    hr.resolve_generic (o := .sequence) rfl
  cases hdescribed with
  | intro _ resolved' composed described =>
    cases resolved.symm.trans resolved'
    cases composed with
    | @list _ d =>
      refine ⟨d, rfl, hs₁, fun i v hv s₂ hs₂ ↦ ?_⟩
      have hsteady : Steady (Session.Recalls u.registry s₁.known)
          (encodeItem (below (u.registry.encode (some u.delegate)) (u.levels place)) place t d i
            v) :=
        steady_enter fun n _ ↦
          (described (t, d) List.mem_cons_self).steady_encode hr.builtin (hfree v hv)
      exact (hsteady.run_eq hs₁ hs₂ (Prod.ext rfl rfl)).2

variable (hfree : ∀ v ∈ items, v.StreamFree)

include hfree

/-- The literal of a list is that of what its items come to. -/
theorem run_toLiteral_list
    (hd : (u.describe place (.list t)).run s = (.ok (.collection d), s₁)) :
    (u.toLiteral place (.list t) (.list items)).run s =
      (Literal.collection <$> convertAll (u.itemOutcome s₁ place t d) 0 items >>=
        u.verified place (.collection d), s₁) := by
  obtain ⟨_, ⟨⟩, hs₁, hitem⟩ := convertsLike_of_describe hr hs hfree hd
  refine run_toLiteral_of_run hd ?_
  rw [Setup.encode, Registry.encode_of_resolve (hr.resolve_generic (o := .sequence) rfl)]
  show (Literal.collection <$> encodeItems _ place t d 0 items).run s₁ = _
  rw [run_map, run_encodeItems hitem hs₁]
  rfl

variable (hid : Delivers id items f s)

include hid

/-- Where all items convert, a stream is pulled until it is over. -/
theorem run_toLiteral_stream_of_convertAll
    (hd : (u.describe place (.list t)).run s = (.ok (.collection d), s₁))
    (hls : convertAll (u.itemOutcome s₁ place t d) 0 items = .ok ls) :
    ∃ s₂, (u.toLiteral place (.list t) (.stream id)).run s =
        (Literal.collection <$> (endedBy ls f >>= nonEmpty place) >>=
          u.verified place (.collection d), s₂) ∧
      s₂.source id = .over := by
  obtain ⟨_, ⟨⟩, hs₁, hitem⟩ := convertsLike_of_describe hr hs hfree hd
  have hid₁ := delivers_of_describe hid hd
  obtain ⟨s₂, hpulled, hover⟩ := run_encodePulled_of_convertAll (fun _ _ ↦ recalls_setSource) hid₁
    hitem hs₁ (Nat.lt_succ_of_le hid₁.length_le) hls
  exact ⟨s₂, run_toLiteral_of_run hd (run_encode_stream hr hpulled), hover⟩

/-- Where the conversion of an item fails, a stream is pulled up to that item. -/
theorem run_toLiteral_stream_of_failsAt
    (hd : (u.describe place (.list t)).run s = (.ok (.collection d), s₁))
    (hfails : FailsAt (u.itemOutcome s₁ place t d) 0 items k g) :
    ∃ s₂, (u.toLiteral place (.list t) (.stream id)).run s = (.error g, s₂) ∧
      Delivers id (items.drop (k + 1)) f s₂ := by
  obtain ⟨_, ⟨⟩, hs₁, hitem⟩ := convertsLike_of_describe hr hs hfree hd
  have hid₁ := delivers_of_describe hid hd
  obtain ⟨s₂, hpulled, hrest⟩ := run_encodePulled_of_failsAt (fun _ _ ↦ recalls_setSource) hfails
    hid₁ hitem hs₁ (Nat.lt_succ_of_le hid₁.length_le)
  exact ⟨s₂, run_toLiteral_of_run hd (run_encode_stream hr hpulled), hrest⟩

end

end Setup

namespace Engine

variable {e : Engine} {id : Nat} {items : List Value} {f : Option Fault}

/-- A stream of values without streams is encoded like the list of its items.

If the type of the list has no descriptor, that is the outcome and nothing is pulled.  Otherwise, at
the first item whose conversion fails, that is the outcome and the items after it are still to come.
If all items convert, the stream is over afterwards; then it is refused if there was no item, and if
the stream failed itself, its failure is the outcome. -/
theorem toLiteral_stream (he : e.Reachable) (hr : e.setup.registry.Standard)
    (hfree : ∀ v ∈ items, v.StreamFree) (hid : Delivers id items f e.session) (place : Place)
    (t : HostType) :
    ∃ outcome e', (convert fun u ↦ u.toLiteral place (.list t) (.stream id)).run e =
        (outcome, e') ∧
      (f = none → items ≠ [] →
        outcome = (convert fun u ↦ u.toLiteral place (.list t) (.list items)).outcome e) ∧
      (∀ l, outcome = .ok l → ∀ n, pulls id n e'.session = List.replicate n (.ok none)) ∧
      ((∃ g, (convert fun u ↦ u.describe place (.list t)).outcome e = .error g ∧
          outcome = .error g ∧ Delivers id items f e'.session) ∨
        ∃ d s, (e.setup.describe place (.list t)).run e.session = (.ok (.collection d), s) ∧
          (∀ i g, FailsAt (e.setup.itemOutcome s place t d) 0 items i g →
            outcome = .error g ∧ Delivers id (items.drop (i + 1)) f e'.session) ∧
          ∀ ls, convertAll (e.setup.itemOutcome s place t d) 0 items = .ok ls →
            (∀ n, pulls id n e'.session = List.replicate n (.ok none)) ∧
            (∀ g, f = some g → outcome = .error g) ∧
            (f = none → items = [] → outcome = .error (.emptyStream place.path))) := by
  rcases hd : (e.setup.describe place (.list t)).run e.session with ⟨g | d', s⟩
  · have hliteral (v : Value) :
        (e.setup.toLiteral place (.list t) v).run e.session = (.error g, s) :=
      run_bind_of_error hd _
    refine ⟨_, _, run_convert_of_run (hliteral _), fun _ _ ↦ ?_, ?_, .inl ⟨g, ?_, rfl, ?_⟩⟩
    · exact (outcome_of_run (run_convert_of_run (hliteral _))).symm
    · rintro l ⟨⟩
    · exact outcome_of_run (run_convert_of_run hd)
    · exact Setup.delivers_of_describe hid hd
  · obtain ⟨d, rfl, -, -⟩ := Setup.convertsLike_of_describe hr he.coherent hfree hd
    have hlist := outcome_of_run (run_convert_of_run
      (x := fun u ↦ u.toLiteral place (.list t) (.list items))
      (Setup.run_toLiteral_list hr he.coherent hfree hd))
    cases hall : convertAll (e.setup.itemOutcome s place t d) 0 items with
    | error g =>
      obtain ⟨k, hfails⟩ := convertAll_eq_error_iff.mp hall
      obtain ⟨s₂, hrun, hrest⟩ :=
        Setup.run_toLiteral_stream_of_failsAt hr he.coherent hfree hid hd hfails
      refine ⟨_, _, run_convert_of_run hrun, fun _ _ ↦ ?_, ?_, .inr ⟨d, s, rfl, ?_, ?_⟩⟩
      · rw [hlist, hall]
        rfl
      · rintro l ⟨⟩
      · intro i g' hfails'
        obtain ⟨rfl, rfl⟩ := hfails.unique hfails'
        exact ⟨rfl, hrest⟩
      · intro ls hls
        cases hall.symm.trans hls
    | ok ls =>
      obtain ⟨s₂, hrun, hover⟩ :=
        Setup.run_toLiteral_stream_of_convertAll hr he.coherent hfree hid hd hall
      have hover' := pulls_of_over hover
      refine ⟨_, _, run_convert_of_run hrun, ?_, fun _ _ ↦ hover',
        .inr ⟨d, s, rfl, ?_, fun _ _ ↦ ⟨hover', ?_, ?_⟩⟩⟩
      · rintro rfl hne
        have hls : ls ≠ [] := by
          rintro rfl
          exact hne (List.eq_nil_of_length_eq_zero (length_of_convertAll hall).symm)
        rw [hlist, hall]
        obtain ⟨l, ls, rfl⟩ := List.exists_cons_of_ne_nil hls
        rfl
      · intro i g hfails
        have herror := convertAll_eq_error_iff.mpr ⟨i, hfails⟩
        rw [hall] at herror
        cases herror
      · rintro g rfl
        rfl
      · intro hf hitems
        subst hf hitems
        obtain rfl : ls = [] := List.eq_nil_of_length_eq_zero (length_of_convertAll hall)
        rfl

/-! ## Streams of integers -/

/-- An engine that has a stream besides. -/
def withStream (e : Engine) (source : Source) : Engine :=
  { e with session := (e.session.addStream source).2 }

theorem Reachable.withStream {e : Engine} (he : e.Reachable) (source : Source) :
    (e.withStream source).Reachable := by
  have quiet : Quiet (modifyGet (·.addStream source)) := fun s ↦
    show (s.addStream source).2.described = s.described from rfl
  exact he.step (.converts (.call (.other _ quiet) e))

/-- Two integers, with a string in between. -/
def mixedItems : List Value :=
  [.scalar (.integer 1), .scalar (.string "a"), .scalar (.integer 2)]

/-- A string among integers fails the conversion, and what is after it is still to come. -/
theorem toLiteral_stream_integers : ∃ e',
    (convert fun u ↦ u.toLiteral .root (.list (.ofKind .integer)) (.stream 0)).run
        (freshEngine.withStream (.items (mixedItems.map .ok))) =
      (.error (.typeMismatch [.index 1] "int" "str"), e') ∧
    pulls 0 2 e'.session = [.ok (some (.scalar (.integer 2))), .ok none] := by
  let e := freshEngine.withStream (.items (mixedItems.map .ok))
  have hdelivers : Delivers 0 mixedItems none e.session :=
    .item rfl (.item rfl (.item rfl (.ends rfl rfl)))
  have hd₀ : (e.setup.describe .root (.list (.ofKind .integer))).run e.session =
      (.ok (.collection (.primitive .integer)), _) := Prod.ext rfl rfl
  obtain ⟨outcome, e', hrun, -, -, ⟨g, hd, -⟩ | ⟨d, s, hd, hfails, -⟩⟩ :=
    toLiteral_stream (reachable_freshEngine.withStream _) standard_freshEngine
      (by simp [mixedItems, Value.StreamFree]) hdelivers .root (.ofKind .integer)
  · cases (outcome_of_run (run_convert_of_run hd₀)).symm.trans hd
  · cases hd₀.symm.trans hd
    obtain ⟨rfl, hrest⟩ := hfails 1 _ (.later rfl (.here rfl))
    exact ⟨e', hrun, hrest.pulls_eq 0⟩

/-- Where the type of the list has no descriptor, an empty stream is not refused for being empty. -/
theorem not_toLiteral_stream_nil :
    ¬ ∀ (e : Engine) (id : Nat) (t : HostType), e.Reachable → e.setup.registry.Standard →
      Delivers id [] none e.session →
      (convert fun u ↦ u.toLiteral .root (.list t) (.stream id)).outcome e =
        .error (.emptyStream .root) := by
  intro h
  have hempty := h (freshEngine.withStream (.items [])) 0 (.union [])
    (reachable_freshEngine.withStream _) standard_freshEngine (.ends rfl rfl)
  have hundescribed : (convert fun u ↦ u.toLiteral .root (.list (.union [])) (.stream 0)).outcome
      (freshEngine.withStream (.items [])) = .error (.unsupportedType "Union[]") := rfl
  cases hundescribed.symm.trans hempty

end Engine

end Interchange
