import Interchange.Conversion.Decode
import Interchange.Conversion.Encode
import Interchange.Proofs.Conversion.Describe

/-!
# Properties of all conversions

Encoding and decoding are built from blind steps, from describing types and from what the worker may
be asked for.  So a compositional property that these have is one of every conversion between values
and literals.  This is shown for each function in turn, for any registry.
-/

namespace Interchange

open Session Attempt

/-- A compositional property that describing has. -/
structure Pervades (r : Registry) (P : ∀ α : Type, Conversion α → Prop) : Prop
    extends Compositional P where
  describe : ∀ levels place t, P _ (r.describe levels place t)

/-- What the worker may ask for has a property. -/
structure Delegate.Has (P : ∀ α : Type, Conversion α → Prop) (ask : Delegate) : Prop where
  encode : ∀ t v, P _ (ask.encode t v)
  decode : ∀ t l, P _ (ask.decode t l)

variable {P : ∀ α : Type, Conversion α → Prop} {r : Registry} {α : Type}

/-! ## Work on the worker -/

namespace Compositional

variable {worker : Option Delegate} {place : Place}

theorem suspend (hP : Compositional P) {work : Delegate → Conversion α}
    (h : ∀ ask, worker = some ask → P _ (work ask)) : P _ (suspend worker place work) := by
  cases worker with
  | none => exact hP.throw _
  | some ask =>
    refine hP.get_bind (·.isCancelled place.token) (fun _ _ ↦ rfl) (k := fun c ↦ do
      if c then MonadExcept.throw Fault.cancelled
      work ask) fun _ ↦ ?_
    exact hP.guard _ (h ask rfl)

theorem finish_job (hP : Compositional P) {ask : HostType → Conversion α} (h : ∀ t, P _ (ask t))
    (job : Job α) : P _ (job.finish place ask) := by
  cases job with
  | done result => exact hP.ofExcept _
  | stalled =>
    have hthrow : P α (MonadExcept.throw .cancelled) := hP.throw _
    unfold Job.finish
    dsimp only
    split
    · next token _ =>
      exact hP.bind (hP.blind (.modify fun s ds ↦ s.setMark_recalling ds token _)) fun _ ↦ hthrow
    · exact hthrow
  | delegated t => exact h t

theorem finish (hP : Compositional P) {ask : Delegate → HostType → Conversion α}
    (h : ∀ delegate, worker = some delegate → ∀ t, P _ (ask delegate t)) (work : Work α) :
    P _ (work.finish worker place ask) := by
  cases work with
  | done result => exact hP.ofExcept _
  | suspended job => exact hP.suspend fun delegate hd ↦ hP.finish_job (h delegate hd) job

end Compositional

/-! ## Encoding -/

namespace Compositional

variable {deeper : Option Encoder} {place : Place} {t : HostType} {d : Descriptor}

theorem encodeItems (hP : Compositional P)
    (h : ∀ encode, deeper = some encode → ∀ place t v d, P _ (encode place t v d))
    (i : Nat) (vs : List Value) : P _ (encodeItems deeper place t d i vs) := by
  induction vs generalizing i with
  | nil => exact hP.pure _
  | cons v vs ih =>
    refine hP.bind_ofExcept fun entered he ↦ ?_
    obtain ⟨hd, -⟩ := enter_eq_ok.mp he
    exact hP.bind (h _ hd _ _ _ _) fun _ ↦ hP.bind (ih _) fun _ ↦ hP.pure _

theorem encodePulled (hP : Compositional P)
    (h : ∀ encode, deeper = some encode → ∀ place t v d, P _ (encode place t v d))
    (onWorker : Bool) (id fuel i : Nat) :
    P _ (encodePulled deeper onWorker place t d id fuel i) := by
  induction fuel generalizing i with
  | zero => exact hP.pure _
  | succ fuel ih =>
    refine hP.bind (hP.blind (blind_pull onWorker id)) fun v ↦ ?_
    cases v with
    | none => exact hP.pure _
    | some v =>
      refine hP.bind_ofExcept fun entered he ↦ ?_
      obtain ⟨hd, -⟩ := enter_eq_ok.mp he
      exact hP.bind (h _ hd _ _ _ _) fun _ ↦ hP.bind (ih _) fun _ ↦ hP.pure _

theorem encodeStream (hP : Compositional P)
    (h : ∀ encode, deeper = some encode → ∀ place t v d, P _ (encode place t v d))
    (onWorker : Bool) (id : Nat) : P _ (encodeStream deeper onWorker place t d id) := by
  refine hP.get_bind (·.remaining id + 1) (fun _ _ ↦ rfl) fun fuel ↦
    hP.bind (hP.encodePulled h onWorker id fuel 0) fun ls ↦ ?_
  cases ls with
  | nil => exact hP.throw _
  | cons l ls => exact hP.pure _

theorem encodeEntries (hP : Compositional P)
    (h : ∀ encode, deeper = some encode → ∀ place t v d, P _ (encode place t v d))
    (es : List (String × Value)) : P _ (encodeEntries deeper place t d es) := by
  induction es with
  | nil => exact hP.pure _
  | cons e es ih =>
    refine hP.bind_ofExcept fun entered he ↦ ?_
    obtain ⟨hd, -⟩ := enter_eq_ok.mp he
    exact hP.bind (h _ hd _ _ _ _) fun _ ↦ hP.bind ih fun _ ↦ hP.pure _

theorem encodeFields (hP : Compositional P)
    (h : ∀ encode, deeper = some encode → ∀ place t v d, P _ (encode place t v d))
    {describe : Describer} (hdescribe : ∀ place t, P _ (describe place t)) (onWorker : Bool)
    (s : Schema) (described : List (String × Descriptor)) (fields : List (String × Value)) :
    P _ (encodeFields deeper describe onWorker place s described fields) := by
  induction fields with
  | nil => exact hP.pure _
  | cons field fields ih =>
    refine hP.bind_ofExcept fun entered he ↦ ?_
    obtain ⟨hd, -⟩ := enter_eq_ok.mp he
    dsimp only
    split
    · exact hP.bind (h _ hd _ _ _ _) fun _ ↦ hP.bind ih fun _ ↦ hP.pure _
    · exact hP.bind (hdescribe _ _) fun _ ↦ hP.bind (h _ hd _ _ _ _) fun _ ↦
        hP.bind ih fun _ ↦ hP.pure _
    · exact hP.bind (hP.blind (field.2.blind_literal _ _)) fun _ ↦ hP.bind ih fun _ ↦ hP.pure _

end Compositional

theorem firstAccepting_mem {otherwise : Fault} {check : α → Except Fault Unit} {as : List α} {a : α}
    (h : firstAccepting otherwise check as = .ok a) : a ∈ as := by
  induction as with
  | nil => cases h
  | cons b as ih =>
    unfold firstAccepting at h
    split at h
    · cases h
      exact List.mem_cons_self
    · split at h
      · exact List.mem_cons_of_mem _ (ih h)
      · cases h

namespace Pervades

section

variable {worker : Option Delegate} {levels : Nat} {deeper : Option Encoder} {place : Place}
  {t : HostType} {x : HostType → Value → Descriptor → Conversion Literal}

theorem encodeBy (hP : Pervades r P) (hw : ∀ ask, worker = some ask → ask.Has P)
    (h : ∀ encode, deeper = some encode → ∀ place t v d, P _ (encode place t v d))
    (hx : ∀ part ∈ t.parts, ∀ v d, P _ (x part v d)) (c : Converter) (v : Value) (d : Descriptor) :
    P _ (r.encodeBy worker levels deeper place c t (t.parts.map fun part ↦ (part, x part)) v d)
    := by
  have hvalued (m : HostType) (hm : m ∈ t.parts) :
      P _ (Registry.encodeValued (r.describe levels place m) (x m) v) := by
    unfold Registry.encodeValued
    split
    · exact hP.pure _
    · exact hP.bind (hP.describe _ _ _) fun d ↦ hx m hm v d
  cases c with
  | primitive kind =>
    cases v with
    | scalar s =>
      dsimp only [Registry.encodeBy]
      split
      · exact hP.pure _
      · exact hP.throw _
    | _ => exact hP.throw _
  | reference name extent =>
    cases v with
    | blob b =>
      dsimp only [Registry.encodeBy]
      split
      · exact hP.pure _
      · exact hP.throw _
    | _ => exact hP.throw _
  | jsonLines => exact hP.suspend fun _ _ ↦ hP.blind (JsonLines.blind_encode place v)
  | plugin p => exact hP.finish (fun ask ha t ↦ (hw ask ha).encode t v) _
  | sequence =>
    cases t with
    | list t =>
      cases d with
      | collection d =>
        cases v with
        | list items => exact hP.map (hP.encodeItems h 0 items) _
        | stream id => exact hP.map (hP.encodeStream h _ id) _
        | _ => exact hP.throw _
      | _ => exact hP.throw _
    | _ => exact hP.throw _
  | mapping =>
    cases t with
    | dict t =>
      cases d with
      | mapping d =>
        cases v with
        | map entries => exact hP.map (hP.encodeEntries h entries) _
        | _ => exact hP.throw _
      | _ => exact hP.throw _
    | _ => exact hP.throw _
  | optional =>
    cases t with
    | optional t => exact hvalued t List.mem_cons_self
    | _ => exact hP.throw _
  | union =>
    cases t with
    | union members =>
      have hmember {m : HostType} (hm : HostType.valued? members = some m) : m ∈ members :=
        List.mem_of_find?_eq_some hm
      simp only [Registry.encodeBy, HostType.parts, valued?_map]
      cases HostType.unionForm members with
      | tagged =>
        refine hP.bind_ofExcept fun part hpart ↦ hP.bind (hP.describe _ _ _) fun d ↦ ?_
        obtain ⟨m, hm, rfl⟩ := List.mem_map.mp (firstAccepting_mem hpart)
        exact hP.map (hx m hm v d) _
      | void => exact hP.throw _
      | plain =>
        cases hv : HostType.valued? members with
        | none => exact hP.throw _
        | some m => exact hx m (hmember hv) v d
      | optional =>
        cases hv : HostType.valued? members with
        | none => exact hP.throw _
        | some m => exact hvalued m (hmember hv)
    | _ => exact hP.throw _
  | record =>
    refine hP.bind (hP.ofExcept _) fun s ↦ hP.bind (hP.ofExcept _) fun fields ↦ ?_
    cases d with
    | record described =>
      exact hP.map (hP.encodeFields h (fun place t ↦ hP.describe _ place t) _ s _ fields) _
    | _ => exact hP.throw _

/-- Encoding has every property that pervades. -/
theorem encode (hP : Pervades r P) (hw : ∀ ask, worker = some ask → ask.Has P) (levels : Nat)
    (place : Place) (t : HostType) (v : Value) (d : Descriptor) :
    P _ (r.encode worker levels place t v d) := by
  induction levels, t using HostType.levels_induction generalizing place v d with
  | step levels t deeper ih =>
    rw [Registry.encode_eq]
    refine hP.bind (hP.ofExcept _) fun c ↦
      hP.encodeBy hw ?_ (fun part hp v d ↦ ih part hp place v d) c v d
    intro encode he place t v d
    obtain ⟨n, hn, rfl⟩ := below_eq_some.mp he
    exact deeper n hn t place v d

end

end Pervades

/-! ## Decoding -/

namespace Compositional

variable {deeper : Option Decoder} {place : Place} {t : HostType}

theorem decodeItems (hP : Compositional P)
    (h : ∀ decode, deeper = some decode → ∀ place t l, P _ (decode place t l))
    (i : Nat) (ls : List Literal) : P _ (decodeItems deeper place t i ls) := by
  induction ls generalizing i with
  | nil => exact hP.pure _
  | cons l ls ih =>
    refine hP.bind_ofExcept fun entered he ↦ ?_
    obtain ⟨hd, -⟩ := enter_eq_ok.mp he
    exact hP.bind (h _ hd _ _ _) fun _ ↦ hP.bind (ih _) fun _ ↦ hP.pure _

theorem decodeEntries (hP : Compositional P)
    (h : ∀ decode, deeper = some decode → ∀ place t l, P _ (decode place t l))
    (es : List (String × Literal)) : P _ (decodeEntries deeper place t es) := by
  induction es with
  | nil => exact hP.pure _
  | cons e es ih =>
    refine hP.bind_ofExcept fun entered he ↦ ?_
    obtain ⟨hd, -⟩ := enter_eq_ok.mp he
    exact hP.bind (h _ hd _ _ _) fun _ ↦ hP.bind ih fun _ ↦ hP.pure _

theorem decodeFields (hP : Compositional P)
    (h : ∀ decode, deeper = some decode → ∀ place t l, P _ (decode place t l))
    (carried : List (String × Literal)) (decoded : Entries Value)
    (fields : List (String × HostType)) :
    P _ (decodeFields deeper place carried decoded fields) := by
  induction fields generalizing decoded with
  | nil => exact hP.pure _
  | cons field fields ih =>
    refine hP.bind_ofExcept fun entered he ↦ ?_
    obtain ⟨hd, -⟩ := enter_eq_ok.mp he
    dsimp only
    split
    · exact hP.throw _
    · exact hP.bind (h _ hd _ _ _) fun _ ↦ ih _

section

variable {otherwise : Fault} {tag : Descriptor} {describe : HostType → Conversion Descriptor}
  {parts : List (HostType × α)} {l : Literal}

theorem memberDescribed (hP : Compositional P) (hd : ∀ t, P _ (describe t)) :
    P _ (memberDescribed otherwise tag describe parts) := by
  induction parts with
  | nil => exact hP.throw _
  | cons part parts ih =>
    refine hP.bind (hd _) fun d ↦ ?_
    split
    · exact hP.pure _
    · exact ih

theorem membersFitting (hP : Compositional P) (hd : ∀ t, P _ (describe t)) :
    P _ (membersFitting l describe parts) := by
  induction parts with
  | nil => exact hP.pure _
  | cons part parts ih => exact hP.bind (hd _) fun d ↦ hP.bind ih fun _ ↦ hP.pure _

end

end Compositional

section

variable {otherwise : Fault} {tag : Descriptor} {describe : HostType → Conversion Descriptor}
  {parts : List (HostType × α)} {l : Literal} {s s' : Session}

/-- What is found for a tag belongs to one of the members. -/
theorem memberDescribed_mem {a : α}
    (h : (memberDescribed otherwise tag describe parts).run s = (.ok a, s')) :
    a ∈ parts.map (·.2) := by
  induction parts generalizing s with
  | nil => cases h
  | cons part parts ih =>
    obtain ⟨d, s₁, -, h⟩ := run_bind_eq_ok.mp h
    split at h
    · cases h
      exact List.mem_cons_self
    · exact List.mem_cons_of_mem _ (ih h)

/-- What is found for an untagged literal belongs to members. -/
theorem membersFitting_mem {as : List α}
    (h : (membersFitting l describe parts).run s = (.ok as, s')) : as ⊆ parts.map (·.2) := by
  induction parts generalizing s as with
  | nil =>
    cases h
    exact List.nil_subset _
  | cons part parts ih =>
    obtain ⟨d, s₁, -, h⟩ := run_bind_eq_ok.mp h
    obtain ⟨rest, s₂, hrest, h⟩ := run_bind_eq_ok.mp h
    cases h
    split
    · exact List.cons_subset_cons _ (ih hrest)
    · exact List.subset_cons_of_subset _ (ih hrest)

end

namespace Pervades

variable {worker : Option Delegate} {levels : Nat} {deeper : Option Decoder} {place : Place}
  {t : HostType} {x : HostType → Literal → Conversion Value}

theorem decodeMember (hP : Pervades r P)
    {parts : List (HostType × (Literal → Conversion Value))}
    (hx : ∀ decode ∈ parts.map (·.2), ∀ l, P _ (decode l)) (l : Literal) :
    P _ (r.decodeMember levels place t parts l) := by
  unfold Registry.decodeMember
  split
  · refine hP.bind_of_run (hP.memberDescribed fun t ↦ hP.describe _ _ t) ?_
    intro _ _ _ hrun
    exact hx _ (memberDescribed_mem hrun) _
  · refine hP.bind_of_run (hP.membersFitting fun t ↦ hP.describe _ _ t) ?_
    intro _ _ _ hrun
    split
    · exact hx _ (membersFitting_mem hrun List.mem_cons_self) _
    · exact hP.throw _

theorem decodeBy (hP : Pervades r P) (hw : ∀ ask, worker = some ask → ask.Has P)
    (h : ∀ decode, deeper = some decode → ∀ place t l, P _ (decode place t l))
    (hx : ∀ part ∈ t.parts, ∀ l, P _ (x part l)) (c : Converter) (l : Literal) :
    P _ (r.decodeBy worker levels deeper place c t (t.parts.map fun part ↦ (part, x part)) l)
    := by
  have hvalued (m : HostType) (hm : m ∈ t.parts) : P _ (Registry.decodeValued (x m) l) := by
    unfold Registry.decodeValued
    split
    · exact hP.pure _
    · exact hx m hm l
  cases c with
  | primitive kind =>
    cases l with
    | scalar s =>
      dsimp only [Registry.decodeBy]
      split
      · exact hP.pure _
      · exact hP.throw _
    | _ => exact hP.throw _
  | reference name extent =>
    cases l with
    | blob b =>
      dsimp only [Registry.decodeBy]
      split
      · exact hP.pure _
      · exact hP.throw _
    | _ => exact hP.throw _
  | jsonLines => exact hP.suspend fun _ _ ↦ hP.blind (JsonLines.blind_decode place l)
  | plugin p =>
    refine hP.bind (hP.blind fun _ _ ↦ rfl) fun number ↦ ?_
    exact hP.finish (fun ask ha t ↦ (hw ask ha).decode t l) _
  | sequence =>
    cases t with
    | list t =>
      cases l with
      | collection items => exact hP.map (hP.decodeItems h 0 items) _
      | _ => exact hP.throw _
    | _ => exact hP.throw _
  | mapping =>
    cases t with
    | dict t =>
      cases l with
      | mapping entries => exact hP.map (hP.decodeEntries h entries) _
      | _ => exact hP.throw _
    | _ => exact hP.throw _
  | optional =>
    cases t with
    | optional t => exact hvalued t List.mem_cons_self
    | _ => exact hP.throw _
  | union =>
    cases t with
    | union members =>
      have hmember {m : HostType} (hm : HostType.valued? members = some m) : m ∈ members :=
        List.mem_of_find?_eq_some hm
      simp only [Registry.decodeBy, HostType.parts, valued?_map]
      cases HostType.unionForm members with
      | tagged =>
        refine hP.decodeMember (fun decode hd ↦ ?_) l
        obtain ⟨part, hpart, rfl⟩ := List.mem_map.mp hd
        obtain ⟨m, hm, rfl⟩ := List.mem_map.mp hpart
        exact hx m hm
      | void => exact hP.throw _
      | plain =>
        cases hv : HostType.valued? members with
        | none => exact hP.throw _
        | some m => exact hx m (hmember hv) l
      | optional =>
        cases hv : HostType.valued? members with
        | none => exact hP.throw _
        | some m => exact hvalued m (hmember hv)
    | _ => exact hP.throw _
  | record =>
    refine hP.bind (hP.ofExcept _) fun s ↦ ?_
    cases l with
    | record carried => exact hP.bind (hP.decodeFields h carried [] _) fun _ ↦ hP.pure _
    | _ => exact hP.throw _

/-- Decoding has every property that pervades. -/
theorem decode (hP : Pervades r P) (hw : ∀ ask, worker = some ask → ask.Has P) (levels : Nat)
    (place : Place) (t : HostType) (l : Literal) : P _ (r.decode worker levels place t l) := by
  induction levels, t using HostType.levels_induction generalizing place l with
  | step levels t deeper ih =>
    rw [Registry.decode_eq]
    refine hP.bind (hP.ofExcept _) fun c ↦
      hP.decodeBy hw ?_ (fun part hp l ↦ ih part hp place l) c l
    intro decode hd place t l
    obtain ⟨n, hn, rfl⟩ := below_eq_some.mp hd
    exact deeper n hn t place l

end Pervades

end Interchange
