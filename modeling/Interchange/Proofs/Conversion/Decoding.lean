import Interchange.Proofs.Conversion.Anew
import Interchange.Proofs.Conversion.Canon
import Interchange.Proofs.Descriptor

/-!
# How decoding ends

Decoding the items of a literal ends well if that of each does, and comes to nothing if that of one
does.  In a tagged union a tag leads to the member that is described like it, if there is one, and
without a tag the members that the literal conforms to are looked for.  A tag that none of its
members is described like is not read as a type, however many options it is within.
-/

namespace Interchange

open Session Attempt

/-! ## Members of tagged unions -/

section

variable {α : Type} {I : Session → Prop} {E : Fault → Prop} {otherwise : Fault} {tag : Descriptor}
  {describe : HostType → Conversion Descriptor} {parts : List (HostType × Descriptor)}
  {l : Literal}

/-- A tag that no member is described like leads nowhere. -/
theorem ends_memberDescribed_of_notMem
    (h : ∀ part ∈ parts, Ends I (· = part.2) (fun _ ↦ True) (describe part.1))
    (notMem : tag ∉ parts.map (·.2)) (f : HostType → α) :
    Ends I (fun _ ↦ False) (fun _ ↦ True) (memberDescribed otherwise tag describe
      (parts.map fun part ↦ (part.1, f part.1))) := by
  induction parts with
  | nil => exact .throw trivial
  | cons part parts ih =>
    obtain ⟨hpart, hparts⟩ := List.forall_mem_cons.mp h
    obtain ⟨hne, hrest⟩ := List.ne_and_not_mem_of_not_mem_cons notMem
    refine hpart.bind ?_
    rintro _ rfl
    rw [if_neg hne.symm]
    exact ih hparts hrest

/-- Without a tag, the members that a literal conforms to are looked for. -/
theorem ends_membersFitting (h : ∀ part ∈ parts, Ends I (· = part.2) E (describe part.1))
    (f : HostType → α) :
    Ends I (· = (parts.filter fun part ↦ l.conforms part.2).map fun part ↦ f part.1) E
      (membersFitting l describe (parts.map fun part ↦ (part.1, f part.1))) := by
  induction parts with
  | nil => exact .pure rfl
  | cons part parts ih =>
    obtain ⟨hpart, hparts⟩ := List.forall_mem_cons.mp h
    refine hpart.bind ?_
    rintro _ rfl
    refine (ih hparts).bind ?_
    rintro _ rfl
    refine .pure ?_
    rw [List.filter_cons]
    split <;> rfl

end

namespace Registry.Tagged

variable {r : Registry} {known : Knowledge} {I : Session → Prop} {P : Value → Prop}
  {E : Fault → Prop} {levels : Nat} {place : Place} {worker : Option Delegate}
  {parts : List (HostType × Descriptor)} {part : HostType × Descriptor} {l : Literal}

/-- A tagged literal is decoded as the member that is described like the tag. -/
theorem ends_decode_tagged (h : r.Tagged known parts)
    (hmembers : ∀ part ∈ parts, Ends I (· = part.2) E (r.describe levels place part.1))
    (mem : part ∈ parts) (hdecode : Ends I P E (r.decode worker levels place part.1 l)) :
    Ends I P E (r.decode worker levels place (.union (parts.map (·.1))) (.union part.2 l)) := by
  rw [decode_tagged h]
  refine (ends_memberDescribed hmembers h.distinct mem _).bind ?_
  rintro _ rfl
  exact hdecode

/-- An untagged literal is decoded as the member that it conforms to, if there is just one. -/
theorem ends_decode_untagged (h : r.Tagged known parts) (untagged : l.isUntagged = true)
    (hmembers : ∀ part ∈ parts, Ends I (· = part.2) E (r.describe levels place part.1))
    (hone : ∀ part, parts.filter (fun part ↦ l.conforms part.2) = [part] →
      Ends I P E (r.decode worker levels place part.1 l))
    (hmany : (∀ part, parts.filter (fun part ↦ l.conforms part.2) ≠ [part]) →
      E (place.undecodable (HostType.union (parts.map (·.1))).text l)) :
    Ends I P E (r.decode worker levels place (.union (parts.map (·.1))) l) := by
  rw [decode_tagged h]
  unfold decodeMember
  split
  · cases untagged
  · refine (ends_membersFitting hmembers _).bind ?_
    rintro _ rfl
    split
    · next hsingle =>
      obtain ⟨part, hpart, rfl⟩ := List.map_eq_singleton_iff.mp hsingle
      exact hone part hpart
    · next hnot =>
      refine .throw (hmany fun part hpart ↦ hnot (r.decode worker levels place part.1) ?_)
      rw [hpart]
      rfl

/-- No member of a tagged union occurs twice, so one that alone takes a literal is all that is
found. -/
theorem filter_conforms (h : r.Tagged known parts) (mem : part ∈ parts)
    (fits : l.conforms part.2 = true)
    (only : ∀ other ∈ parts, l.conforms other.2 = true → other = part) :
    parts.filter (fun part ↦ l.conforms part.2) = [part] := by
  have htakes : ∀ other ∈ parts, l.conforms other.2 = (other == part) := by
    intro other ho
    rw [Bool.eq_iff_iff, beq_iff_eq]
    constructor
    · exact only other ho
    · rintro rfl
      exact fits
  rw [List.filter_congr htakes, List.filter_beq,
    List.count_eq_one_of_mem h.distinct.of_map mem, List.replicate_one]

/-- The only member that is found for a literal is any that takes it. -/
theorem eq_of_filter_conforms {only : HostType × Descriptor}
    (h : parts.filter (fun part ↦ l.conforms part.2) = [only]) (mem : part ∈ parts)
    (fits : l.conforms part.2 = true) : part = only := by
  have hmem : part ∈ parts.filter fun part ↦ l.conforms part.2 := List.mem_filter.mpr ⟨mem, fits⟩
  rw [h] at hmem
  exact List.mem_singleton.mp hmem

end Registry.Tagged

/-! ## Items that are read -/

section

variable {α β : Type} {r : Registry} {I : Session → Prop} {P : Value → Prop} {Q : β → Prop}
  {E : Fault → Prop} {levels : Nat} {place : Place} {t : HostType} {worker : Option Delegate}

/-- Further in, work goes on with a level less, if there is one. -/
theorem ends_enter {work : Nat → α} {seg : Segment} {k : α × Place → Conversion β}
    (room : levels = 0 → E (.nestingLimit (place.path.child seg)))
    (h : Ends I Q E (k (work (levels - 1), place.child seg))) :
    Ends I Q E (.ofExcept (enter (below work levels) place seg) >>= k) := by
  cases levels with
  | zero => exact .throw (room rfl)
  | succ levels => exact h

theorem ends_decodeItems {ls : List Literal}
    (room : levels = 0 → ls ≠ [] → ∀ path, E (.nestingLimit path))
    (h : ∀ l ∈ ls, ∀ place, Ends I P E (r.decode worker (levels - 1) place t l)) (i : Nat) :
    Ends I (fun vs ↦ ∀ v ∈ vs, P v) E
      (decodeItems (below (r.decode worker) levels) place t i ls) := by
  induction ls generalizing i with
  | nil => exact .pure (List.forall_mem_nil _)
  | cons l ls ih =>
    obtain ⟨hl, hls⟩ := List.forall_mem_cons.mp h
    have hroom (hz : levels = 0) := room hz (List.cons_ne_nil l ls)
    refine ends_enter (fun hz ↦ hroom hz _) ?_
    refine (hl _).bind fun v hv ↦ ?_
    refine (ih (fun hz _ ↦ hroom hz) hls (i + 1)).bind fun vs hvs ↦ ?_
    exact .pure (List.forall_mem_cons.mpr ⟨hv, hvs⟩)

theorem ends_decodeEntries {ls : List (String × Literal)}
    (room : levels = 0 → ls ≠ [] → ∀ path, E (.nestingLimit path))
    (h : ∀ e ∈ ls, ∀ place, Ends I P E (r.decode worker (levels - 1) place t e.2)) :
    Ends I (fun es ↦ es.map (·.1) = ls.map (·.1) ∧ ∀ e ∈ es, P e.2) E
      (decodeEntries (below (r.decode worker) levels) place t ls) := by
  induction ls with
  | nil => exact .pure ⟨rfl, List.forall_mem_nil _⟩
  | cons e ls ih =>
    obtain ⟨he, hls⟩ := List.forall_mem_cons.mp h
    have hroom (hz : levels = 0) := room hz (List.cons_ne_nil e ls)
    refine ends_enter (fun hz ↦ hroom hz _) ?_
    refine (he _).bind fun v hv ↦ ?_
    refine (ih (fun hz _ ↦ hroom hz) hls).bind fun es hes ↦ ?_
    exact .pure ⟨congrArg (e.1 :: ·) hes.1, List.forall_mem_cons.mpr ⟨hv, hes.2⟩⟩

theorem ends_decodeFields {carried : Entries Literal} {fields : List (String × HostType)}
    {decoded : Entries Value} (room : fields ≠ [] → 0 < levels)
    (h : ∀ f ∈ fields, ∃ l, Entries.get? f.1 carried = some l ∧
      ∀ place, Ends I (fun _ ↦ True) E (r.decode worker (levels - 1) place f.2 l)) :
    Ends I (fun _ ↦ True) E
      (decodeFields (below (r.decode worker) levels) place carried decoded fields) := by
  induction fields generalizing decoded with
  | nil => exact .pure trivial
  | cons f fields ih =>
    have hroom := room (List.cons_ne_nil f fields)
    obtain ⟨⟨l, hget, hl⟩, hfields⟩ := List.forall_mem_cons.mp h
    refine ends_enter (fun hz ↦ absurd hz (Nat.ne_of_gt hroom)) ?_
    simp only [hget]
    exact (hl _).bind fun _ _ ↦ ih (fun _ ↦ hroom) hfields

end

/-! ## Refusing -/

/-- A conversion that comes to nothing, in whatever coherent session. -/
abbrev Refuses {α : Type} (r : Registry) (x : Conversion α) : Prop :=
  Ends (Coherent r) (fun _ ↦ False) (fun _ ↦ True) x

section

variable {α β : Type} {r : Registry} {levels : Nat} {place : Place} {t : HostType} {d : Descriptor}
  {l : Literal} {worker : Option Delegate}

theorem Keeps.ends {x : Conversion α} (h : Keeps r x) :
    Ends (Coherent r) (fun _ ↦ True) (fun _ ↦ True) x := by
  intro s hs
  refine ⟨(h s hs).1, ?_⟩
  cases (x.run s).1 <;> trivial

theorem Refuses.bind {x : Conversion α} (h : Refuses r x) (k : α → Conversion β) :
    Refuses r (x >>= k) := Ends.bind h fun _ hf ↦ hf.elim

theorem refuses_decodeItems (hw : ∀ ask, worker = some ask → ask.Keeping r)
    {ls : List Literal} (mem : l ∈ ls)
    (h : ∀ levels place, Refuses r (r.decode worker levels place t l)) (i : Nat) :
    Refuses r (decodeItems (below (r.decode worker) levels) place t i ls) := by
  induction ls generalizing i with
  | nil => cases mem
  | cons l' ls ih =>
    refine ends_enter (fun _ ↦ trivial) ?_
    rcases List.mem_cons.mp mem with rfl | mem
    · exact (h _ _).bind _
    · exact (Registry.keeps_decode hw _ _ _ _).ends.bind fun _ _ ↦ (ih mem _).bind _

theorem refuses_decodeEntries (hw : ∀ ask, worker = some ask → ask.Keeping r)
    {es : List (String × Literal)} {e : String × Literal} (mem : e ∈ es)
    (h : ∀ levels place, Refuses r (r.decode worker levels place t e.2)) :
    Refuses r (decodeEntries (below (r.decode worker) levels) place t es) := by
  induction es with
  | nil => cases mem
  | cons e' es ih =>
    refine ends_enter (fun _ ↦ trivial) ?_
    rcases List.mem_cons.mp mem with rfl | mem
    · exact (h _ _).bind _
    · exact (Registry.keeps_decode hw _ _ _ _).ends.bind fun _ _ ↦ (ih mem).bind _

theorem refuses_decodeFields (hw : ∀ ask, worker = some ask → ask.Keeping r)
    {carried : Entries Literal} {fields : List (String × HostType)} {f : String × HostType}
    (mem : f ∈ fields) (found : Entries.get? f.1 carried = some l)
    (h : ∀ levels place, Refuses r (r.decode worker levels place f.2 l)) (decoded : Entries Value) :
    Refuses r (decodeFields (below (r.decode worker) levels) place carried decoded fields) := by
  induction fields generalizing decoded with
  | nil => cases mem
  | cons f' fields ih =>
    refine ends_enter (fun _ ↦ trivial) ?_
    rcases List.mem_cons.mp mem with rfl | mem
    · simp only [found]
      exact (h _ _).bind _
    · dsimp only
      split
      · exact .throw trivial
      · exact (Registry.keeps_decode hw _ _ _ _).ends.bind fun _ _ ↦ ih mem _

namespace Registry

/-- A literal under a tag is not read as a type that has no member for the tag. -/
theorem Described.refuses_tag (h : r.IsDescribed t d) (hr : r.Builtin) {tag : Descriptor}
    (noMember : tag ∉ d.members) (l : Literal) :
    Refuses r (r.decode worker levels place t (.union tag l)) := by
  induction h with
  | @intro c parts t d _ resolved composed described ih =>
    cases composed with
    | jsonLines | plugin => cases hr.resolve resolved
    | primitive | reference | list | dict =>
      rw [decode_of_resolve resolved]
      exact .throw trivial
    | optional =>
      rw [decode_nullable (.optional resolved)]
      exact ih _ List.mem_cons_self fun hmem ↦ noMember (Descriptor.mem_orNone hmem)
    | orNone form member =>
      rw [decode_nullable (.union resolved form member)]
      exact ih _ List.mem_cons_self fun hmem ↦ noMember (Descriptor.mem_orNone hmem)
    | plain form member =>
      rw [decode_plain ⟨resolved, form, member⟩]
      exact ih _ List.mem_cons_self noMember
    | tagged form types distinct =>
      subst types
      have htagged : r.Tagged r.IsDescribed parts := ⟨resolved, form, distinct, described⟩
      rw [decode_tagged htagged]
      refine Ends.bind (ends_memberDescribed_of_notMem ?_ ?_ _) fun _ hf ↦ hf.elim
      · exact fun part hp ↦ (htagged.known part hp).ends_describe_coherent levels place
      · rwa [Descriptor.ofMembers_of_nodup distinct] at noMember
    | record schema _ _ =>
      rw [decode_of_resolve resolved]
      show Refuses r (.ofExcept (r.schemaOf t) >>= _)
      rw [schema]
      exact .throw trivial

end Registry

end

end Interchange
