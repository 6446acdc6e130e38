import Interchange.Proofs.Conversion.Encoding

/-!
# With fewer levels

The limit of nesting counts the steps into a value, and a conversion knows how many are left.  One
that is given fewer goes the same way, step by step, until it comes to a step that it has no level
for; there it is refused, and it neither goes further nor tries another way.  So the two come to the
same, but for such a refusal, and this is of a step into the value, so that the value leads to where
it was refused.

`CutShort` says this of outcomes and `Curbed` of steps of conversions; each function that converts is
curbed if what it goes through is.
-/

namespace Interchange

open Session Attempt

variable {α β : Type} {m n : Nat} {place : Place} {seg : Segment}

/-! ## Chains of steps -/

/-- A chain of steps into a value: to the items of lists, the entries of maps and the fields of
records. -/
inductive Value.Leads : Value → Path → Prop
  | here (v : Value) : Leads v []
  | item {vs : List Value} {item : Value × Nat} {steps : Path} (mem : item ∈ vs.zipIdx)
      (inside : Leads item.1 steps) : Leads (.list vs) (.index item.2 :: steps)
  | entry {es : List (String × Value)} {e : String × Value} {steps : Path} (mem : e ∈ es)
      (inside : Leads e.2 steps) : Leads (.map es) (.key e.1 :: steps)
  | field {name : Option String} {fields : List (String × Value)} {field : String × Value}
      {steps : Path} (mem : field ∈ fields) (inside : Leads field.2 steps) :
      Leads (.record name fields) (.field field.1 :: steps)

/-- A path that goes on from a place into a value, one step beyond the levels that are left. -/
def Value.Beyond (v : Value) (levels : Nat) (place : Place) (path : Path) : Prop :=
  ∃ steps, path = place.path ++ steps ∧ steps.length = levels + 1 ∧ v.Leads steps

section

variable {v w : Value} {path : Path}

/-- A value leads further by one step than what stands one step inside. -/
theorem Value.Beyond.step (h : w.Beyond m (place.child seg) path)
    (hstep : ∀ steps, w.Leads steps → v.Leads (seg :: steps)) : v.Beyond (m + 1) place path := by
  obtain ⟨steps, rfl, hlength, hleads⟩ := h
  exact ⟨seg :: steps, List.append_assoc _ _ _, congrArg (· + 1) hlength, hstep steps hleads⟩

theorem Value.beyond_child (hstep : ∀ steps, w.Leads steps → v.Leads (seg :: steps)) :
    v.Beyond 0 place (place.path.child seg) :=
  ⟨[seg], rfl, rfl, hstep [] (.here w)⟩

end

/-! ## Outcomes and steps that are curbed -/

/-- A refusal, for want of levels, of a step to a path of a kind. -/
def Refused (P : Path → Prop) (x : Except Fault α) : Prop :=
  ∃ path, P path ∧ x = .error (.nestingLimit path)

/-- An outcome is another one, unless it is a refusal. -/
def CutShort (P : Path → Prop) (x y : Except Fault α) : Prop := x = y ∨ Refused P x

/-- From any session in which an invariant holds, a step does the same as another one, unless it is
refused. -/
def Curbed (I : Session → Prop) (P : Path → Prop) (x y : Conversion α) : Prop :=
  ∀ s, I s → x.run s = y.run s ∨ Refused P (x.outcome s)

variable {I : Session → Prop} {P Q : Path → Prop}

namespace CutShort

variable {x y : Except Fault α}

theorem refl (x : Except Fault α) : CutShort P x x := .inl rfl

theorem mono (h : CutShort P x y) (hPQ : ∀ path, P path → Q path) : CutShort Q x y :=
  h.imp_right fun ⟨path, hpath, hx⟩ ↦ ⟨path, hPQ path hpath, hx⟩

theorem bind {f g : α → Except Fault β} (h : CutShort P x y)
    (hk : ∀ a, y = .ok a → CutShort P (f a) (g a)) : CutShort P (x >>= f) (y >>= g) := by
  rcases h with rfl | ⟨path, hpath, rfl⟩
  · cases x with
    | error e => exact refl _
    | ok a => exact hk a rfl
  · exact .inr ⟨path, hpath, rfl⟩

theorem map (h : CutShort P x y) (f : α → β) : CutShort P (x.map f) (y.map f) := by
  rcases h with rfl | ⟨path, hpath, rfl⟩
  · exact refl _
  · exact .inr ⟨path, hpath, rfl⟩

theorem forM {f g : α → Except Fault Unit} {as : List α}
    (h : ∀ a ∈ as, CutShort P (f a) (g a)) : CutShort P (as.forM f) (as.forM g) := by
  induction as with
  | nil => exact refl _
  | cons a as ih =>
    obtain ⟨ha, has⟩ := List.forall_mem_cons.mp h
    exact ha.bind fun _ _ ↦ ih has

/-- A refusal is no rejection, so no other candidate is tried after it. -/
theorem firstAccepting {otherwise : Fault} {f g : α → Except Fault Unit} {as : List α}
    (h : ∀ a ∈ as, CutShort P (f a) (g a)) :
    CutShort P (firstAccepting otherwise f as) (firstAccepting otherwise g as) := by
  induction as with
  | nil => exact refl _
  | cons a as ih =>
    obtain ⟨ha, has⟩ := List.forall_mem_cons.mp h
    unfold Interchange.firstAccepting
    rcases ha with heq | ⟨path, hpath, hrefused⟩
    · rw [heq]
      split
      · exact refl _
      · split
        · exact ih has
        · exact refl _
    · rw [hrefused]
      exact .inr ⟨path, hpath, rfl⟩

end CutShort

namespace Curbed

variable {x y : Conversion α}

theorem refl (x : Conversion α) : Curbed I P x x := fun _ _ ↦ .inl rfl

theorem mono (h : Curbed I P x y) (hPQ : ∀ path, P path → Q path) : Curbed I Q x y :=
  fun s hs ↦ (h s hs).imp_right fun ⟨path, hpath, hx⟩ ↦ ⟨path, hPQ path hpath, hx⟩

theorem bind {f g : α → Conversion β} (h : Curbed I P x y) (hy : ∀ s, I s → I (y.run s).2)
    (hk : ∀ a, Curbed I P (f a) (g a)) : Curbed I P (x >>= f) (y >>= g) := by
  intro s hs
  rcases h s hs with hrun | ⟨path, hpath, hrefused⟩
  · have hs' := hy s hs
    rcases hy : y.run s with ⟨e | a, s'⟩
    · exact .inl ((run_bind_of_error (hrun.trans hy) f).trans (run_bind_of_error hy g).symm)
    · rw [hy] at hs'
      rw [run_bind_of_ok (hrun.trans hy), run_bind_of_ok hy, outcome,
        run_bind_of_ok (hrun.trans hy)]
      exact hk a s' hs'
  · exact .inr ⟨path, hpath, outcome_of_run (run_bind_of_error (Prod.ext hrefused rfl) f)⟩

/-- Returning something of the value needs no session. -/
theorem bind_pure (h : Curbed I P x y) (f : α → β) :
    Curbed I P (x >>= fun a ↦ pure (f a)) (y >>= fun a ↦ pure (f a)) := by
  intro s hs
  rcases h s hs with hrun | ⟨path, hpath, hrefused⟩
  · exact .inl (by rw [run_bind, run_bind, hrun])
  · exact .inr ⟨path, hpath, outcome_of_run (run_bind_of_error (Prod.ext hrefused rfl) _)⟩

theorem map (h : Curbed I P x y) (f : α → β) : Curbed I P (f <$> x) (f <$> y) := by
  rw [map_eq_pure_bind, map_eq_pure_bind]
  exact h.bind_pure f

/-- What follows an outcome that may be cut short only has to do with what is returned. -/
theorem ofExcept_bind {a b : Except Fault α} {f g : α → Conversion β} (h : CutShort P a b)
    (hk : ∀ c, b = .ok c → Curbed I P (f c) (g c)) :
    Curbed I P (.ofExcept a >>= f) (.ofExcept b >>= g) := by
  rcases h with rfl | ⟨path, hpath, rfl⟩
  · cases a with
    | error e => exact refl _
    | ok c => exact hk c rfl
  · exact fun s _ ↦ .inr ⟨path, hpath, rfl⟩

/-- One step further in, where there is a level for it in both or in the second alone. -/
theorem enter {work work' : Nat → β} {f g : β × Place → Conversion α} (hmn : m ≤ n)
    (room : m = 0 → P (place.path.child seg))
    (h : ∀ m' n', m = m' + 1 → n = n' + 1 →
      Curbed I P (f (work m', place.child seg)) (g (work' n', place.child seg))) :
    Curbed I P (.ofExcept (enter (below work m) place seg) >>= f)
      (.ofExcept (enter (below work' n) place seg) >>= g) := by
  cases m with
  | zero => exact fun s _ ↦ .inr ⟨_, room rfl, rfl⟩
  | succ m =>
    obtain ⟨n, rfl⟩ := Nat.exists_eq_add_of_le' (Nat.le_trans (Nat.le_add_left 1 m) hmn)
    exact h m n rfl rfl

end Curbed

/-! ## Describing -/

/-- Steps of describing do the same in any session, unless they are refused so many steps in. -/
abbrev CurbedAt (k : Nat) : Conversion α → Conversion α → Prop :=
  Curbed (fun _ ↦ True) fun path ↦ path.length = k

section

variable {r : Registry} {t : HostType} {k : Nat}

theorem CurbedAt.bind {x y : Conversion α} {f g : α → Conversion β} (h : CurbedAt k x y)
    (hk : ∀ a, CurbedAt k (f a) (g a)) : CurbedAt k (x >>= f) (y >>= g) :=
  Curbed.bind h (fun _ _ ↦ trivial) hk

theorem CurbedAt.remembering {x y : Conversion Descriptor} (h : CurbedAt k x y) (t : HostType) :
    CurbedAt k (remembering t x) (remembering t y) := by
  refine CurbedAt.bind (.refl _) fun s ↦ ?_
  split
  · exact .refl _
  · exact CurbedAt.bind h fun d ↦ .refl _

theorem curbedAt_describeMembers {parts parts' : HostType → Conversion Descriptor}
    {ts : List HostType} (h : ∀ t ∈ ts, CurbedAt k (parts t) (parts' t))
    (seen : List (HostType × Descriptor)) :
    CurbedAt k (describeMembers seen (ts.map fun t ↦ (t, parts t)))
      (describeMembers seen (ts.map fun t ↦ (t, parts' t))) := by
  induction ts generalizing seen with
  | nil => exact .refl _
  | cons t ts ih =>
    obtain ⟨ht, hts⟩ := List.forall_mem_cons.mp h
    exact CurbedAt.bind ht fun d ↦ CurbedAt.bind (.refl _) fun _ ↦ ih hts _

theorem curbedAt_describeFields (hmn : m ≤ n) (hk : place.path.length + m + 1 = k)
    (h : ∀ m' n', m = m' + 1 → n = n' + 1 → ∀ seg t,
      CurbedAt k (r.describe m' (place.child seg) t) (r.describe n' (place.child seg) t))
    (fields : List (String × HostType)) :
    CurbedAt k (describeFields (below r.describe m) place fields)
      (describeFields (below r.describe n) place fields) := by
  induction fields with
  | nil => exact .refl _
  | cons field fields ih =>
    refine .enter hmn ?_ fun m' n' hm hn ↦ ?_
    · rintro rfl
      simpa using hk
    · exact CurbedAt.bind (h m' n' hm hn _ _) fun d ↦ CurbedAt.bind ih fun _ ↦ .refl _

theorem curbedAt_describeBy (hmn : m ≤ n) (hk : place.path.length + m + 1 = k)
    (h : ∀ m' n', m = m' + 1 → n = n' + 1 → ∀ seg t,
      CurbedAt k (r.describe m' (place.child seg) t) (r.describe n' (place.child seg) t))
    (hparts : ∀ part ∈ t.parts, CurbedAt k (r.describe m place part) (r.describe n place part))
    (c : Converter) :
    CurbedAt k
      (r.describeBy (below r.describe m) place c t
        (t.parts.map fun part ↦ (part, r.describe m place part)))
      (r.describeBy (below r.describe n) place c t
        (t.parts.map fun part ↦ (part, r.describe n place part))) := by
  cases c with
  | primitive | reference | jsonLines | plugin => exact .refl _
  | sequence =>
    cases t with
    | list t => exact (hparts t List.mem_cons_self).map _
    | _ => exact .refl _
  | mapping =>
    cases t with
    | dict t => exact (hparts t List.mem_cons_self).map _
    | _ => exact .refl _
  | optional =>
    cases t with
    | optional t => exact (hparts t List.mem_cons_self).map _
    | _ => exact .refl _
  | union =>
    cases t with
    | union members =>
      have hmember {t : HostType} (ht : HostType.valued? members = some t) :
          CurbedAt k (r.describe m place t) (r.describe n place t) :=
        hparts t (List.mem_of_find?_eq_some ht)
      simp only [Registry.describeBy, HostType.parts, valued?_map]
      cases HostType.unionForm members with
      | tagged => exact curbedAt_describeMembers hparts []
      | void => exact .refl _
      | plain =>
        cases ht : HostType.valued? members with
        | none => exact .refl _
        | some t => exact hmember ht
      | optional =>
        cases ht : HostType.valued? members with
        | none => exact .refl _
        | some t => exact (hmember ht).map _
    | _ => exact .refl _
  | record =>
    exact CurbedAt.bind (.refl _) fun s ↦
      CurbedAt.bind (curbedAt_describeFields hmn hk h s.fields) fun _ ↦ .refl _

/-- Describing a type comes to the same with more levels, unless it is refused for want of them. -/
theorem curbedAt_describe (hmn : m ≤ n) (hk : place.path.length + m + 1 = k) (t : HostType) :
    CurbedAt k (r.describe m place t) (r.describe n place t) := by
  induction m, t using HostType.levels_induction generalizing n place with
  | step m t deeper ih =>
    rw [Registry.describe_eq, Registry.describe_eq]
    refine CurbedAt.remembering (CurbedAt.bind (.refl _) fun c ↦ ?_) t
    refine curbedAt_describeBy hmn hk ?_ (fun part hp ↦ ih part hp hmn hk) c
    rintro m' n' rfl rfl seg t
    refine deeper m' rfl t (Nat.le_of_succ_le_succ hmn) ?_
    rw [Place.path_child, Path.length_child, ← hk]
    omega

end

/-! ## Checking -/

section

variable {r : Registry} {t : HostType} {v w : Value}

/-- What is inside a value is checked in the same way, if it is where there are fewer levels. -/
theorem cutShort_checkIn (hmn : m ≤ n)
    (h : ∀ m' n', m = m' + 1 → n = n' + 1 →
      CutShort (w.Beyond m' (place.child seg)) (r.check m' (place.child seg) t w)
        (r.check n' (place.child seg) t w))
    (hstep : ∀ steps, w.Leads steps → v.Leads (seg :: steps)) :
    CutShort (v.Beyond m place) (r.checkIn m place seg t w) (r.checkIn n place seg t w) := by
  cases m with
  | zero => exact .inr ⟨_, Value.beyond_child hstep, rfl⟩
  | succ m =>
    obtain ⟨n, rfl⟩ := Nat.exists_eq_add_of_le' (Nat.le_trans (Nat.le_add_left 1 m) hmn)
    exact (h m n rfl rfl).mono fun path hpath ↦ hpath.step hstep

theorem cutShort_checkBy
    (hin : ∀ seg t w, (∀ steps, w.Leads steps → v.Leads (seg :: steps)) →
      CutShort (v.Beyond m place) (r.checkIn m place seg t w) (r.checkIn n place seg t w))
    (hparts : ∀ part ∈ t.parts,
      CutShort (v.Beyond m place) (r.check m place part v) (r.check n place part v))
    (c : Converter) :
    CutShort (v.Beyond m place)
      (r.checkBy (below r.check m) place c t
        (t.parts.map fun part ↦ (part, r.check m place part)) v)
      (r.checkBy (below r.check n) place c t
        (t.parts.map fun part ↦ (part, r.check n place part)) v) := by
  have hnullable {t' : HostType} (ht : t' ∈ t.parts) :
      CutShort (v.Beyond m place) (if v.isNone then .ok () else r.check m place t' v)
        (if v.isNone then .ok () else r.check n place t' v) := by
    split
    · exact .refl _
    · exact hparts t' ht
  cases c with
  | primitive | reference | jsonLines | plugin => exact .refl _
  | sequence =>
    cases t with
    | list t =>
      cases v with
      | list vs =>
        simp only [Registry.checkBy, Registry.checkItems_eq_forM]
        exact .forM fun item hitem ↦ hin _ t item.1 fun steps ↦ .item hitem
      | _ => exact .refl _
    | _ => exact .refl _
  | mapping =>
    cases t with
    | dict t =>
      cases v with
      | map es =>
        simp only [Registry.checkBy, Registry.checkEntries_eq_forM]
        exact .forM fun e he ↦ hin _ t e.2 fun steps ↦ .entry he
      | _ => exact .refl _
    | _ => exact .refl _
  | optional =>
    cases t with
    | optional t => exact hnullable List.mem_cons_self
    | _ => exact .refl _
  | union =>
    cases t with
    | union members =>
      have hmem {t : HostType} (ht : HostType.valued? members = some t) : t ∈ members :=
        List.mem_of_find?_eq_some ht
      simp only [Registry.checkBy, HostType.parts, valued?_map, firstAccepting_map]
      cases HostType.unionForm members with
      | tagged =>
        have hunit {β : Type} (f : HostType → β) (x : Except Fault HostType) :
            (f <$> x).map (fun _ ↦ ()) = x.map fun _ ↦ () := by cases x <;> rfl
        dsimp only
        rw [hunit, hunit]
        exact (CutShort.firstAccepting hparts).map _
      | void => exact .refl _
      | plain =>
        cases ht : HostType.valued? members with
        | none => exact .refl _
        | some t => exact hparts t (hmem ht)
      | optional =>
        cases ht : HostType.valued? members with
        | none => exact .refl _
        | some t => exact hnullable (hmem ht)
    | _ => exact .refl _
  | record =>
    refine (CutShort.refl _).bind fun s _ ↦ (CutShort.refl _).bind fun carried hcarried ↦ ?_
    obtain ⟨⟨name, rfl⟩, -⟩ := Registry.fieldsFor_eq_ok hcarried
    simp only [Registry.checkFields_eq_forM]
    refine .forM fun f _ ↦ ?_
    unfold Registry.checkField
    split
    · exact .refl _
    · next w hw =>
      have hmem : (f.1, w) ∈ carried := Entries.mem_of_get? hw
      exact hin _ _ w fun steps ↦ .field hmem

/-- A check comes to the same with more levels, unless it is refused for want of them. -/
theorem cutShort_check (hmn : m ≤ n) (t : HostType) (v : Value) :
    CutShort (v.Beyond m place) (r.check m place t v) (r.check n place t v) := by
  induction m, t using HostType.levels_induction generalizing n place v with
  | step m t deeper ih =>
    rw [Registry.check_eq, Registry.check_eq]
    refine (CutShort.refl _).bind fun c _ ↦ ?_
    refine cutShort_checkBy (fun seg t w hstep ↦ ?_) (fun part hp ↦ ih part hp hmn v) c
    refine cutShort_checkIn hmn ?_ hstep
    rintro m' n' rfl rfl
    exact deeper m' rfl t (Nat.le_of_succ_le_succ hmn) w

end

/-! ## Encoding -/

section

variable {r : Registry} {known : Knowledge} {worker worker' : Option Delegate} {t : HostType}
  {d : Descriptor} {v w : Value}

/-- Types that are known are described as they are known, whatever the levels. -/
theorem Curbed.describe_bind {f g : Descriptor → Conversion α} (hd : known t d)
    (h : Curbed (Recalls r known) P (f d) (g d)) :
    Curbed (Recalls r known) P (r.describe m place t >>= f) (r.describe n place t >>= g) := by
  intro s hs
  have hrun (levels : Nat) := run_describe_of_known (r := r) (hs.knows t d hd) levels place
  rw [outcome, run_bind_of_ok (hrun m), run_bind_of_ok (hrun n)]
  exact h s hs

theorem curbed_encodeValued (hd : known t d)
    (h : Curbed (Recalls r known) P (r.encode worker m place t v d)
      (r.encode worker' n place t v d)) :
    Curbed (Recalls r known) P
      (Registry.encodeValued (r.describe m place t) (r.encode worker m place t) v)
      (Registry.encodeValued (r.describe n place t) (r.encode worker' n place t) v) := by
  unfold Registry.encodeValued
  split
  · exact .refl _
  · exact .describe_bind hd h

theorem Curbed.step {x y : Conversion α} (h : Curbed I (w.Beyond m (place.child seg)) x y)
    (hstep : ∀ steps, w.Leads steps → v.Leads (seg :: steps)) :
    Curbed I (v.Beyond (m + 1) place) x y :=
  h.mono fun _ hpath ↦ hpath.step hstep

variable (hw' : ∀ ask, worker' = some ask → ask.Keeping r) (hmn : m ≤ n)

include hw'

theorem recalls_encode {s : Session} (hs : s.Recalls r known) (levels : Nat) (place : Place)
    (t : HostType) (v : Value) (d : Descriptor) :
    ((r.encode worker' levels place t v d).run s).2.Recalls r known :=
  hs.grows (Registry.keeps_encode hw' levels place t v d s)

include hmn

theorem curbed_encodeItems {vs : List Value} (i : Nat)
    (hstep : ∀ item ∈ vs.zipIdx i, ∀ steps, item.1.Leads steps →
      v.Leads (.index item.2 :: steps))
    (h : ∀ m' n', m = m' + 1 → n = n' + 1 → ∀ item ∈ vs.zipIdx i,
      Curbed (Recalls r known) (item.1.Beyond m' (place.child (.index item.2)))
        (r.encode worker m' (place.child (.index item.2)) t item.1 d)
        (r.encode worker' n' (place.child (.index item.2)) t item.1 d)) :
    Curbed (Recalls r known) (v.Beyond m place)
      (encodeItems (below (r.encode worker) m) place t d i vs)
      (encodeItems (below (r.encode worker') n) place t d i vs) := by
  induction vs generalizing i with
  | nil => exact .refl _
  | cons w vs ih =>
    rw [List.zipIdx_cons] at hstep h
    obtain ⟨hw, hvs⟩ := List.forall_mem_cons.mp hstep
    have ih := ih (i + 1) hvs fun m' n' hm hn item hitem ↦
      h m' n' hm hn item (List.mem_cons_of_mem _ hitem)
    refine .enter hmn ?_ fun m' n' hm hn ↦ ?_
    · rintro rfl
      exact Value.beyond_child hw
    · have hitem := h m' n' hm hn (w, i) List.mem_cons_self
      subst hm
      exact (hitem.step hw).bind (fun s hs ↦ recalls_encode hw' hs _ _ _ _ _) fun l ↦
        ih.bind_pure _

theorem curbed_encodeEntries {es : List (String × Value)}
    (hstep : ∀ e ∈ es, ∀ steps, e.2.Leads steps → v.Leads (.key e.1 :: steps))
    (h : ∀ m' n', m = m' + 1 → n = n' + 1 → ∀ e ∈ es,
      Curbed (Recalls r known) (e.2.Beyond m' (place.child (.key e.1)))
        (r.encode worker m' (place.child (.key e.1)) t e.2 d)
        (r.encode worker' n' (place.child (.key e.1)) t e.2 d)) :
    Curbed (Recalls r known) (v.Beyond m place)
      (encodeEntries (below (r.encode worker) m) place t d es)
      (encodeEntries (below (r.encode worker') n) place t d es) := by
  induction es with
  | nil => exact .refl _
  | cons e es ih =>
    obtain ⟨he, hes⟩ := List.forall_mem_cons.mp hstep
    have ih := ih hes fun m' n' hm hn e he ↦ h m' n' hm hn e (List.mem_cons_of_mem _ he)
    refine .enter hmn ?_ fun m' n' hm hn ↦ ?_
    · rintro rfl
      exact Value.beyond_child he
    · have hentry := h m' n' hm hn e List.mem_cons_self
      subst hm
      exact (hentry.step he).bind (fun s hs ↦ recalls_encode hw' hs _ _ _ _ _) fun l ↦
        ih.bind_pure _

omit hmn in
/-- An undeclared field is written the same way whatever the levels. -/
theorem curbed_encodeField {schema : Schema} {declared : List (String × HostType × Descriptor)}
    (hfields : schema.fields = declared.map fun f ↦ (f.1, f.2.1)) {describe describe' : Describer}
    {onWorker : Bool} {field : String × Value}
    (h : ∀ t d, declared.lookup field.1 = some (t, d) →
      Curbed (Recalls r known) P (r.encode worker m place t field.2 d)
        (r.encode worker' n place t field.2 d)) :
    Curbed (Recalls r known) P
        (encodeField (r.encode worker m) describe onWorker place schema
          (declared.map fun f ↦ (f.1, f.2.2)) field)
        (encodeField (r.encode worker' n) describe' onWorker place schema
          (declared.map fun f ↦ (f.1, f.2.2)) field) ∧
      Keeps r (encodeField (r.encode worker' n) describe' onWorker place schema
        (declared.map fun f ↦ (f.1, f.2.2)) field) := by
  rw [encodeField, encodeField, Schema.get?_eq hfields, Entries.lookup_map_snd]
  cases hf : declared.lookup field.1 with
  | none => exact ⟨.refl _, (field.2.blind_literal _ _).quiet.keeps⟩
  | some f => exact ⟨h f.1 f.2 hf, Registry.keeps_encode hw' _ _ _ _ _⟩

theorem curbed_encodeFields {schema : Schema} {declared : List (String × HostType × Descriptor)}
    (hfields : schema.fields = declared.map fun f ↦ (f.1, f.2.1)) {describe describe' : Describer}
    {onWorker : Bool} {vs : List (String × Value)}
    (hstep : ∀ field ∈ vs, ∀ steps, field.2.Leads steps → v.Leads (.field field.1 :: steps))
    (h : ∀ m' n', m = m' + 1 → n = n' + 1 → ∀ field ∈ vs, ∀ f ∈ declared,
      Curbed (Recalls r known) (field.2.Beyond m' (place.child (.field field.1)))
        (r.encode worker m' (place.child (.field field.1)) f.2.1 field.2 f.2.2)
        (r.encode worker' n' (place.child (.field field.1)) f.2.1 field.2 f.2.2)) :
    Curbed (Recalls r known) (v.Beyond m place)
      (encodeFields (below (r.encode worker) m) describe onWorker place schema
        (declared.map fun f ↦ (f.1, f.2.2)) vs)
      (encodeFields (below (r.encode worker') n) describe' onWorker place schema
        (declared.map fun f ↦ (f.1, f.2.2)) vs) := by
  induction vs with
  | nil => exact .refl _
  | cons field fields ih =>
    obtain ⟨hfield, hothers⟩ := List.forall_mem_cons.mp hstep
    have ih := ih hothers fun m' n' hm hn field hfield ↦
      h m' n' hm hn field (List.mem_cons_of_mem _ hfield)
    cases m with
    | zero => exact fun s _ ↦ .inr ⟨_, Value.beyond_child hfield, rfl⟩
    | succ m =>
      obtain ⟨n, rfl⟩ := Nat.exists_eq_add_of_le' (Nat.le_trans (Nat.le_add_left 1 m) hmn)
      rw [below, below, encodeFields_cons, encodeFields_cons]
      obtain ⟨hcurbed, hkeeps⟩ := curbed_encodeField hw' hfields fun t d hlookup ↦
        (h m n rfl rfl field List.mem_cons_self _ (Entries.mem_of_lookup hlookup)).step hfield
      exact hcurbed.bind (fun s hs ↦ hs.grows (hkeeps s)) fun l ↦ ih.bind_pure _

end

/-- Encoding a value as a type that is described comes to the same with more levels, unless it is
refused for want of them. -/
theorem Registry.Described.curbed_encode {r : Registry} {known : Knowledge} {t : HostType}
    {d : Descriptor} (h : r.Described known t d) (hr : r.Builtin) {worker worker' : Option Delegate}
    (hw : worker.isNone = worker'.isNone) (hw' : ∀ ask, worker' = some ask → ask.Keeping r)
    (hmn : m ≤ n) {v : Value} (hv : v.StreamFree) :
    Curbed (Recalls r known) (v.Beyond m place) (r.encode worker m place t v d)
      (r.encode worker' n place t v d) := by
  -- The induction is on how the type was described, since encoding goes by the parts of that.
  induction h generalizing m n place v with
  | @intro c parts t d isKnown resolved composed described ih =>
    rw [encode_of_resolve resolved, encode_of_resolve resolved]
    cases composed with
    | primitive | reference => exact .refl _
    | jsonLines | plugin => cases hr.resolve resolved
    | @list t d =>
      cases v with
      | list vs =>
        have hv := Value.streamFreeItems_iff.mp hv
        refine (curbed_encodeItems hw' hmn 0 (fun item hitem steps ↦ .item hitem) ?_).map _
        rintro m' n' rfl rfl item hitem
        exact ih _ List.mem_cons_self (Nat.le_of_succ_le_succ hmn)
          (hv _ (List.fst_mem_of_mem_zipIdx hitem))
      | stream => exact hv.elim
      | _ => exact .refl _
    | @dict t d =>
      cases v with
      | map es =>
        have hv := Value.streamFreeEntries_iff.mp hv
        refine (curbed_encodeEntries hw' hmn (fun e he steps ↦ .entry he) ?_).map _
        rintro m' n' rfl rfl e he
        exact ih _ List.mem_cons_self (Nat.le_of_succ_le_succ hmn) (hv _ he)
      | _ => exact .refl _
    | @optional t d =>
      exact curbed_encodeValued (described _ List.mem_cons_self).isKnown
        (ih _ List.mem_cons_self hmn hv)
    | @plain members t d form member =>
      simp only [encodeBy, HostType.parts, valued?_map, form, member, Option.map_some]
      exact ih _ List.mem_cons_self hmn hv
    | @orNone members t d form member =>
      simp only [encodeBy, HostType.parts, valued?_map, form, member, Option.map_some]
      exact curbed_encodeValued (described (t, d) List.mem_cons_self).isKnown
        (ih (t, d) List.mem_cons_self hmn hv)
    | tagged form types distinct =>
      subst types
      simp only [encodeBy, HostType.parts, form, List.map_map]
      rw [firstAccepting_map, firstAccepting_map]
      dsimp only [Function.comp_apply]
      have htried (part : HostType × Descriptor) (_ : part ∈ parts) :
          CutShort (v.Beyond m place) (r.check m place part.1 v) (r.check n place part.1 v) :=
        cutShort_check hmn part.1 v
      -- Either the same member is accepted, or a member is refused and no other is tried.
      rcases CutShort.firstAccepting htried with heq | ⟨path, hpath, hrefused⟩
      · rw [heq]
        cases hfirst : firstAccepting _ _ parts with
        | error f => exact .refl _
        | ok part =>
          have hmem := firstAccepting_mem hfirst
          exact .describe_bind (described part hmem).isKnown ((ih part hmem hmn hv).map _)
      · rw [hrefused]
        exact fun s _ ↦ .inr ⟨path, hpath, rfl⟩
    | @record _ s fields _ schema declared types =>
      subst types
      refine .ofExcept_bind (.refl _) fun s' hs' ↦ .ofExcept_bind (.refl _) fun carried hcarried ↦ ?_
      cases schema.symm.trans hs'
      obtain ⟨⟨name, rfl⟩, -⟩ := fieldsFor_eq_ok hcarried
      have hv := Value.streamFreeEntries_iff.mp hv
      simp only [hw]
      refine (curbed_encodeFields hw' hmn declared (fun field hfield steps ↦ .field hfield) ?_).map _
      rintro m' n' rfl rfl field hfield f hf
      exact ih f.2 (List.mem_map_of_mem hf) (Nat.le_of_succ_le_succ hmn) (hv _ hfield)

end Interchange
