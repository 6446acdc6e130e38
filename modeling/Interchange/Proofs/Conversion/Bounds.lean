import Interchange.Proofs.Conversion.Agreement
import Interchange.Proofs.Conversion.Levels

/-!
# What the limit of nesting bounds

A value is encoded step by step into its lists, maps and records, each step at one level less.  So
whatever a value leads to by more steps than there are levels is not encoded, but refused, with one
exception: the fields that an open record takes beside its own are entered like any others, and from
there on written by their shape alone, which counts no levels.

`Undeclared` finds these fields by the way that encoding takes to them.
-/

namespace Interchange

open Session Attempt

namespace Registry

/-- A chain of steps to a field that an open record takes beside its own, along the types by which
the value is encoded. -/
inductive Undeclared (r : Registry) : Nat → Place → HostType → Value → Path → Prop
  | here {levels : Nat} {place : Place} {t : HostType} {s : Schema} {name : Option String}
      {fields : List (String × Value)} {field : String × Value}
      (resolved : r.resolve t = .ok .record) (schema : r.schemaOf t = .ok s)
      (isOpen : s.isOpen = true) (mem : field ∈ fields) (undeclared : s.get? field.1 = none) :
      Undeclared r (levels + 1) place t (.record name fields) [.field field.1]
  | item {levels : Nat} {place : Place} {t : HostType} {vs : List Value} {item : Value × Nat}
      {path : Path} (resolved : r.resolve (.list t) = .ok .sequence) (mem : item ∈ vs.zipIdx)
      (inside : Undeclared r levels (place.child (.index item.2)) t item.1 path) :
      Undeclared r (levels + 1) place (.list t) (.list vs) (.index item.2 :: path)
  | entry {levels : Nat} {place : Place} {t : HostType} {es : List (String × Value)}
      {e : String × Value} {path : Path} (resolved : r.resolve (.dict t) = .ok .mapping)
      (mem : e ∈ es) (inside : Undeclared r levels (place.child (.key e.1)) t e.2 path) :
      Undeclared r (levels + 1) place (.dict t) (.map es) (.key e.1 :: path)
  | field {levels : Nat} {place : Place} {t u : HostType} {s : Schema} {name : Option String}
      {fields : List (String × Value)} {field : String × Value} {path : Path}
      (resolved : r.resolve t = .ok .record) (schema : r.schemaOf t = .ok s)
      (declared : s.get? field.1 = some u) (mem : field ∈ fields)
      (inside : Undeclared r levels (place.child (.field field.1)) u field.2 path) :
      Undeclared r (levels + 1) place t (.record name fields) (.field field.1 :: path)
  | present {levels : Nat} {place : Place} {t inner : HostType} {v : Value} {path : Path}
      (nullable : r.Nullable t inner) (inside : Undeclared r levels place inner v path) :
      Undeclared r levels place t v path
  | plain {levels : Nat} {place : Place} {members : List HostType} {t : HostType} {v : Value}
      {path : Path} (plain : r.Plain members t) (inside : Undeclared r levels place t v path) :
      Undeclared r levels place (.union members) v path
  | member {levels : Nat} {place : Place} {members : List HostType} {t : HostType} {v : Value}
      {path : Path} (resolved : r.resolve (.union members) = .ok .union)
      (form : HostType.unionForm members = .tagged)
      (accepted : members.find? (fun t ↦ (r.check levels place t v).isOk) = some t)
      (inside : Undeclared r levels place t v path) :
      Undeclared r levels place (.union members) v path

/-- A chain of steps that is no longer than there are levels, at least up to an undeclared field. -/
def Bounds (r : Registry) (levels : Nat) (place : Place) (t : HostType) (v : Value) (path : Path) :
    Prop :=
  path.length ≤ levels ∨
    ∃ start, start <+: path ∧ start.length ≤ levels ∧ r.Undeclared levels place t v start

variable {r : Registry} {known : Knowledge} {levels : Nat} {place inner : Place} {seg : Segment}
  {t u : HostType} {d : Descriptor} {v w : Value} {l : Literal} {path : Path}

theorem bounds_nil : r.Bounds levels place t v [] := .inl (Nat.zero_le levels)

theorem Bounds.step (h : r.Bounds levels inner u w path)
    (hstep : ∀ start, r.Undeclared levels inner u w start →
      r.Undeclared (levels + 1) place t v (seg :: start)) :
    r.Bounds (levels + 1) place t v (seg :: path) := by
  rcases h with hlength | ⟨start, hstart, hlength, hundeclared⟩
  · exact .inl (Nat.succ_le_succ hlength)
  · exact .inr ⟨seg :: start, List.cons_prefix_cons.mpr ⟨rfl, hstart⟩, Nat.succ_le_succ hlength,
      hstep start hundeclared⟩

theorem Bounds.imp (h : r.Bounds levels place u v path)
    (himp : ∀ start, r.Undeclared levels place u v start → r.Undeclared levels place t v start) :
    r.Bounds levels place t v path :=
  h.imp_right fun ⟨start, hstart, hlength, hundeclared⟩ ↦
    ⟨start, hstart, hlength, himp start hundeclared⟩

/-- Where a literal is written for a value, the levels bound every chain of steps into the value. -/
theorem Writes.bounds (h : r.Writes known levels place t d v l) (hv : v.StreamFree)
    (hpath : v.Leads path) : r.Bounds levels place t v path := by
  induction h generalizing path with
  | primitive | reference | absent =>
    cases hpath
    exact bounds_nil
  | stream => exact hv.elim
  | @list levels _ _ _ items resolved room _ ih =>
    cases hpath with
    | here => exact bounds_nil
    | @item _ item path mem inside =>
      rw [List.zipIdx_map] at mem
      obtain ⟨⟨item, i⟩, hitem, rfl⟩ := List.mem_map.mp mem
      have hmem := List.fst_mem_of_mem_zipIdx hitem
      obtain ⟨levels, rfl⟩ := Nat.exists_eq_add_one.mpr (room (List.ne_nil_of_mem hmem))
      have hv := Value.streamFreeItems_iff.mp hv item.1 (List.mem_map_of_mem hmem)
      have mem : (item.1, i) ∈ (items.map (·.1)).zipIdx := by
        rw [List.zipIdx_map]
        exact List.mem_map_of_mem hitem
      exact (ih (item, i) hitem hv inside).step fun start hstart ↦ .item resolved mem hstart
  | @dict levels _ _ _ entries resolved room _ ih =>
    cases hpath with
    | here => exact bounds_nil
    | @entry _ e path mem inside =>
      obtain ⟨entry, hentry, rfl⟩ := List.mem_map.mp mem
      obtain ⟨levels, rfl⟩ := Nat.exists_eq_add_one.mpr (room (List.ne_nil_of_mem hentry))
      have hv := Value.streamFreeEntries_iff.mp hv _ mem
      exact (ih entry hentry hv inside).step fun start hstart ↦ .entry resolved mem hstart
  | present nullable _ _ ih => exact (ih hv hpath).imp fun _ ↦ .present nullable
  | plain plain _ ih => exact (ih hv hpath).imp fun _ ↦ .plain plain
  | @tagged levels place parts member v _ tagged accepted _ ih =>
    refine (ih hv hpath).imp fun _ ↦ .member tagged.resolved tagged.form ?_
    rw [find?_accepting, accepted]
    rfl
  | @record levels place t s declared _ fields declares _ closed room _ _ ih =>
    cases hpath with
    | here => exact bounds_nil
    | @field _ _ field path mem inside =>
      obtain ⟨field, hfield, rfl⟩ := List.mem_map.mp mem
      obtain ⟨levels, rfl⟩ := Nat.exists_eq_add_one.mpr (room (List.ne_nil_of_mem hfield))
      have hv := Value.streamFreeEntries_iff.mp hv _ mem
      have hget := Schema.get?_eq declares.fields field.1
      cases hf : declared.lookup field.1 with
      | some f =>
        rw [hf] at hget
        refine (ih field hfield f.1 f.2 hf hv inside).step fun start hstart ↦ ?_
        exact .field declares.resolved declares.schema hget mem hstart
      | none =>
        rw [hf] at hget
        have isOpen : s.isOpen = true := by
          cases hopen : s.isOpen with
          | true => rfl
          | false =>
            have hdeclared := closed hopen field hfield
            rw [hget] at hdeclared
            cases hdeclared
        -- The step to the field is the last one that is counted.
        refine .inr ⟨[.field field.1], ⟨path, rfl⟩, Nat.succ_le_succ (Nat.zero_le _), ?_⟩
        exact .here declares.resolved declares.schema isOpen mem hget

end Registry

/-! ## Other limits -/

/-- The same settings but for the limit of nesting. -/
def Setup.allowing (u : Setup) (limit : Nat) : Setup :=
  { u with settings := { u.settings with maxDepth := limit } }

namespace Setup

variable {u : Setup} {known : Knowledge} {s : Session} {t : HostType} {d : Descriptor} {v : Value}
  {limit : Nat}

/-- The rest of a conversion, after its type is described, comes to the same under a larger limit,
unless it is refused for want of levels. -/
theorem curbed_encode_allowing (hr : u.registry.Builtin) (h : u.registry.Described known t d)
    (hlimit : u.settings.maxDepth ≤ limit) (place : Place) (hv : v.StreamFree) :
    Curbed (Recalls u.registry known) (v.Beyond (u.levels place) place)
      (u.registry.encode (some u.delegate) (u.levels place) place t v d >>= fun l ↦
        .ofExcept (u.verified place d l))
      (u.registry.encode (some (u.allowing limit).delegate) ((u.allowing limit).levels place) place
        t v d >>= fun l ↦ .ofExcept (u.verified place d l)) := by
  have hlevels : u.levels place ≤ (u.allowing limit).levels place := Nat.sub_le_sub_right hlimit _
  have hworkers : (some u.delegate).isNone = (some (u.allowing limit).delegate).isNone := rfl
  have hw {ask : Delegate} (hask : some (u.allowing limit).delegate = some ask) :
      ask.Keeping u.registry := keeping_delegate (u := u.allowing limit) hask
  refine (h.curbed_encode hr hworkers (fun _ ↦ hw) hlevels hv).bind (fun s hs ↦ ?_) fun l ↦ .refl _
  exact recalls_encode (fun _ ↦ hw) hs _ _ _ _ _

/-- A conversion comes to the same under a larger limit, unless what the value leads to is refused
for want of levels, or describing its type is. -/
theorem run_toLiteral_allowing (hr : u.registry.Builtin) (hs : s.Coherent u.registry)
    (hlimit : u.settings.maxDepth ≤ limit) (place : Place) (t : HostType) (hv : v.StreamFree) :
    (u.toLiteral place t v).run s = ((u.allowing limit).toLiteral place t v).run s ∨
      ∃ path : Path, (u.toLiteral place t v).outcome s = .error (.nestingLimit path) ∧
        (v.Beyond (u.levels place) place path ∨
          path.length = place.path.length + u.levels place + 1 ∧
            (u.describe place t).outcome s = .error (.nestingLimit path)) := by
  have hlevels : u.levels place ≤ (u.allowing limit).levels place := Nat.sub_le_sub_right hlimit _
  have hdescribes := Registry.describes_describe (r := u.registry) (u.levels place) place t
  have hcurbed : CurbedAt _ (u.describe place t) ((u.allowing limit).describe place t) :=
    curbedAt_describe hlevels rfl t
  rcases hcurbed s trivial with hsame | ⟨path, hpath, hrefused⟩
  · rcases hd : (u.describe place t).run s with ⟨e | d, s₁⟩
    · have hd' : ((u.allowing limit).describe place t).run s = (.error e, s₁) := hsame.symm.trans hd
      exact .inl ((run_bind_of_error hd _).trans (run_bind_of_error hd' _).symm)
    · have hd' : ((u.allowing limit).describe place t).run s = (.ok d, s₁) := hsame.symm.trans hd
      have hs₁ := (hdescribes.within.of_run hd hs).1
      have hdescribed := hs₁ t d (hdescribes.remembered hs hd)
      have hrest := curbed_encode_allowing hr hdescribed hlimit place hv s₁ ⟨hs₁, fun _ _ h ↦ h⟩
      rcases hrest with hsame | ⟨path, hbeyond, hrefused⟩
      · exact .inl (((run_bind_of_ok hd _).trans hsame).trans (run_bind_of_ok hd' _).symm)
      · refine .inr ⟨path, ?_, .inl hbeyond⟩
        exact (congrArg Prod.fst (run_bind_of_ok hd _)).trans hrefused
  · exact .inr ⟨path, outcome_of_run (run_bind_of_error (Prod.ext hrefused rfl) _),
      .inr ⟨hpath, hrefused⟩⟩

end Setup

namespace Engine

/-- The same engine with another limit of nesting. -/
def allowing (e : Engine) (limit : Nat) : Engine := { e with setup := e.setup.allowing limit }

variable {e : Engine} {v : Value}

/-- The limit of nesting bounds every chain of steps into a value for which a literal is written, at
least up to a field that an open record takes beside its own.  And it is all that a limit does: the
outcome is the one under any larger limit, or a refusal of what the value leads to by one step more
than there are levels, or the refusal that describing the type comes to. -/
theorem toLiteral_bounds (he : e.Reachable) (hr : e.setup.registry.Standard) (hv : v.StreamFree)
    (place : Place) (t : HostType) :
    (∀ l, (convert fun u ↦ u.toLiteral place t v).outcome e = .ok l → ∀ path, v.Leads path →
      e.setup.registry.Bounds (e.setup.levels place) place t v path) ∧
    ∀ limit, e.setup.settings.maxDepth ≤ limit →
      (convert fun u ↦ u.toLiteral place t v).outcome e =
        (convert fun u ↦ u.toLiteral place t v).outcome (e.allowing limit) ∨
      ∃ path : Path,
        (convert fun u ↦ u.toLiteral place t v).outcome e = .error (.nestingLimit path) ∧
        (v.Beyond (e.setup.levels place) place path ∨
          path.length = place.path.length + e.setup.levels place + 1 ∧
            (convert fun u ↦ u.describe place t).outcome e = .error (.nestingLimit path)) := by
  constructor
  · intro l hl path hpath
    obtain ⟨e', hrun⟩ := outcome_eq_ok.mp hl
    obtain ⟨s', h, rfl⟩ := run_convert_eq_ok.mp hrun
    obtain ⟨d, s₁, -, -, hwrites, -⟩ :=
      Setup.toLiteralBy_ok hr.builtin (fun _ ↦ Setup.keeping_delegate) he.coherent h
    exact hwrites.bounds hv hpath
  · intro limit hlimit
    rcases Setup.run_toLiteral_allowing hr.builtin he.coherent hlimit place t hv with
      hsame | hrefused
    · have houtcome := congrArg Prod.fst hsame
      exact .inl houtcome
    · exact .inr hrefused

/-- An engine that takes values one level deep. -/
def flatEngine : Engine := freshEngine.allowing 1

theorem reachable_flatEngine : flatEngine.Reachable := reachable_start _ _ _ _

/-- A list of numbers is within one level.  A list of lists is not, and is refused at an inner item,
although it is converted under a limit of two levels. -/
theorem toLiteral_bounds_list :
    let numbers : Value := .list [.scalar (.integer 5)]
    flatEngine.setup.registry.Bounds 1 .root (.list (.ofKind .integer)) numbers [.index 0] ∧
      ∃ path : Path,
        (convert fun u ↦ u.toLiteral .root (.list (.list (.ofKind .integer)))
          (.list [numbers])).outcome flatEngine = .error (.nestingLimit path) ∧
        (Value.list [numbers]).Beyond 1 .root path := by
  intro numbers
  have hr : flatEngine.setup.registry.Standard := Registry.standard_defaults
  have hleads : numbers.Leads [.index 0] :=
    @Value.Leads.item _ (_, 0) _ List.mem_cons_self (.here _)
  constructor
  · have hwritten : (convert fun u ↦ u.toLiteral .root (.list (.ofKind .integer)) numbers).outcome
        flatEngine = .ok (.collection [.scalar (.integer 5)]) := rfl
    have hv : numbers.StreamFree := ⟨trivial, trivial⟩
    exact (toLiteral_bounds reachable_flatEngine hr hv .root _).1 _ hwritten _ hleads
  · have hv : (Value.list [numbers]).StreamFree := ⟨⟨trivial, trivial⟩, trivial⟩
    have hlimits := (toLiteral_bounds reachable_flatEngine hr hv .root
      (.list (.list (.ofKind .integer)))).2 2 (by decide)
    rcases hlimits with hsame | ⟨path, hrefused, hbeyond | ⟨-, hdescribe⟩⟩
    · cases hsame
    · exact ⟨path, hrefused, hbeyond⟩
    · cases hdescribe

/-- What an undeclared field of an open record leads to is converted beyond the limit. -/
theorem not_toLiteral_bounds :
    ¬ ∀ (e : Engine) (t : HostType) (v : Value) (l : Literal), e.Reachable →
      e.setup.registry.Standard → v.StreamFree →
      (convert fun u ↦ u.toLiteral .root t v).outcome e = .ok l →
      ∀ path, v.Leads path → path.length ≤ e.setup.settings.maxDepth := by
  intro h
  let v : Value := .record none [("x", .list [.scalar (.integer 1)])]
  have hleads : v.Leads [.field "x", .index 0] :=
    .field List.mem_cons_self (@Value.Leads.item _ (_, 0) _ List.mem_cons_self (.here _))
  have hwritten : (convert fun u ↦ u.toLiteral .root (.record "open" [] true) v).outcome
      flatEngine = .ok (.record [("x", .collection [.scalar (.integer 1)])]) := rfl
  have hlength := h flatEngine (.record "open" [] true) v _ reachable_flatEngine
    Registry.standard_defaults ⟨⟨trivial, trivial⟩, trivial⟩ hwritten _ hleads
  exact absurd hlength (by decide)

end Engine

end Interchange
