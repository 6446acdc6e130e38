import Interchange.Proofs.Conversion.Anew
import Interchange.Proofs.Conversion.Storing

/-!
# What a check predicts

A value without streams that has a literal passes its check.  The converse holds but for snags, and
for files that cannot be written.  So a tagged union may commit to a member that then refuses the
value, although a later member takes it.
-/

namespace Interchange

open Session Attempt

namespace Engine

variable {e : Engine} {place : Place} {t : HostType} {d : Descriptor} {v : Value}

/-- After describing a type with success, a session is ready to encode values of it. -/
theorem Reachable.ready (he : e.Reachable) {s : Session}
    (hrun : (e.setup.describe place t).run e.session = (.ok d, s))
    (hc : e.session.isCancelled place.token = false) :
    s.Ready e.setup.registry s.known place.token e.session.store.isInMemory ∧ s.known t d := by
  have hdescribes := Registry.describes_describe (r := e.setup.registry) (e.setup.levels place)
    place t
  have hs := (hdescribes.within.of_run hrun he.coherent).1
  have hknown := hdescribes.remembered he.coherent hrun
  have hdescribed := Session.Coherent.isDescribed hs hknown
  have hends := hdescribed.ends_describe e.session (e.setup.levels place) place
  obtain ⟨hinside, -⟩ := hends.of_ok (Session.Coherent.inside he.coherent) hrun
  have hmarks : s.isCancelled place.token = e.session.isCancelled place.token := by
    rw [hinside.same]
    rfl
  have hstore : s.store = e.session.store := by rw [hinside.same]
  exact ⟨⟨⟨hs, fun _ _ h ↦ h⟩, hmarks.trans hc, by rw [hstore]⟩, hknown⟩

/-- Where a type is described, a value without streams has a literal and is encodable, or there is
a fault in it, or in storing it. -/
theorem Reachable.outcome_toLiteral (he : e.Reachable) (hr : e.setup.registry.Unplugged)
    (ht : e.setup.registry.DistinctFields t) (ho : v.Ordered) (hv : v.StreamFree)
    (hc : e.session.isCancelled place.token = false)
    (hd : (convert fun u ↦ u.describe place t).outcome e = .ok d) :
    (∃ l, (convert fun u ↦ u.toLiteral place t v).outcome e = .ok l ∧
      e.setup.registry.Encodable (e.setup.levels place) place t v) ∨
    ∃ f, (convert fun u ↦ u.toLiteral place t v).outcome e = .error f ∧
      (e.setup.registry.Faults (e.setup.levels place) place t v f ∨
        StorageFault e.session.store.isInMemory f) := by
  have hrun : (e.setup.describe place t).run e.session =
      (.ok d, ((e.setup.describe place t).run e.session).2) := Prod.ext hd rfl
  generalize ((e.setup.describe place t).run e.session).2 = s at hrun
  obtain ⟨hready, hknown⟩ := he.ready hrun hc
  have hencode : e.setup.registry.EndsEncoding
      (Ready e.setup.registry s.known place.token e.session.store.isInMemory)
      (StorageFault e.session.store.isInMemory) (e.setup.levels place) place t v d
      (e.setup.registry.encode (some e.setup.delegate) (e.setup.levels place) place t v d) :=
    (hready.recalls.coherent t d hknown).ends_encode hr ht
      (fun _ _ h levels place ↦ ends_describe_ready h levels place)
      (fun _ _ _ _ h htoken hv ↦ JsonLines.ends_encode _ h htoken hv) rfl ho hv
  -- the session is ready only once the type is described, so the run is taken apart there
  have hliteral : (e.setup.toLiteral place t v).run e.session = _ := run_bind_of_ok hrun _
  rcases hl : (e.setup.registry.encode (some e.setup.delegate) (e.setup.levels place) place t v
    d).run s with ⟨f | l, s'⟩
  · rw [run_bind_of_error hl] at hliteral
    exact .inr ⟨f, outcome_of_run (run_convert_of_run hliteral), (hencode.of_error hready hl).2⟩
  · obtain ⟨-, hconforms, hencodable⟩ := hencode.of_ok hready hl
    rw [run_bind_of_ok hl, Setup.verified_of_conforms hconforms] at hliteral
    exact .inl ⟨l, outcome_of_run (run_convert_of_run hliteral), hencodable⟩

/-- Where a type is described, a value without streams has a literal just if it passes the check and
has no snag in it, unless it is to be stored in files and they refuse. -/
theorem exists_toLiteral_iff (he : e.Reachable) (hr : e.setup.registry.Unplugged)
    (ht : e.setup.registry.DistinctFields t) (ho : v.Ordered) (hv : v.StreamFree)
    (hc : e.session.isCancelled place.token = false)
    (hd : (convert fun u ↦ u.describe place t).outcome e = .ok d) :
    ((∃ l, (convert fun u ↦ u.toLiteral place t v).outcome e = .ok l) ↔
      e.setup.check place t v = .ok () ∧
        ∀ f, ¬ e.setup.registry.Snags (e.setup.levels place) place t v f) ∨
    e.session.store.isInMemory = false ∧
      ∃ f, (convert fun u ↦ u.toLiteral place t v).outcome e = .error (.storage f) := by
  rcases he.outcome_toLiteral hr ht ho hv hc hd with
    ⟨l, hl, haccepted, hsmooth⟩ | ⟨f, hf, hfaults | ⟨hstore, f, rfl⟩⟩
  · exact .inl ⟨fun _ ↦ ⟨haccepted, hsmooth⟩, fun _ ↦ ⟨l, hl⟩⟩
  · refine .inl ⟨?_, ?_⟩
    · rintro ⟨l, hl⟩
      cases hl.symm.trans hf
    · rintro ⟨haccepted, hsmooth⟩
      have hencodable := Registry.Encodable.mk haccepted hsmooth
      exact absurd hfaults hencodable.not_faults
  · exact .inr ⟨hstore, f, hf⟩

/-! ## A union with streams -/

/-- An engine that can store lists as JSON lines. -/
def linesEngine : Engine :=
  let e := start Settings.defaults Registry.defaults ⟨Settings.sharedWorker⟩ (.inMemory "")
  ((register Converter.jsonLines.key .jsonLines).run e).2

theorem reachable_linesEngine : linesEngine.Reachable :=
  (reachable_start _ _ _ _).step (.register _ _ _)

theorem unplugged_linesEngine : linesEngine.setup.registry.Unplugged := by
  have hr : Registry.defaults.register Converter.jsonLines.key .jsonLines false =
      .ok (none, linesEngine.setup.registry) := rfl
  have hc (p : Plugin) : Converter.jsonLines ≠ .plugin p := by
    rintro ⟨⟩
  exact Registry.builtin_defaults.unplugged.register hc hr

/-- A stream of JSON lines, or a list of integers. -/
def linesType : HostType := .union [.named JsonLines.typeName, .list (.ofKind .integer)]

def linesDescriptor : Descriptor :=
  .union [.blob JsonLines.blobType, .collection (.primitive .integer)] Descriptor.defaultTagField

theorem distinctFields_linesType : linesEngine.setup.registry.DistinctFields linesType := by
  let ts : List HostType := [linesType, .named JsonLines.typeName, .list (.ofKind .integer),
    .ofKind .integer]
  have hcloses : linesEngine.setup.registry.closes ts = true := by decide +kernel
  exact Registry.distinctFields_of_closes hcloses List.mem_cons_self

theorem describe_linesType :
    (convert fun u ↦ u.describe .root linesType).outcome linesEngine = .ok linesDescriptor := rfl

/-- There is no snag in a list with an item, which is stored as a stream.  The empty list is
accepted as a stream as well, and that is a snag. -/
theorem exists_toLiteral_lines :
    (∀ f, ¬ linesEngine.setup.registry.Snags (linesEngine.setup.levels .root) .root linesType
      (.list [.scalar (.integer 5)]) f) ∧
    ¬ ∃ l, (convert fun u ↦ u.toLiteral .root linesType (.list [])).outcome linesEngine =
      .ok l := by
  have hliteral (items : List Value) (ho : (Value.list items).Ordered)
      (hv : (Value.list items).StreamFree) :=
    exists_toLiteral_iff reachable_linesEngine unplugged_linesEngine distinctFields_linesType ho hv
      rfl describe_linesType
  constructor
  · rcases hliteral [.scalar (.integer 5)] ⟨trivial, trivial⟩ ⟨trivial, trivial⟩
      with hiff | ⟨hstore, -⟩
    · exact (hiff.mp ⟨_, rfl⟩).2
    · cases hstore
  · intro hl
    rcases hliteral [] trivial trivial with hiff | ⟨hstore, -⟩
    · exact (hiff.mp hl).2 (.emptyStream []) (.member rfl rfl rfl (.here (.nothing rfl)))
    · cases hstore

/-- The empty list passes the check as a stream.  So it is encoded as one, and refused, although it
is a list of integers. -/
theorem not_exists_toLiteral_iff :
    ¬ ∀ (e : Engine) (t : HostType) (d : Descriptor) (v : Value), e.Reachable →
      e.setup.registry.Unplugged → e.setup.registry.DistinctFields t → v.Ordered → v.StreamFree →
      (convert fun u ↦ u.describe .root t).outcome e = .ok d →
      (e.setup.check .root t v = .ok () ↔
        ∃ l, (convert fun u ↦ u.toLiteral .root t v).outcome e = .ok l) := by
  intro h
  have hiff := h linesEngine linesType linesDescriptor (.list []) reachable_linesEngine
    unplugged_linesEngine distinctFields_linesType trivial trivial describe_linesType
  obtain ⟨l, hl⟩ := hiff.mp rfl
  have hempty : (convert fun u ↦ u.toLiteral .root linesType (.list [])).outcome linesEngine =
      .error (.emptyStream []) := rfl
  cases hl.symm.trans hempty

end Engine

end Interchange
