import Interchange.Conversion.Decode
import Interchange.Conversion.Encode

/-!
# One step of each conversion

Describing, checking, encoding and decoding work on a host type from what the same work gives for
its parts at the same level, and on what is further in at one level less.  Each equation here opens
one level and one type, so that proofs about the conversions go by induction on these two.
-/

namespace Interchange

/-- Work at one level less, if there is one. -/
def below {α : Type} (work : Nat → α) : Nat → Option α
  | 0 => none
  | levels + 1 => some (work levels)

theorem below_eq_some {α : Type} {work : Nat → α} {levels : Nat} {a : α} :
    below work levels = some a ↔ ∃ n, levels = n + 1 ∧ work n = a := by
  cases levels <;> simp [below]

theorem enter_eq_ok {α : Type} {deeper : Option α} {place : Place} {s : Segment} {p : α × Place} :
    enter deeper place s = .ok p ↔ deeper = some p.1 ∧ p.2 = place.child s := by
  cases deeper with
  | none => simp
  | some a => simp [Prod.ext_iff, eq_comm]

namespace Registry

variable (r : Registry) (levels : Nat) (place : Place) (t : HostType)

theorem describe_eq : r.describe levels place t =
    r.describeStep (below r.describe levels) place t
      (t.parts.map fun part ↦ (part, r.describe levels place part)) := by
  cases levels <;> exact HostType.fold_eq _ t

theorem check_eq : r.check levels place t =
    r.checkStep (below r.check levels) place t
      (t.parts.map fun part ↦ (part, r.check levels place part)) := by
  cases levels <;> exact HostType.fold_eq _ t

theorem encode_eq (worker : Option Delegate) : r.encode worker levels place t =
    r.encodeStep worker levels (below (r.encode worker) levels) place t
      (t.parts.map fun part ↦ (part, r.encode worker levels place part)) := by
  cases levels <;> exact HostType.fold_eq _ t

theorem decode_eq (worker : Option Delegate) : r.decode worker levels place t =
    r.decodeStep worker levels (below (r.decode worker) levels) place t
      (t.parts.map fun part ↦ (part, r.decode worker levels place part)) := by
  cases levels <;> exact HostType.fold_eq _ t

end Registry

end Interchange
