import Interchange.Converter
import Interchange.Session

/-!
# Work on the worker

Some converters leave their work to the worker, and the conversion waits for it.  The worker cannot
wait for itself: work that it does can ask the engine for conversions, but not for ones that
suspend.
-/

namespace Interchange

/-- The conversions that work on the worker can ask for. -/
structure Delegate where
  encode : HostType → Value → Conversion Literal
  decode : HostType → Literal → Conversion Value

/-- Leaves work to the worker, unless it is cancelled before it starts.  There is no delegate where
the conversion itself is work of the worker. -/
def suspend {α : Type} (worker : Option Delegate) (place : Place)
    (work : Delegate → Conversion α) : Conversion α :=
  match worker with
  | none => throw .workerReentry
  | some delegate => do
    if (← get).isCancelled place.token then throw .cancelled
    work delegate

/-- The end of a job, given how the engine is asked.  A stalled job ends when its mark is set. -/
def Job.finish {α : Type} (place : Place) (ask : HostType → Conversion α) : Job α → Conversion α
  | done result => .ofExcept result
  | stalled => do
    match place.token with
    | some token => modify (·.setMark token .cancelled)
    | none => pure ()
    throw .cancelled
  | delegated t => ask t

/-- The end of the work of a plugged-in converter. -/
def Work.finish {α : Type} (worker : Option Delegate) (place : Place)
    (ask : Delegate → HostType → Conversion α) : Work α → Conversion α
  | done result => .ofExcept result
  | suspended job => suspend worker place fun delegate ↦ job.finish place (ask delegate)

end Interchange
