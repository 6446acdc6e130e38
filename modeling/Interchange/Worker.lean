import Interchange.Fault

/-!
# The worker

A worker runs jobs one beside the other on a thread of its own.  A caller waits for the end of its
job either with its thread, which the worker's own thread cannot do, or as a part of another job.
-/

namespace Interchange

/-- What runs jobs. -/
structure Worker where
  name : String
deriving DecidableEq, Repr

/-- The thread that something runs on. -/
inductive Thread where
  | caller | worker
deriving DecidableEq, Repr

namespace Worker

variable {α : Type}

/-- Runs a job for a caller that is a job itself or can wait without its thread. -/
def run (_w : Worker) (isCancelled : Bool) (job : Thread → Except Fault α) : Except Fault α :=
  if isCancelled then .error .cancelled else job .worker

/-- Runs a job for a caller that waits with its thread. -/
def runAndWait (w : Worker) (thread : Thread) (isCancelled : Bool)
    (job : Thread → Except Fault α) : Except Fault α :=
  match thread with
  | .worker => .error .workerReentry
  | .caller => w.run isCancelled job

@[simp] theorem runAndWait_worker (w : Worker) (isCancelled : Bool)
    (job : Thread → Except Fault α) :
    w.runAndWait .worker isCancelled job = .error .workerReentry := rfl

end Worker

end Interchange
