/-!
# Faults of storage
-/

namespace Interchange.Storage

/-- Why a stored object cannot be reached. -/
inductive Fault where
  /-- Nothing is stored under the URI. -/
  | notFound (uri : String)
  /-- The URI belongs to no object of this storage. -/
  | invalidUri (uri : String)
  /-- The medium refuses. -/
  | io (reason : String)
deriving DecidableEq, Repr

/-- The text of a fault. -/
def Fault.message : Fault → String
  | notFound uri => "Not found: " ++ uri
  | invalidUri uri => "Invalid URI: " ++ uri
  | io reason => "I/O error: " ++ reason

end Interchange.Storage
