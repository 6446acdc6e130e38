import Interchange.Text.Blank

/-!
# Settings

What an engine can be told: how deep values may nest, the name of its worker, where new objects are
stored, and whether literals are verified.  Settings come from variables that may be set; one that
cannot be read leaves the default.
-/

namespace Interchange

/-- What an engine can be told. -/
structure Settings where
  /-- The most steps into a value. -/
  maxDepth : Nat
  /-- The name of a worker of the engine's own. -/
  workerName : String
  /-- Where new objects are stored. -/
  area : String
  /-- Whether each literal is checked against the descriptor it was encoded for. -/
  verify : Bool
deriving DecidableEq, Repr

namespace Settings

/-- The name of the worker that engines share. -/
def sharedWorker : String := "litengine-bridge"

def defaults : Settings := ⟨64, sharedWorker, "raw", true⟩

/-- The texts of the variables that are set. -/
structure Variables where
  maxDepth : Option String
  workerName : Option String
  area : Option String
  verify : Option String

/-- The value of a decimal digit. -/
def digit? (c : Char) : Option Nat := if c.isDigit then some (c.toNat - '0'.toNat) else none

/-- The number that digits stand for, after one that was read before. -/
def digits? (n : Nat) : List Char → Option Nat
  | [] => some n
  | c :: cs => do digits? (10 * n + (← digit? c)) cs

/-- The number that a text stands for: digits, maybe after a plus sign, that 64 bits hold. -/
def number? (text : List Char) : Option Nat := do
  let digits := match text with
    | '+' :: cs => cs
    | cs => cs
  if digits.isEmpty then none
  let n ← digits? 0 digits
  if n < UInt64.size then some n else none

/-- The truth value that a text stands for. -/
def truth? (text : List Char) : Option Bool :=
  if text = ['t', 'r', 'u', 'e'] then some true
  else if text = ['f', 'a', 'l', 's', 'e'] then some false
  else none

/-- A text that is set and not empty, or else a default. -/
def textOr (otherwise : String) : Option String → String
  | some "" | none => otherwise
  | some text => text

/-- The number of a variable, or else a default.  No depth is no setting. -/
def depthOr (otherwise : Nat) (text : Option String) : Nat :=
  match text.bind fun t ↦ number? (Text.trim t.toList) with
  | none | some 0 => otherwise
  | some n => n

/-- The defaults, but for the variables that are set. -/
def ofVariables (v : Variables) : Settings where
  maxDepth := depthOr defaults.maxDepth v.maxDepth
  workerName := textOr defaults.workerName v.workerName
  area := textOr defaults.area v.area
  verify := (v.verify.bind fun t ↦ truth? (Text.trim t.toList)).getD defaults.verify

@[simp] theorem ofVariables_unset : ofVariables ⟨none, none, none, none⟩ = defaults := rfl

end Settings

end Interchange
