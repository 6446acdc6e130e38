import Interchange.Text.Quoted

/-!
# Paths

Where a value stands inside the value that is being converted, as the steps from that value to it.
-/

namespace Interchange

/-- A step from a value to one of its parts. -/
inductive Segment where
  | field (name : String)
  | index (position : Nat)
  | key (name : String)
deriving DecidableEq, Repr

/-- The text of a step in messages. -/
def Segment.text : Segment → String
  | field name => "." ++ name
  | index position => "[" ++ toString position ++ "]"
  | key name => "[" ++ Text.quoted name ++ "]"

/-- The steps from the outermost value, the first step first. -/
abbrev Path := List Segment

namespace Path

def root : Path := []

/-- One step further. -/
def child (p : Path) (s : Segment) : Path := p ++ [s]

@[simp] theorem length_child (p : Path) (s : Segment) : (p.child s).length = p.length + 1 := by
  simp [child]

/-- The text of a path in messages; the outermost value is a dollar sign. -/
def text (p : Path) : String := "$" ++ String.join (p.map Segment.text)

@[simp] theorem text_root : text root = "$" := rfl

end Path

end Interchange
