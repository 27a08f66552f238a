import EntityQuery.Document

/-!
Paths into the rows of a query's result: the labels that lead to a value.

* `Path` -- the labels, outermost first; no label leads to the row itself;
* `Path.text` -- the labels with points between them.
-/
namespace EntityQuery

/-- The labels that lead to a value. -/
structure Path where
  labels : List String
  deriving DecidableEq

namespace Path

/-- The path to the row itself. -/
def root : Path := ⟨[]⟩

/-- The path to the row itself has no labels. -/
def isRoot (p : Path) : Bool := p.labels.isEmpty

/-- One label further. -/
def append (p : Path) (label : String) : Path := ⟨p.labels ++ [label]⟩

/-- Further labels in turn. -/
def join (p : Path) (labels : List String) : Path := ⟨p.labels ++ labels⟩

/-- The labels that lead from one path to another, if the second goes through the first. -/
def below? (p start : Path) : Option (List String) :=
  if start.labels.isPrefixOf p.labels then some (p.labels.drop start.labels.length) else none

/-- The labels with points between them; the row itself is called `<root>`. -/
def text (p : Path) : String :=
  if p.isRoot then "<root>" else ".".intercalate p.labels

end Path

end EntityQuery
