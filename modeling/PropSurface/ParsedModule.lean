import PropSurface.Element.Lowering
import PropSurface.Failure

/-!
# Parsed modules

A module is a path, a source and the tree of its elements.  Parsing fails exactly
when the concrete tree is flagged as unreadable, and then names the place of the
first bad node.

The nodes of a module are numbered in preorder; `slots` is the table of its nodes by
number, with the numbers of parent and children.
-/

namespace PropSurface

/-- A module whose source has been read. -/
structure ParsedModule where
  path : Path
  source : String
  root : Lowered

/-- Row, counted from 1, and byte column where a concrete tree becomes unreadable. -/
def Concrete.badPosition (source : String) (concrete : Concrete) : Nat × Nat :=
  match concrete.firstBad? with
  | some bad =>
      let (row, column) := Source.position source bad.span.start
      (row + 1, column)
  | none => (1, 0)

/-- One row of the node table. -/
structure Slot where
  parent : Option Nat
  element : Element
  children : List Nat
deriving DecidableEq, Repr

namespace Slot

/-- Numbers of the roots of a forest whose first node has number `n`. -/
def rootNumbers (n : Nat) : List Lowered → List Nat
  | [] => []
  | t :: ts => n :: rootNumbers (n + t.size) ts

mutual

/-- Rows of a tree whose root has number `n`. -/
def ofTree (parent : Option Nat) (n : Nat) : Lowered → List Slot
  | .node e ts => ⟨parent, e, rootNumbers (n + 1) ts⟩ :: ofForest n (n + 1) ts

/-- Rows of the children of node `parent`, the first of which has number `n`. -/
def ofForest (parent : Nat) (n : Nat) : List Lowered → List Slot
  | [] => []
  | t :: ts => ofTree (some parent) n t ++ ofForest parent (n + t.size) ts

end

end Slot

namespace ParsedModule

/-- Read a source that has the given concrete tree. -/
def parse (path : Path) (source : String) (concrete : Concrete) :
    Except Failure ParsedModule :=
  if concrete.label.hasError then
    let (line, column) := concrete.badPosition source
    .error (.parseError path line column)
  else .ok ⟨path, source, Lowering.lowerRoot source concrete⟩

def size (m : ParsedModule) : Nat := m.root.size

/-- The nodes by number. -/
def slots (m : ParsedModule) : List Slot := Slot.ofTree none 0 m.root

end ParsedModule

end PropSurface
