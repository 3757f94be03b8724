import PropSurface.Element
import PropSurface.Tree.LevelOrder

/-!
# Nodes of a module

A node is a cursor in a tree of elements.  Next to the moves of cursors, this module
has the searches: the first later sibling, ancestor or descendant with a property.
-/

namespace PropSurface

/-- A node of a tree of elements. -/
abbrev Node := Cursor Element

namespace Node

def kind (n : Node) : Kind := n.label.kind

/-- The name a node declares or refers to. -/
def name? (n : Node) : Option String := n.label.name?

/-- Text of a node in the source of its module. -/
def text (source : String) (n : Node) : String := Source.slice source n.label.span

/-- Whether a node has the given kind. -/
def is (kind : Kind) (n : Node) : Bool := decide (n.kind = kind)

/-- Whether a node goes by the given name. -/
def isNamed (name : String) (n : Node) : Bool := decide (n.name? = some name)

/-- The next sibling, if it has the property. -/
def nextIf? (n : Node) (p : Node → Bool) : Option Node := n.next?.filter p

/-- The nearest later sibling with the property. -/
def closest? (n : Node) (p : Node → Bool) : Option Node := n.following.find? p

/-- The nearest strict ancestor with the property. -/
def ancestor? (n : Node) (p : Node → Bool) : Option Node := n.ancestors.find? p

/-- The first node below, in level order and within the bound, with the property. -/
def search? (n : Node) (p : Node → Bool) (bound : Option Nat) : Option Node :=
  n.firstBelow? bound (Option.guard p)

theorem search?_eq_find? (n : Node) (p : Node → Bool) (bound : Option Nat) :
    n.search? p bound = ((n.descendants bound).map (·.1)).find? p := by
  rw [search?, Cursor.firstBelow?_eq_findSome?, List.findSome?_guard]

end Node

end PropSurface
