import PropSurface.Node

/-!
# Queries

**Input.**  A node and a list of steps.  A step moves to a descendant, to a child or
to the next sibling, and filters by kind and by a property.

**Algorithm.**  The candidates of a step are tried in level order; the first from
which the remaining steps succeed decides.  The empty query answers with the node
itself.
-/

namespace PropSurface

/-- How a step moves away from a node. -/
inductive Relation where
  /-- To any node below. -/
  | descendant
  /-- To a node right below. -/
  | child
  /-- To the next sibling and to no later one. -/
  | next
deriving DecidableEq, Repr

def Relation.name : Relation → String
  | descendant => "Descendant"
  | child => "DirectChild"
  | next => "NextSibling"

/-- Nodes that a relation leads to, in the order in which they are tried. -/
def Relation.candidates (r : Relation) (n : Node) : List Node :=
  match r with
  | descendant => (n.descendants none).map (·.1)
  | child => (n.descendants (some 1)).map (·.1)
  | next => n.next?.toList

/-- What `f` gives for the first node that a relation leads to for which it gives
something. -/
def Relation.first? {β : Type} (r : Relation) (n : Node) (f : Node → Option β) : Option β :=
  match r with
  | descendant => n.firstBelow? none f
  | child => n.firstBelow? (some 1) f
  | next => n.next?.bind f

theorem Relation.first?_eq_findSome? {β : Type} (r : Relation) (n : Node)
    (f : Node → Option β) : r.first? n f = (r.candidates n).findSome? f := by
  cases r with
  | descendant => exact Cursor.firstBelow?_eq_findSome? n none f
  | child => exact Cursor.firstBelow?_eq_findSome? n (some 1) f
  | next => cases h : n.next? <;> simp [first?, candidates, h]

/-- One step of a query. -/
structure QueryStep where
  relation : Relation
  kind : Option Kind
  holds : Node → Bool := fun _ => true

namespace QueryStep

/-- Step to a descendant of a kind. -/
def descendant (kind : Kind) : QueryStep := { relation := .descendant, kind := some kind }

/-- Step to a child of a kind. -/
def child (kind : Kind) : QueryStep := { relation := .child, kind := some kind }

/-- Step to the next sibling, if it is of a kind. -/
def next (kind : Kind) : QueryStep := { relation := .next, kind := some kind }

/-- Whether a node passes the filters of a step. -/
def admits (s : QueryStep) (n : Node) : Bool :=
  s.kind.all (fun kind => n.is kind) && s.holds n

end QueryStep

/-- End of the first chain of candidates that passes all steps. -/
def Node.query? : List QueryStep → Node → Option Node
  | [], n => some n
  | s :: rest, n =>
      s.relation.first? n fun m => if s.admits m then Node.query? rest m else none

/-- A query goes on from the first candidate of its first step from which the other steps
succeed. -/
theorem Node.query?_cons (s : QueryStep) (rest : List QueryStep) (n : Node) :
    Node.query? (s :: rest) n =
      ((s.relation.candidates n).filter s.admits).findSome? (Node.query? rest) := by
  rw [Node.query?, Relation.first?_eq_findSome?]
  induction s.relation.candidates n with
  | nil => rfl
  | cons m ms ih =>
      by_cases h : s.admits m = true
      · simp [List.findSome?_cons, h, ih]
      · simp [h, ih]

end PropSurface
