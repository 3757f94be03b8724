/-!
# Ordered trees

A finite tree whose nodes carry a label and an ordered list of children.

**Contents.**
* `Tree`: the type, with `label` and `children`.
* `size`: the number of nodes, for a tree and for a forest.
* `preorder`: the labels, a node before its children and the children left to
  right.
* `ofRows?`: the tree behind a list of labels in preorder, each with its depth.

All recursions here are structural on the tree and its list of children, so
they compute by unfolding.
-/

namespace PropSurface

universe u

/-- A tree with labelled nodes and ordered children. -/
inductive Tree (α : Type u) where
  | node (label : α) (children : List (Tree α))

namespace Tree

variable {α : Type u}

def label : Tree α → α
  | node a _ => a

/-- Subtrees below the root, left to right. -/
def children : Tree α → List (Tree α)
  | node _ ts => ts

@[simp] theorem label_node (a : α) (ts : List (Tree α)) : (node a ts).label = a := rfl

@[simp] theorem children_node (a : α) (ts : List (Tree α)) :
    (node a ts).children = ts := rfl

mutual

/-- Number of nodes of a tree. -/
def size : Tree α → Nat
  | node _ ts => forestSize ts + 1

/-- Number of nodes of a forest. -/
def forestSize : List (Tree α) → Nat
  | [] => 0
  | t :: ts => size t + forestSize ts

end

@[simp] theorem forestSize_append (ts us : List (Tree α)) :
    forestSize (ts ++ us) = forestSize ts + forestSize us := by
  induction ts with
  | nil => simp [forestSize]
  | cons t ts ih => simp [forestSize, ih, Nat.add_assoc]

theorem size_pos (t : Tree α) : 0 < t.size := by
  cases t with
  | node a ts => simp [size]

mutual

/-- Labels of a tree, each node before its children. -/
def preorder : Tree α → List α
  | node a ts => a :: forestPreorder ts

/-- Labels of a forest, tree after tree. -/
def forestPreorder : List (Tree α) → List α
  | [] => []
  | t :: ts => preorder t ++ forestPreorder ts

end

mutual

theorem length_preorder : ∀ t : Tree α, t.preorder.length = t.size
  | node _ ts => by simp [preorder, size, length_forestPreorder ts]

theorem length_forestPreorder :
    ∀ ts : List (Tree α), (forestPreorder ts).length = forestSize ts
  | [] => rfl
  | t :: ts => by
      simp [forestPreorder, forestSize, length_preorder t, length_forestPreorder ts]

end

/-- Close the finished children of every open node deeper than `depth`: the forests
are kept innermost first, each with the label and depth it belongs to. -/
def foldOpen (depth : Nat) :
    List (Nat × α × List (Tree α)) → List (Nat × α × List (Tree α))
  | (d, a, ts) :: (d', a', ts') :: rest =>
      if depth ≤ d then
        foldOpen depth ((d', a', node a ts.reverse :: ts') :: rest)
      else (d, a, ts) :: (d', a', ts') :: rest
  | stack => stack
termination_by stack => stack.length

/-- Rebuild a tree from its labels in preorder, each with its depth.  The parent of
a row is the closest earlier row of smaller depth; `none` without rows. -/
def ofRows? (rows : List (Nat × α)) : Option (Tree α) :=
  match rows with
  | [] => none
  | (d, a) :: rest =>
      let stack := rest.foldl
        (fun stack row => (row.1, row.2, []) :: foldOpen row.1 stack) [(d, a, [])]
      match foldOpen 0 stack with
      | (_, b, ts) :: _ => some (node b ts.reverse)
      | [] => none

end Tree

end PropSurface
