import PropSurface.Tree

/-!
# Cursors

A cursor is a node of a tree together with its surroundings: the subtree at the
node, and one frame for every step up to the root.  Two cursors of the same tree
are equal exactly when they stand at the same place, so a cursor is the identity
of a node.

**Moves.**
* `children`, `parent?`, `ancestors`: one level down, one level up, all the way up.
* `following`, `next?`: the later siblings, nearest first, and the first of them.

**Numbers.**
* `depth`: the number of steps up to the root.
* `index`: the number of nodes before this one in preorder.  `Tree.cursors` lists
  the nodes in that order, so the cursor of index `i` is entry `i` of the list.
-/

namespace PropSurface

universe u

variable {α : Type u}

/-- One step up: the parent's label and the siblings on both sides, those before
listed nearest first. -/
structure Frame (α : Type u) where
  before : List (Tree α)
  label : α
  after : List (Tree α)

/-- The parent's subtree, with `t` put in the open place. -/
def Frame.plug (f : Frame α) (t : Tree α) : Tree α :=
  .node f.label (f.before.reverse ++ t :: f.after)

/-- A node in its tree: the subtree there, and the frames up to the root, innermost
first. -/
structure Cursor (α : Type u) where
  focus : Tree α
  above : List (Frame α)

namespace Cursor

/-- The cursor at the root of a tree. -/
def ofRoot (t : Tree α) : Cursor α := ⟨t, []⟩

def label (c : Cursor α) : α := c.focus.label

/-- Cursors at the trees `ts` that stand, after the trees `before`, below a node
labelled `a`. -/
def fan (a : α) (above : List (Frame α)) :
    List (Tree α) → List (Tree α) → List (Cursor α)
  | _, [] => []
  | before, t :: ts => ⟨t, ⟨before, a, ts⟩ :: above⟩ :: fan a above (t :: before) ts

@[simp] theorem map_focus_fan (a : α) (above : List (Frame α)) (before ts : List (Tree α)) :
    (fan a above before ts).map focus = ts := by
  induction ts generalizing before with
  | nil => rfl
  | cons t ts ih => simp [fan, ih]

/-- A cursor of a fan has one frame more than the node above it, and plugging it back
gives that node. -/
theorem exists_frame_of_mem_fan {a : α} {above : List (Frame α)}
    {before ts : List (Tree α)} {c : Cursor α} (h : c ∈ fan a above before ts) :
    ∃ f : Frame α, c.above = f :: above ∧
      f.plug c.focus = .node a (before.reverse ++ ts) := by
  induction ts generalizing before with
  | nil => cases h
  | cons t ts ih =>
      rcases List.mem_cons.mp h with rfl | h
      · exact ⟨⟨before, a, ts⟩, rfl, rfl⟩
      · obtain ⟨f, habove, hplug⟩ := ih h
        exact ⟨f, habove, by simp [hplug]⟩

/-- The children, left to right. -/
def children (c : Cursor α) : List (Cursor α) :=
  fan c.focus.label c.above [] c.focus.children

@[simp] theorem map_focus_children (c : Cursor α) :
    c.children.map focus = c.focus.children := map_focus_fan ..

/-- The siblings after this node, nearest first. -/
def following (c : Cursor α) : List (Cursor α) :=
  match c.above with
  | [] => []
  | f :: fs => fan f.label fs (c.focus :: f.before) f.after

/-- The sibling right after this node. -/
def next? (c : Cursor α) : Option (Cursor α) := c.following.head?

/-- The parent; the root has none. -/
def parent? (c : Cursor α) : Option (Cursor α) :=
  match c.above with
  | [] => none
  | f :: fs => some ⟨f.plug c.focus, fs⟩

/-- A node is the parent of its children. -/
theorem parent?_eq_some_of_mem_children {c d : Cursor α} (h : d ∈ c.children) :
    d.parent? = some c := by
  obtain ⟨f, habove, hplug⟩ := exists_frame_of_mem_fan h
  rcases c with ⟨⟨a, ts⟩, above⟩
  simp only [parent?, habove]
  exact congrArg (fun t => some (Cursor.mk t above)) (by simpa using hplug)

/-- Strict ancestors of the subtree `t` under the given frames, nearest first. -/
def climb (t : Tree α) : List (Frame α) → List (Cursor α)
  | [] => []
  | f :: fs => ⟨f.plug t, fs⟩ :: climb (f.plug t) fs

/-- The strict ancestors, nearest first. -/
def ancestors (c : Cursor α) : List (Cursor α) := climb c.focus c.above

/-- Number of steps up to the root. -/
def depth (c : Cursor α) : Nat := c.above.length

/-- Children stand one step deeper. -/
theorem depth_of_mem_children {c d : Cursor α} (h : d ∈ c.children) :
    d.depth = c.depth + 1 := by
  obtain ⟨f, habove, _⟩ := exists_frame_of_mem_fan h
  simp [depth, habove]

/-- Number of nodes that precede the open place of these frames in preorder. -/
def offset : List (Frame α) → Nat
  | [] => 0
  | f :: fs => Tree.forestSize f.before + 1 + offset fs

/-- Position of the node in preorder, counted from 0 at the root. -/
def index (c : Cursor α) : Nat := offset c.above

end Cursor

namespace Tree

mutual

/-- All nodes of the subtree, in preorder. -/
def cursorsBelow (above : List (Frame α)) : Tree α → List (Cursor α)
  | node a ts => ⟨node a ts, above⟩ :: forestCursors a above [] ts

/-- All nodes of the children that stand after the trees `before`, in preorder. -/
def forestCursors (a : α) (above : List (Frame α)) :
    List (Tree α) → List (Tree α) → List (Cursor α)
  | _, [] => []
  | before, t :: ts =>
      cursorsBelow (⟨before, a, ts⟩ :: above) t ++ forestCursors a above (t :: before) ts

end

mutual

theorem length_cursorsBelow (above : List (Frame α)) :
    ∀ t : Tree α, (cursorsBelow above t).length = t.size
  | node a ts => by simp [cursorsBelow, size, length_forestCursors a above [] ts]

theorem length_forestCursors (a : α) (above : List (Frame α)) :
    ∀ before ts : List (Tree α),
      (forestCursors a above before ts).length = forestSize ts
  | _, [] => rfl
  | before, t :: ts => by
      simp [forestCursors, forestSize, length_cursorsBelow _ t,
        length_forestCursors a above (t :: before) ts]

end

/-- All nodes of the tree, in preorder. -/
def cursors (t : Tree α) : List (Cursor α) := cursorsBelow [] t

/-- There is one cursor per node. -/
@[simp] theorem length_cursors (t : Tree α) : t.cursors.length = t.size :=
  length_cursorsBelow [] t

/-- The node with the given preorder position. -/
def cursor? (t : Tree α) (i : Nat) : Option (Cursor α) := t.cursors[i]?

end Tree

end PropSurface
