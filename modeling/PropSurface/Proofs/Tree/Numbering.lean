import Mathlib.Data.List.Nodup
import PropSurface.Tree.Cursor

/-!
# Numbers of nodes

The number of a node is the number of nodes before it in preorder.  The numbers at and below a
node stay in the range from its own up to `Cursor.stop`, and the ranges of siblings follow one
another.

**Definitions.**
* `Cursor.stop`: the first number after a subtree.
* `Cursor.Apart`: a subtree that ends before another one begins.

**Results.**
* `Cursor.bounds_of_mem_children`, `Cursor.pairwise_children`: how the numbers of children lie.
* `Cursor.children_eq_append`: a node stands between its siblings in the children of its parent.
* `Cursor.next?_eq_some_iff`: the next sibling, by the children of the parent.
* `Tree.cursor?_eq_some_iff`: a node is found by its number.
-/

namespace PropSurface

universe u

variable {α : Type u}

namespace Cursor

/-- The first number after the nodes at and below this one. -/
def stop (c : Cursor α) : Nat := c.index + c.focus.size

/-- The subtree of `c` ends before `d`. -/
def Apart (c d : Cursor α) : Prop := c.stop ≤ d.index

theorem index_lt_stop (c : Cursor α) : c.index < c.stop := by
  have hsize := c.focus.size_pos
  unfold stop
  omega

theorem Apart.index_lt {c d : Cursor α} (h : Apart c d) : c.index < d.index :=
  Nat.lt_of_lt_of_le c.index_lt_stop h

/-! ### Siblings -/

theorem exists_fan_append (a : α) (above : List (Frame α)) (before ts us : List (Tree α)) :
    ∃ first, fan a above before (ts ++ us) =
      first ++ fan a above (ts.reverse ++ before) us := by
  induction ts generalizing before with
  | nil => exact ⟨[], rfl⟩
  | cons t ts ih =>
      obtain ⟨first, hfirst⟩ := ih (t :: before)
      refine ⟨⟨t, ⟨before, a, ts ++ us⟩ :: above⟩ :: first, ?_⟩
      rw [List.cons_append, fan, hfirst, List.reverse_cons, List.append_assoc]
      rfl

theorem bounds_of_mem_fan {a : α} {above : List (Frame α)} {c : Cursor α} :
    ∀ {before ts : List (Tree α)}, c ∈ fan a above before ts →
      Tree.forestSize before + 1 + offset above ≤ c.index ∧
        c.stop ≤ Tree.forestSize before + 1 + offset above + Tree.forestSize ts
  | _, [], h => absurd h List.not_mem_nil
  | before, t :: ts, h => by
      rcases List.mem_cons.mp h with rfl | h
      · simp only [stop, index, offset, Tree.forestSize]
        omega
      · have hbounds := bounds_of_mem_fan h
        simp only [Tree.forestSize] at hbounds ⊢
        omega

theorem pairwise_fan (a : α) (above : List (Frame α)) (before ts : List (Tree α)) :
    (fan a above before ts).Pairwise Apart := by
  induction ts generalizing before with
  | nil => exact List.Pairwise.nil
  | cons t ts ih =>
      refine List.Pairwise.cons ?_ (ih (t :: before))
      intro d hd
      have hbounds := (bounds_of_mem_fan hd).1
      simp only [Tree.forestSize] at hbounds
      simp only [Apart, stop, index, offset] at hbounds ⊢
      omega

/-- The numbers below a node come after its own and stay in the range of its subtree. -/
theorem bounds_of_mem_children {c d : Cursor α} (h : d ∈ c.children) :
    c.index < d.index ∧ d.stop ≤ c.stop := by
  rcases c with ⟨⟨a, ts⟩, above⟩
  have hbounds := bounds_of_mem_fan h
  simp only [Tree.forestSize, Tree.children_node] at hbounds
  simp only [stop, index, Tree.size] at hbounds ⊢
  omega

theorem pairwise_children (c : Cursor α) : c.children.Pairwise Apart :=
  pairwise_fan _ _ _ _

theorem nodup_children (c : Cursor α) : c.children.Nodup := by
  refine c.pairwise_children.imp ?_
  rintro d _ hapart rfl
  exact Nat.lt_irrefl _ hapart.index_lt

/-- The children of the parent: the siblings before a node, the node, and those after it. -/
theorem children_eq_append {c p : Cursor α} (h : c.parent? = some p) :
    ∃ before, p.children = before ++ c :: c.following := by
  rcases c with ⟨t, _ | ⟨f, fs⟩⟩
  · cases h
  · cases h
    obtain ⟨before, hfan⟩ := exists_fan_append f.label fs [] f.before.reverse (t :: f.after)
    rw [List.reverse_reverse, List.append_nil] at hfan
    exact ⟨before, hfan⟩

/-- A node is a child of its parent, and of no other node. -/
theorem parent?_eq_some_iff {c p : Cursor α} : c.parent? = some p ↔ c ∈ p.children := by
  refine ⟨fun h => ?_, parent?_eq_some_of_mem_children⟩
  obtain ⟨before, hchildren⟩ := children_eq_append h
  rw [hchildren]
  exact List.mem_append_right _ List.mem_cons_self

/-- The next sibling is the node right after this one in the children of some node. -/
theorem next?_eq_some_iff {c d : Cursor α} :
    c.next? = some d ↔
      ∃ (p : Cursor α) (before after : List (Cursor α)),
        p.children = before ++ c :: d :: after := by
  constructor
  · intro h
    obtain ⟨after, hafter⟩ := List.head?_eq_some_iff.mp h
    cases hparent : c.parent? with
    | none =>
        rcases c with ⟨t, _ | ⟨f, fs⟩⟩
        · cases hafter
        · cases hparent
    | some p =>
        obtain ⟨before, hchildren⟩ := children_eq_append hparent
        exact ⟨p, before, after, by rw [hchildren, hafter]⟩
  · rintro ⟨p, before, after, hchildren⟩
    have hmem : c ∈ p.children := by
      rw [hchildren]
      exact List.mem_append_right _ List.mem_cons_self
    obtain ⟨before', hchildren'⟩ := children_eq_append (parent?_eq_some_iff.mpr hmem)
    -- No child occurs twice, so both ways to cut the children at `c` are the same.
    have hnodup := p.nodup_children
    rw [hchildren', List.nodup_middle, List.nodup_cons, List.mem_append, not_or] at hnodup
    rw [hchildren', List.append_cons_inj_of_notMem hnodup.1.1 hnodup.1.2] at hchildren
    rw [next?, hchildren.2.2]
    rfl

end Cursor

namespace Tree

open Cursor

/-! ### Looking nodes up by number -/

/-- The number after a tree, when the tree stands after those of `before`. -/
theorem forestSize_cons_add (t : Tree α) (before : List (Tree α)) (above : List (Frame α)) :
    forestSize (t :: before) + 1 + offset above =
      forestSize before + 1 + offset above + t.size := by
  simp only [forestSize]
  omega

mutual

/-- The nodes of a subtree have the numbers from that of its root on, in order. -/
theorem map_index_cursorsBelow (above : List (Frame α)) :
    ∀ t : Tree α, (cursorsBelow above t).map index = List.range' (offset above) t.size
  | node a ts => by
      have hforest := map_index_forestCursors a above [] ts
      rw [cursorsBelow, List.map_cons, hforest, size, List.range'_succ]
      simp [index, forestSize, Nat.add_comm]

theorem map_index_forestCursors (a : α) (above : List (Frame α)) :
    ∀ before ts : List (Tree α), (forestCursors a above before ts).map index =
      List.range' (forestSize before + 1 + offset above) (forestSize ts)
  | _, [] => rfl
  | before, t :: ts => by
      have htree := map_index_cursorsBelow (⟨before, a, ts⟩ :: above) t
      have hforest := map_index_forestCursors a above (t :: before) ts
      rw [forestCursors, List.map_append, htree, hforest, forestSize_cons_add, forestSize,
        ← List.range'_append_1]
      rfl

end

theorem map_index_cursors (t : Tree α) : t.cursors.map index = List.range t.size := by
  rw [cursors, map_index_cursorsBelow, List.range_eq_range']
  rfl

theorem index_of_cursor? {t : Tree α} {i : Nat} {c : Cursor α} (h : t.cursor? i = some c) :
    c.index = i := by
  have hmap : (t.cursors.map index)[i]? = some c.index := by
    rw [List.getElem?_map, show t.cursors[i]? = some c from h, Option.map_some]
  rw [map_index_cursors] at hmap
  obtain ⟨hi, hindex⟩ := List.getElem?_eq_some_iff.mp hmap
  rw [← hindex, List.getElem_range]

/-- A node of a tree is found by its number, and at no other. -/
theorem cursor?_eq_some_iff {t : Tree α} {i : Nat} {c : Cursor α} :
    t.cursor? i = some c ↔ c ∈ t.cursors ∧ c.index = i := by
  constructor
  · intro h
    exact ⟨List.mem_of_getElem? h, index_of_cursor? h⟩
  · rintro ⟨hc, rfl⟩
    obtain ⟨j, hj⟩ := List.mem_iff_getElem?.mp hc
    rw [index_of_cursor? hj]
    exact hj

end Tree
end PropSurface
