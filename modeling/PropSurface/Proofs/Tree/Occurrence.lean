import Mathlib.Tactic.Common
import PropSurface.Tree.Cursor

/-!
# Subtrees

A subtree of a tree is the tree itself or a subtree of one of its children.

**Definitions.**
* `Tree.Occurs`, `Tree.Within`: the subtrees of a tree and of a forest.

**Results.**
* `Tree.exists_occurs_of_mem_preorder`: every label belongs to a subtree.
* `Tree.occurs_of_mem_cursors`: every node of a tree stands at a subtree.
-/

namespace PropSurface

universe u v

variable {α : Type u}

namespace Tree

/-- `Occurs t u`: the tree `t` is a subtree of `u`. -/
inductive Occurs (t : Tree α) : Tree α → Prop
  | here : Occurs t t
  | inside {u v : Tree α} (hv : v ∈ u.children) (h : Occurs t v) : Occurs t u

/-- `Within t us`: the tree `t` is a subtree of a tree of the forest `us`. -/
def Within (t : Tree α) (us : List (Tree α)) : Prop := ∃ u ∈ us, Occurs t u

/-- A subtree of a tree is the tree itself, or a subtree of a tree below it. -/
theorem occurs_iff {t u : Tree α} : Occurs t u ↔ t = u ∨ Within t u.children := by
  constructor
  · rintro (_ | ⟨hv, h⟩)
    · exact .inl rfl
    · exact .inr ⟨_, hv, h⟩
  · rintro (rfl | ⟨v, hv, h⟩)
    · exact .here
    · exact .inside hv h

@[simp] theorem not_within_nil (t : Tree α) : ¬ Within t [] := by
  simp [Within]

@[simp] theorem within_append {t : Tree α} {us vs : List (Tree α)} :
    Within t (us ++ vs) ↔ Within t us ∨ Within t vs := by
  simp only [Within, List.mem_append, or_and_right, exists_or]

@[simp] theorem within_cons {t : Tree α} {a : α} {below us : List (Tree α)} :
    Within t (node a below :: us) ↔ t = node a below ∨ Within t below ∨ Within t us := by
  have hcons : Within t (node a below :: us) ↔ Occurs t (node a below) ∨ Within t us := by
    simp only [Within, List.mem_cons, exists_eq_or_imp]
  rw [hcons, occurs_iff, or_assoc]
  rfl

theorem within_flatMap {β : Type v} {t : Tree α} {xs : List β} {f : β → List (Tree α)} :
    Within t (xs.flatMap f) ↔ ∃ x ∈ xs, Within t (f x) := by
  simp only [Within, List.mem_flatMap]
  constructor
  · rintro ⟨u, ⟨x, hx, hu⟩, h⟩
    exact ⟨x, hx, u, hu, h⟩
  · rintro ⟨x, hx, u, hu, h⟩
    exact ⟨u, ⟨x, hx, hu⟩, h⟩

mutual

/-- Every label of a tree is that of a subtree. -/
theorem exists_occurs_of_mem_preorder {a : α} :
    ∀ t : Tree α, a ∈ t.preorder → ∃ u, Occurs u t ∧ u.label = a
  | node b ts, h => by
      rcases List.mem_cons.mp h with rfl | h
      · exact ⟨_, .here, rfl⟩
      · obtain ⟨u, ⟨v, hv, hu⟩, hlabel⟩ := exists_within_of_mem_forestPreorder ts h
        exact ⟨u, .inside hv hu, hlabel⟩

/-- Every label of a forest is that of a subtree. -/
theorem exists_within_of_mem_forestPreorder {a : α} :
    ∀ ts : List (Tree α), a ∈ forestPreorder ts → ∃ u, Within u ts ∧ u.label = a
  | [], h => absurd h List.not_mem_nil
  | t :: ts, h => by
      rcases List.mem_append.mp h with h | h
      · obtain ⟨u, hu, hlabel⟩ := exists_occurs_of_mem_preorder t h
        exact ⟨u, ⟨t, List.mem_cons_self, hu⟩, hlabel⟩
      · obtain ⟨u, ⟨v, hv, hu⟩, hlabel⟩ := exists_within_of_mem_forestPreorder ts h
        exact ⟨u, ⟨v, List.mem_cons_of_mem _ hv, hu⟩, hlabel⟩

end

mutual

theorem occurs_of_mem_cursorsBelow {c : Cursor α} :
    ∀ (above : List (Frame α)) (t : Tree α), c ∈ cursorsBelow above t → Occurs c.focus t
  | above, node a ts, h => by
      rcases List.mem_cons.mp h with rfl | h
      · exact .here
      · obtain ⟨v, hv, hc⟩ := within_of_mem_forestCursors a above [] ts h
        exact .inside hv hc

theorem within_of_mem_forestCursors {c : Cursor α} (a : α) (above : List (Frame α)) :
    ∀ before ts : List (Tree α), c ∈ forestCursors a above before ts → Within c.focus ts
  | _, [], h => absurd h List.not_mem_nil
  | before, t :: ts, h => by
      rcases List.mem_append.mp h with h | h
      · exact ⟨t, List.mem_cons_self, occurs_of_mem_cursorsBelow _ t h⟩
      · obtain ⟨v, hv, hc⟩ := within_of_mem_forestCursors a above (t :: before) ts h
        exact ⟨v, List.mem_cons_of_mem _ hv, hc⟩

end

/-- A node of a tree stands at a subtree. -/
theorem occurs_of_mem_cursors {t : Tree α} {c : Cursor α} (h : c ∈ t.cursors) :
    Occurs c.focus t :=
  occurs_of_mem_cursorsBelow [] t h

end Tree
end PropSurface
