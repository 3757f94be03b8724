import Mathlib.Tactic.Common
import PropSurface.Tree.LevelOrder

/-!
# Nodes met in a tree

The list of the nodes of a tree is closed under going to a child.  So a walk that starts
at nodes of a tree yields nodes of that tree only, and whatever is found below a root is on
the list of all nodes.
-/

namespace PropSurface

universe u

variable {α : Type u}

namespace Tree

/-- The nodes right below a node come with all that stands below it. -/
theorem mem_forestCursors_of_mem_fan {a : α} {above : List (Frame α)} {c : Cursor α} :
    ∀ {before ts : List (Tree α)}, c ∈ Cursor.fan a above before ts →
      c ∈ forestCursors a above before ts
  | _, [], h => h
  | before, node b us :: ts, h => by
      rw [forestCursors, cursorsBelow, List.cons_append]
      rcases List.mem_cons.mp h with rfl | h
      · exact List.mem_cons_self
      · exact List.mem_cons_of_mem _
          (List.mem_append_right _ (mem_forestCursors_of_mem_fan h))

mutual

theorem mem_cursorsBelow_of_mem_children {c d : Cursor α} (hd : d ∈ c.children) :
    ∀ {above : List (Frame α)} {t : Tree α}, c ∈ cursorsBelow above t →
      d ∈ cursorsBelow above t
  | above, node a ts, hc => by
      rw [cursorsBelow] at hc ⊢
      apply List.mem_cons_of_mem
      rcases List.mem_cons.mp hc with rfl | hc
      · exact mem_forestCursors_of_mem_fan hd
      · exact mem_forestCursors_of_mem_children hd hc

theorem mem_forestCursors_of_mem_children {c d : Cursor α} (hd : d ∈ c.children) :
    ∀ {a : α} {above : List (Frame α)} {before ts : List (Tree α)},
      c ∈ forestCursors a above before ts → d ∈ forestCursors a above before ts
  | _, _, _, [], hc => absurd hc List.not_mem_nil
  | a, above, before, t :: ts, hc => by
      rw [forestCursors] at hc ⊢
      rcases List.mem_append.mp hc with hc | hc
      · exact List.mem_append_left _ (mem_cursorsBelow_of_mem_children hd hc)
      · exact List.mem_append_right _ (mem_forestCursors_of_mem_children hd hc)

end

/-- The nodes of a tree are closed under going to a child. -/
theorem mem_cursors_of_mem_children {t : Tree α} {c d : Cursor α} (hc : c ∈ t.cursors)
    (hd : d ∈ c.children) : d ∈ t.cursors :=
  mem_cursorsBelow_of_mem_children hd hc

theorem ofRoot_mem_cursors (t : Tree α) : Cursor.ofRoot t ∈ t.cursors := by
  cases t with
  | node a ts => exact List.mem_cons_self

end Tree

namespace Walk

/-- What a step opens are nodes of the same tree. -/
theorem mem_cursors_of_mem_opened {t : Tree α} {bound : Option Nat} {entry e : Cursor α × Nat}
    (hentry : entry.1 ∈ t.cursors) (he : e ∈ opened bound entry) : e.1 ∈ t.cursors := by
  unfold opened at he
  split_ifs at he
  · obtain ⟨c, hc, rfl⟩ := List.mem_map.mp he
    exact Tree.mem_cursors_of_mem_children hentry hc
  · cases he

/-- A walk whose waiting nodes are nodes of a tree yields nodes of that tree. -/
theorem mem_cursors_of_mem_take {t : Tree α} :
    ∀ (n : Nat) (w : Walk α), (∀ e ∈ w.queue.toList, e.1 ∈ t.cursors) →
      ∀ e ∈ (w.take n).1, e.1 ∈ t.cursors
  | 0, _, _, e, he => absurd he List.not_mem_nil
  | n + 1, w, hqueue, e, he => by
      cases hstep : w.step? with
      | none =>
          rw [take, hstep] at he
          cases he
      | some next =>
          obtain ⟨entry, w'⟩ := next
          obtain ⟨rest, hwaiting, hwaiting', _⟩ := queue_of_step? hstep
          have hentry : entry.1 ∈ t.cursors := by
            apply hqueue
            rw [hwaiting]
            exact List.mem_cons_self
          have hqueue' : ∀ f ∈ w'.queue.toList, f.1 ∈ t.cursors := by
            intro f hf
            rw [hwaiting'] at hf
            rcases List.mem_append.mp hf with hf | hf
            · apply hqueue
              rw [hwaiting]
              exact List.mem_cons_of_mem _ hf
            · exact mem_cursors_of_mem_opened hentry hf
          rw [take, hstep] at he
          rcases List.mem_cons.mp he with rfl | he
          · exact hentry
          · exact mem_cursors_of_mem_take n w' hqueue' e he

end Walk

/-- What stands below a node of a tree are nodes of that tree. -/
theorem Cursor.mem_cursors_of_mem_descendants {t : Tree α} {c : Cursor α} (hc : c ∈ t.cursors)
    {bound : Option Nat} {e : Cursor α × Nat} (he : e ∈ c.descendants bound) :
    e.1 ∈ t.cursors := by
  refine Walk.mem_cursors_of_mem_take _ _ ?_ e he
  intro f hf
  rw [Walk.rebound, Queue.toList_filter, Walk.below, Queue.toList_ofList] at hf
  obtain ⟨d, hd, rfl⟩ := List.mem_map.mp (List.mem_filter.mp hf).1
  exact Tree.mem_cursors_of_mem_children hc hd

end PropSurface
