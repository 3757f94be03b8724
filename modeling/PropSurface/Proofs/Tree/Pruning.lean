import PropSurface.Proofs.Tree.Descendants

/-!
# Pruned traversals

A traversal goes level by level and leaves out what is below a node at which it skips.  It visits
what a walk yields, less the nodes that have a node to skip above them.

**Definitions.**
* `Cursor.visible`: no node between a node and the start is skipped.

**Results.**
* `Cursor.visible_iff`: the same, by the nodes above.
* `Cursor.sweep_eq_filter`: pruning level by level is the same as leaving nodes out afterwards.
* `Cursor.traverse_eq_filter`: what a traversal visits.
-/

namespace PropSurface

universe u

variable {α : Type u} {skip : Cursor α → Nat → Bool} {bound : Option Nat}

namespace Cursor

/-- Whether none of the `k` nodes right above a node is skipped.  The highest of them is the start
of the traversal, at depth 0. -/
def visible (skip : Cursor α → Nat → Bool) : Nat → Cursor α → Bool
  | 0, _ => true
  | k + 1, d => d.parent?.all fun p => !skip p k && visible skip k p

theorem visible_of_mem_children {p d : Cursor α} (h : d ∈ p.children) (k : Nat) :
    visible skip (k + 1) d = (!skip p k && visible skip k p) := by
  rw [visible, parent?_eq_some_iff.mpr h, Option.all_some]

/-- A node stands below its parent and below all that its parent stands below. -/
theorem transGen_iff_of_parent? {a d p : Cursor α} (h : d.parent? = some p) :
    Relation.TransGen (fun c d => d ∈ c.children) a d ↔
      a = p ∨ Relation.TransGen (fun c d => d ∈ c.children) a p := by
  rw [Relation.TransGen.tail'_iff, ← eq_comm (a := p),
    ← Relation.reflTransGen_iff_eq_or_transGen]
  constructor
  · rintro ⟨b, hreach, hd⟩
    rw [← parent?_eq_some_iff, h, Option.some.injEq] at hd
    rwa [hd]
  · exact fun hreach => ⟨p, hreach, parent?_eq_some_iff.mp h⟩

/-- A node is visible from the start if no strict ancestor of it, at the start or below, is
skipped. -/
theorem visible_iff {c d : Cursor α} {k : Nat} (h : d.up k = some c) :
    visible skip k d = true ↔
      ∀ a j, a.up j = some c → Relation.TransGen (fun c d => d ∈ c.children) a d →
        skip a j = false := by
  induction k generalizing d with
  | zero =>
      obtain rfl : d = c := Option.some.inj h
      refine iff_of_true rfl fun a j hstart hbelow => ?_
      -- The start has no ancestor at the start or below.
      obtain ⟨i, hi, hup⟩ := exists_up_iff.mpr hbelow
      have hdepth := depth_of_up hstart
      have hdepth' := depth_of_up hup
      omega
  | succ k ih =>
      obtain ⟨p, hparent, hup⟩ := Option.bind_eq_some_iff.mp h
      rw [visible_of_mem_children (parent?_eq_some_iff.mp hparent), Bool.and_eq_true, ih hup,
        Bool.not_eq_true']
      constructor
      · rintro ⟨hskip, hvisible⟩ a j hstart hbelow
        rcases (transGen_iff_of_parent? hparent).mp hbelow with rfl | hbelow
        · have hdepth := depth_of_up hup
          have hdepth' := depth_of_up hstart
          obtain rfl : j = k := by omega
          exact hskip
        · exact hvisible a j hstart hbelow
      · intro hvisible
        have habove {a : Cursor α} := (transGen_iff_of_parent? (a := a) hparent).mpr
        exact ⟨hvisible p k hup (habove (.inl rfl)),
          fun a j hstart hbelow => hvisible a j hstart (habove (.inr hbelow))⟩

/-! ### Level by level -/

/-- The visible nodes of the next level are the children of the visible nodes that are not
skipped. -/
theorem filter_visible_flatMap (k : Nat) (cs : List (Cursor α)) :
    (cs.flatMap children).filter (visible skip (k + 1)) =
      ((cs.filter (visible skip k)).filter fun c => !skip c k).flatMap children := by
  induction cs with
  | nil => rfl
  | cons c cs ih =>
      have hchildren : c.children.filter (visible skip (k + 1)) =
          if !skip c k && visible skip k c then c.children else [] := by
        rw [List.filter_congr fun d hd => visible_of_mem_children hd k]
        split
        · exact List.filter_eq_self.mpr fun _ _ => ‹_›
        · exact List.filter_eq_nil_iff.mpr fun _ _ => ‹_›
      rw [List.flatMap_cons, List.filter_append, hchildren, ih]
      cases hvisible : visible skip k c <;> cases hskip : skip c k <;> simp [hvisible, hskip]

theorem levelsFrom_succ (c : Cursor α) (d n : Nat) :
    c.levelsFrom bound d (n + 1) =
      (if withinBound bound d then (c.level d).map (·, d) else []) ++
        c.levelsFrom bound (d + 1) n := by
  rw [levelsFrom, List.range'_succ, List.filter_cons]
  split
  · rw [List.flatMap_cons]
    rfl
  · rfl

theorem levelsFrom_eq_nil {c : Cursor α} {d : Nat} (h : ¬ withinBound bound d = true) (n : Nat) :
    c.levelsFrom bound d n = [] := by
  rw [levelsFrom, List.filter_eq_nil_iff.mpr, List.flatMap_nil]
  intro k hk hbound
  exact h (withinBound_of_le (List.mem_range'_1.mp hk).1 hbound)

/-- Level 0 is the start, and there is no level after the last one below it. -/
theorem levelsFrom_zero (c : Cursor α) (bound : Option Nat) :
    c.levelsFrom bound 0 c.focus.size = (c, 0) :: c.descendants bound := by
  obtain ⟨n, hn⟩ := Nat.exists_eq_succ_of_ne_zero (Nat.ne_of_gt c.focus.size_pos)
  have hfirst : withinBound bound 0 = true := by cases bound <;> simp [withinBound]
  have hlast : c.level (1 + n) = [] := level_eq_nil (by omega)
  have hend : c.levelsFrom bound 1 (n + 1) = c.levelsFrom bound 1 n := by
    rw [levelsFrom, List.range'_1_concat, List.filter_append, List.flatMap_append, levelsFrom]
    refine List.append_right_eq_self.mpr (List.flatMap_eq_nil_iff.mpr fun k hk => ?_)
    rw [List.mem_singleton.mp (List.mem_filter.mp hk).1, hlast, List.map_nil]
  rw [descendants_eq_levelsFrom, hn, levelsFrom_succ, if_pos hfirst, hend]
  rfl

theorem sweep_nil (n d : Nat) : sweep skip bound n d ([] : List (Cursor α)) = [] := by
  cases n <;> rfl

/-- An empty frontier needs no case of its own. -/
theorem sweep_succ (n d : Nat) (frontier : List (Cursor α)) :
    sweep skip bound (n + 1) d frontier =
      if withinBound bound d then
        frontier.map (·, d) ++
          sweep skip bound n (d + 1) ((frontier.filter fun c => !skip c d).flatMap children)
      else [] := by
  cases frontier with
  | nil => simp [sweep, sweep_nil]
  | cons c cs => cases hbound : withinBound bound d <;> simp [sweep, hbound]

/-- From the visible nodes of level `d` on, a sweep visits the visible nodes of all levels that
the bound admits. -/
theorem sweep_eq_filter (skip : Cursor α → Nat → Bool) (bound : Option Nat) (c : Cursor α)
    (n d : Nat) :
    sweep skip bound n d ((c.level d).filter (visible skip d)) =
      (c.levelsFrom bound d n).filter fun e => visible skip e.2 e.1 := by
  induction n generalizing d with
  | zero => rfl
  | succ n ih =>
      rw [sweep_succ]
      split
      · rename_i hbound
        rw [← filter_visible_flatMap, ← level, ih, levelsFrom_succ, if_pos hbound,
          List.filter_append, List.filter_map]
        rfl
      · rename_i hbound
        rw [levelsFrom_eq_nil hbound, List.filter_nil]

/-- A traversal visits its start, and then what a walk with the same bound yields, in the same
order, but for the nodes that have a strict ancestor, at the start or below it, at which it
skips. -/
theorem traverse_eq_filter (c : Cursor α) (skip : Cursor α → Nat → Bool) (bound : Option Nat) :
    c.traverse skip bound =
        (c, 0) :: (c.descendants bound).filter (fun e => visible skip e.2 e.1) ∧
      ∀ e ∈ c.descendants bound, visible skip e.2 e.1 = true ↔
        ¬ ∃ a j, a.up j = some c ∧ Relation.TransGen (fun c d => d ∈ c.children) a e.1 ∧
          skip a j = true := by
  constructor
  · have hsweep := sweep_eq_filter skip bound c c.focus.size 0
    rw [levelsFrom_zero, List.filter_cons_of_pos (by rfl)] at hsweep
    exact hsweep
  · intro e he
    rw [descendants_eq_filter] at he
    rw [visible_iff (mem_descendants_iff_up.mp (List.mem_filter.mp he).1).2]
    simp only [not_exists, not_and, Bool.not_eq_true]

end Cursor
end PropSurface
