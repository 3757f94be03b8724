import PropSurface.Proofs.Tree.Closure
import PropSurface.Proofs.Tree.Levels

/-!
# The exact list of descendants

A walk below a node ends, and what it yields is known entry by entry: the nodes from which parent
links lead up to the start, each with the number of these links, by depth and then by number.

**Definitions.**
* `Cursor.up`: the node a number of parent links above a node.
* `Walk.Ahead`: the order of entries by depth, and then by number.
* `Tighter`: a bound that admits no more than another one.

**Results.**
* `Cursor.mem_level_iff`: levels in terms of parent links.
* `Walk.step?_after_drain`: a walk ends.
* `Walk.drain_rebound`: a tighter bound leaves out the entries that it does not admit, and no
  others.
* `Cursor.descendants_exact`: the list of descendants, with a bound and without.
-/

namespace PropSurface

universe u

variable {α : Type u}

namespace Cursor

/-! ### Parent links -/

/-- The node that is reached by following `k` parent links. -/
def up : Nat → Cursor α → Option (Cursor α)
  | 0, c => some c
  | k + 1, c => c.parent?.bind (up k)

/-- The nodes of level `k` are those from which `k` parent links lead up to the start. -/
theorem mem_level_iff {c d : Cursor α} {k : Nat} : d ∈ c.level k ↔ d.up k = some c := by
  induction k generalizing d with
  | zero => simp [level, up]
  | succ k ih =>
      simp only [level, List.mem_flatMap, up, Option.bind_eq_some_iff, parent?_eq_some_iff, ih]
      exact exists_congr fun e => and_comm

theorem depth_of_up {c d : Cursor α} {k : Nat} (h : d.up k = some c) : d.depth = c.depth + k :=
  depth_of_mem_level (mem_level_iff.mpr h)

end Cursor

namespace Walk

/-! ### The end of a walk -/

/-- A walk whose next node is known takes a step to it. -/
theorem exists_step?_of_queue {w : Walk α} {entry : Cursor α × Nat}
    {rest : List (Cursor α × Nat)} (h : w.queue.toList = entry :: rest) :
    ∃ w', w.step? = some (entry, w') ∧ w'.queue.toList = rest ++ opened w.bound entry ∧
      w'.bound = w.bound := by
  cases hstep : w.step? with
  | none =>
      rw [step?_eq_none_iff.mp hstep] at h
      cases h
  | some next =>
      obtain ⟨rest', hqueue, hqueue', hbound⟩ := queue_of_step? hstep
      obtain ⟨rfl, rfl⟩ := List.cons.inj (hqueue.symm.trans h)
      exact ⟨next.2, rfl, hqueue', hbound⟩

theorem step?_after_take {w : Walk α} {n : Nat} (hn : w.remaining ≤ n) :
    (w.take n).2.step? = none := by
  induction n generalizing w with
  | zero =>
      cases hstep : w.step? with
      | none => exact hstep
      | some next =>
          have hless := remaining_lt_of_step? hstep
          omega
  | succ n ih =>
      cases hstep : w.step? with
      | none => simp only [take, hstep]
      | some next =>
          have hless := remaining_lt_of_step? hstep
          simpa only [take, hstep] using ih (w := next.2) (by omega)

/-- After all that it yields, a walk has come to its end. -/
theorem step?_after_drain (w : Walk α) :
    ∃ n w', w.take n = (w.drain, w') ∧ w'.step? = none :=
  ⟨w.remaining, (w.take w.remaining).2, rfl, step?_after_take (Nat.le_refl _)⟩

/-- What a number of steps yield is the beginning of what the whole walk yields. -/
theorem take_eq_take_drain (n : Nat) (w : Walk α) : (w.take n).1 = w.drain.take n := by
  induction n generalizing w with
  | zero => simp [take]
  | succ n ih =>
      cases hstep : w.step? with
      | none => simp [take, hstep, drain_of_empty (step?_eq_none_iff.mp hstep)]
      | some next => simp [take, hstep, drain_of_step? hstep, ih]

/-- What a walk yields depends on the nodes that wait and on the bound only. -/
theorem drain_congr {w v : Walk α} (hqueue : w.queue.toList = v.queue.toList)
    (hbound : w.bound = v.bound) : w.drain = v.drain := by
  have htake : ∀ (n : Nat) (w v : Walk α), w.queue.toList = v.queue.toList →
      w.bound = v.bound → (w.take n).1 = (v.take n).1 := by
    intro n
    induction n with
    | zero => exact fun _ _ _ _ => rfl
    | succ n ih =>
        intro w v hqueue hbound
        cases hstep : w.step? with
        | none =>
            have hempty := step?_eq_none_iff.mp hstep
            simp [take, hstep, step?_eq_none_iff.mpr (hqueue ▸ hempty)]
        | some next =>
            obtain ⟨rest, hwaiting, hwaiting', hkept⟩ := queue_of_step? hstep
            obtain ⟨v', hstep', hqueue', hbound'⟩ :=
              exists_step?_of_queue (hqueue.symm.trans hwaiting)
            have hrest := ih next.2 v' (by rw [hwaiting', hqueue', hbound])
              (by rw [hkept, hbound', hbound])
            simp [take, hstep, hstep', hrest]
  have hremaining : w.remaining = v.remaining := by rw [remaining, remaining, hqueue]
  rw [drain, drain, hremaining]
  exact htake _ w v hqueue hbound

end Walk

/-! ### Bounds -/

/-- Every depth that the first bound admits is admitted by the second one. -/
def Tighter (bound bound' : Option Nat) : Prop :=
  ∀ d, withinBound bound d = true → withinBound bound' d = true

theorem tighter_none (bound : Option Nat) : Tighter bound none := fun _ _ => rfl

namespace Walk

/-- What a step opens under a tighter bound is what it opens, less what is too deep. -/
theorem filter_opened {bound bound' : Option Nat} (h : Tighter bound bound')
    (entry : Cursor α × Nat) :
    (opened bound' entry).filter (fun e => withinBound bound e.2) = opened bound entry := by
  by_cases hdeeper : withinBound bound (entry.2 + 1) = true
  · simp [opened, hdeeper, h _ hdeeper, List.filter_map, Function.comp_def]
  · rw [opened, opened, if_neg hdeeper, List.filter_eq_nil_iff]
    intro e he
    split at he
    · obtain ⟨c, _, rfl⟩ := List.mem_map.mp he
      exact hdeeper
    · cases he

/-- Under a tighter bound, a walk yields what it would have yielded, less what is too deep. -/
theorem drain_rebound {bound : Option Nat} (w : Walk α) (h : Tighter bound w.bound) :
    (w.rebound bound).drain = w.drain.filter (fun e => withinBound bound e.2) := by
  -- By induction on the number of nodes at and under the queue, which every step makes smaller.
  induction hn : w.remaining using Nat.strongRecOn generalizing w with
  | ind n ih =>
      have hfiltered : (w.rebound bound).queue.toList =
          w.queue.toList.filter (fun e => withinBound bound e.2) := Queue.toList_filter _ _
      cases hstep : w.step? with
      | none =>
          have hempty := step?_eq_none_iff.mp hstep
          rw [drain_of_empty hempty, drain_of_empty (by rw [hfiltered, hempty, List.filter_nil]),
            List.filter_nil]
      | some next =>
          obtain ⟨entry, w'⟩ := next
          obtain ⟨rest, hqueue, hqueue', hbound⟩ := queue_of_step? hstep
          have hless := remaining_lt_of_step? hstep
          have hrest := ih w'.remaining (hn ▸ hless) w' (hbound ▸ h) rfl
          have hfiltered' : (w'.rebound bound).queue.toList =
              rest.filter (fun e => withinBound bound e.2) ++ opened bound entry := by
            rw [rebound, Queue.toList_filter, hqueue', List.filter_append, filter_opened h]
          rw [drain_of_step? hstep]
          by_cases hentry : withinBound bound entry.2 = true
          · have hkept : (w.rebound bound).queue.toList =
                entry :: rest.filter (fun e => withinBound bound e.2) := by
              rw [hfiltered, hqueue, List.filter_cons, if_pos hentry]
            obtain ⟨v, hv, hvqueue, hvbound⟩ := exists_step?_of_queue hkept
            rw [drain_of_step? hv, drain_congr (hvqueue.trans hfiltered'.symm) hvbound, hrest,
              List.filter_cons, if_pos hentry]
          · have hnone : opened bound entry = [] :=
              if_neg fun hdeeper => hentry (withinBound_of_le (Nat.le_succ _) hdeeper)
            have hdropped : (w.rebound bound).queue.toList = (w'.rebound bound).queue.toList := by
              rw [hfiltered, hfiltered', hqueue, hnone, List.append_nil, List.filter_cons,
                if_neg hentry]
            rw [drain_congr hdropped rfl, hrest, List.filter_cons, if_neg hentry]

/-- Taking the bound away from a walk that has none changes nothing. -/
theorem rebound_below (c : Cursor α) : (below c).rebound none = below c := by
  simp [rebound, below, Queue.ofList, Queue.filter, withinBound]

/-! ### The order of entries -/

/-- The entry of smaller depth comes first, and of two of one depth the one of smaller number. -/
def Ahead (e f : Cursor α × Nat) : Prop :=
  e.2 < f.2 ∨ e.2 = f.2 ∧ e.1.index < f.1.index

theorem Ahead.depth_le {e f : Cursor α × Nat} (h : Ahead e f) : e.2 ≤ f.2 := by
  rcases h with h | ⟨h, _⟩ <;> omega

/-- Entries that follow one another in this order are of different nodes, if their depths are
right. -/
theorem nodup_of_pairwise_ahead {c : Cursor α} {es : List (Cursor α × Nat)}
    (hplaced : ∀ e ∈ es, e.1.up e.2 = some c) (h : es.Pairwise Ahead) :
    (es.map (·.1)).Nodup := by
  refine List.pairwise_map.mpr (h.imp_of_mem ?_)
  intro e f he hf hahead hsame
  have hdepth := Cursor.depth_of_up (hplaced e he)
  have hdepth' := Cursor.depth_of_up (hplaced f hf)
  rw [← hsame] at hdepth'
  rcases hahead with hless | ⟨_, hless⟩
  · omega
  · rw [hsame] at hless
    exact Nat.lt_irrefl _ hless

end Walk

namespace Cursor

open Walk

theorem drain_below (c : Cursor α) : (below c).drain = c.descendants none := by
  rw [descendants, rebound_below]

theorem descendants_eq_filter (c : Cursor α) (bound : Option Nat) :
    c.descendants bound =
      (c.descendants none).filter (fun e => withinBound bound e.2) := by
  rw [← drain_below]
  exact drain_rebound (below c) (tighter_none bound)

theorem mem_descendants_iff_up {c : Cursor α} {e : Cursor α × Nat} :
    e ∈ c.descendants none ↔ 1 ≤ e.2 ∧ e.1.up e.2 = some c := by
  rw [mem_descendants_iff, mem_level_iff]
  exact and_congr_right fun _ => and_iff_right rfl

/-- A node is below another one if and only if the links from it lead up there. -/
theorem exists_up_iff {c d : Cursor α} :
    (∃ k, 1 ≤ k ∧ d.up k = some c) ↔ Relation.TransGen (fun c d => d ∈ c.children) c d := by
  rw [← exists_mem_descendants_iff_transGen]
  exact exists_congr fun k => (mem_descendants_iff_up (e := (d, k))).symm

theorem pairwise_ahead_descendants (c : Cursor α) : (c.descendants none).Pairwise Ahead := by
  refine (List.pairwise_map.mp (c.pairwise_descendants none)).imp_of_mem ?_
  intro e f he hf hprecedes
  have hdepth := depth_of_up (mem_descendants_iff_up.mp he).2
  have hdepth' := depth_of_up (mem_descendants_iff_up.mp hf).2
  simp only [Precedes, hdepth, hdepth', Nat.add_sub_cancel_left] at hprecedes
  exact hprecedes

/-- The walk below a node comes to its end.  It yields every node strictly below the start once and
nothing else, with the number of parent links up to the start, by depth and then by number; the
numbers are those by which the nodes are found in their tree.  With a bound it yields the entries
of the same list that are no deeper, in the same order. -/
theorem descendants_exact (c : Cursor α) :
    (∃ n w, (below c).take n = (c.descendants none, w) ∧ w.step? = none) ∧
    (∀ d k, (d, k) ∈ c.descendants none ↔ 1 ≤ k ∧ d.up k = some c) ∧
    (∀ d, (∃ k, (d, k) ∈ c.descendants none) ↔
      Relation.TransGen (fun c d => d ∈ c.children) c d) ∧
    ((c.descendants none).map (·.1)).Nodup ∧
    (c.descendants none).Pairwise Ahead ∧
    (∀ t : Tree α, c ∈ t.cursors →
      ∀ e ∈ c.descendants none, t.cursor? e.1.index = some e.1) ∧
    (∀ b, (∃ n w, ((below c).rebound (some b)).take n = (c.descendants (some b), w) ∧
        w.step? = none) ∧
      c.descendants (some b) = (c.descendants none).filter (fun e => decide (e.2 ≤ b))) ∧
    c.descendants (some 0) = [] ∧
    c.descendants (some 1) = c.children.map (·, 1) := by
  have hplaced : ∀ e ∈ c.descendants none, e.1.up e.2 = some c :=
    fun e he => (mem_descendants_iff_up.mp he).2
  refine ⟨?_, fun d k => mem_descendants_iff_up, fun d => exists_mem_descendants_iff_transGen,
    nodup_of_pairwise_ahead hplaced c.pairwise_ahead_descendants, c.pairwise_ahead_descendants,
    fun t hc e he => ?_, fun b => ⟨step?_after_drain _, c.descendants_eq_filter (some b)⟩, ?_,
    c.descendants_one⟩
  · rw [← drain_below]
    exact step?_after_drain _
  · exact Tree.cursor?_eq_some_iff.mpr ⟨mem_cursors_of_mem_descendants hc he, rfl⟩
  · rw [descendants_eq_filter, List.filter_eq_nil_iff]
    intro e he hbound
    have hdepth := (mem_descendants_iff_up.mp he).1
    have hzero : e.2 ≤ 0 := of_decide_eq_true hbound
    omega

end Cursor
end PropSurface
