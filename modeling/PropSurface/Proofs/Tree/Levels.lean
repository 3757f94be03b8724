import Mathlib.Logic.Relation
import PropSurface.Proofs.Tree.Numbering
import PropSurface.Tree.LevelOrder

/-!
# Level order

A walk in level order yields the levels below its start one after the other, each from left to
right.

**Definitions.**
* `Cursor.level`: the nodes a number of steps below a node.
* `Cursor.levelsFrom`: levels that a bound admits, one after the other.
* `Cursor.Precedes`: the order of the nodes below a node by depth, and then by number.

**Results.**
* `Cursor.pairwise_level`: a level is listed from left to right, without overlap.
* `Walk.drain_of_step?`: what a walk yields, step by step.
* `Walk.exists_drain_eq_append`: what it yields of one level, and what is left then.
* `Cursor.descendants_eq_levelsFrom`: what it yields from a start.
* `Cursor.mem_descendants_iff`, `Cursor.pairwise_descendants`: the nodes on the list, and their
  order.
-/

namespace PropSurface

universe u

variable {α : Type u}

namespace Cursor

/-! ### Levels -/

/-- The nodes `k` steps below a node, left to right. -/
def level (c : Cursor α) : Nat → List (Cursor α)
  | 0 => [c]
  | k + 1 => (level c k).flatMap children

@[simp] theorem level_one (c : Cursor α) : c.level 1 = c.children := by
  simp [level]

theorem depth_of_mem_level {c d : Cursor α} :
    ∀ {k : Nat}, d ∈ c.level k → d.depth = c.depth + k
  | 0, h => by
      rw [List.mem_singleton.mp h, Nat.add_zero]
  | k + 1, h => by
      obtain ⟨e, he, hd⟩ := List.mem_flatMap.mp h
      rw [depth_of_mem_children hd, depth_of_mem_level he, Nat.add_assoc]

/-- A level is listed from left to right, and its subtrees do not overlap. -/
theorem pairwise_level (c : Cursor α) (k : Nat) : (c.level k).Pairwise Apart := by
  induction k with
  | zero => exact List.pairwise_singleton _ _
  | succ k ih =>
      rw [level, List.pairwise_flatMap]
      refine ⟨fun d _ => d.pairwise_children, ih.imp ?_⟩
      intro d e hapart x hx y hy
      have hbelow := bounds_of_mem_children hx
      have hbelow' := bounds_of_mem_children hy
      simp only [Apart] at hapart ⊢
      omega

/-- Strictly below a node are the nodes of its levels, but for the first of them. -/
theorem exists_mem_level_iff {c d : Cursor α} :
    (∃ k, d ∈ c.level (k + 1)) ↔ Relation.TransGen (fun c d => d ∈ c.children) c d := by
  constructor
  · rintro ⟨k, hk⟩
    induction k generalizing d with
    | zero =>
        rw [level_one] at hk
        exact Relation.TransGen.single hk
    | succ k ih =>
        obtain ⟨e, he, hd⟩ := List.mem_flatMap.mp hk
        exact (ih he).tail hd
  · intro h
    induction h with
    | single hd => exact ⟨0, by rwa [level_one]⟩
    | tail _ hd ih =>
        obtain ⟨k, hk⟩ := ih
        exact ⟨k + 1, List.mem_flatMap.mpr ⟨_, hk, hd⟩⟩

/-- A level and all that is below it is as large as the level before it and all below that, less
the nodes of that level. -/
theorem forestSize_flatMap_children (cs : List (Cursor α)) :
    Tree.forestSize ((cs.flatMap children).map focus) + cs.length =
      Tree.forestSize (cs.map focus) := by
  induction cs with
  | nil => rfl
  | cons c cs ih =>
      rcases c with ⟨⟨a, ts⟩, above⟩
      have hchildren : (children ⟨.node a ts, above⟩).map focus = ts := map_focus_children _
      rw [List.flatMap_cons, List.map_append, Tree.forestSize_append, hchildren, List.map_cons,
        Tree.forestSize, Tree.size, List.length_cons]
      omega

theorem forestSize_level_le (c : Cursor α) (k : Nat) :
    c.level k = [] ∨ Tree.forestSize ((c.level k).map focus) + k ≤ c.focus.size := by
  induction k with
  | zero => exact Or.inr (by simp [level, Tree.forestSize])
  | succ k ih =>
      by_cases hlevel : c.level k = []
      · exact Or.inl (by rw [level, hlevel, List.flatMap_nil])
      · have hlength := List.length_pos_iff.mpr hlevel
        have hnext : Tree.forestSize ((c.level (k + 1)).map focus) + (c.level k).length =
            Tree.forestSize ((c.level k).map focus) := forestSize_flatMap_children _
        right
        rcases ih with h | h
        · exact absurd h hlevel
        · omega

theorem level_eq_nil {c : Cursor α} {k : Nat} (h : c.focus.size ≤ k) : c.level k = [] := by
  rcases forestSize_level_le c k with hlevel | hsize
  · exact hlevel
  · have hforest := forestSize_flatMap_children (c.level k)
    apply List.eq_nil_of_length_eq_zero
    omega

end Cursor

/-! ### What a walk yields -/

theorem withinBound_of_le {bound : Option Nat} {d e : Nat} (hle : d ≤ e)
    (h : withinBound bound e = true) : withinBound bound d = true := by
  cases bound with
  | none => rfl
  | some b =>
      simp only [withinBound, Option.all_some, decide_eq_true_eq] at h ⊢
      omega

namespace Walk

theorem step?_eq_none_iff {w : Walk α} : w.step? = none ↔ w.queue.toList = [] := by
  rw [step?, Option.map_eq_none_iff, Queue.pop?_eq_none_iff]

/-- A walk yields no more than what is left of it, so further steps yield nothing. -/
theorem take_eq_drain (w : Walk α) (n : Nat) (hn : w.remaining ≤ n) :
    (w.take n).1 = w.drain := by
  induction n using Nat.strongRecOn generalizing w with
  | ind n ih =>
      unfold drain
      cases hstep : w.step? with
      | none =>
          have hstops : ∀ k, (w.take k).1 = [] := by
            intro k
            cases k with
            | zero => rfl
            | succ k => simp [take, hstep]
          rw [hstops, hstops]
      | some next =>
          have hless := remaining_lt_of_step? hstep
          obtain ⟨k, rfl⟩ := Nat.exists_eq_succ_of_ne_zero (show n ≠ 0 by omega)
          obtain ⟨r, hr⟩ := Nat.exists_eq_succ_of_ne_zero (show w.remaining ≠ 0 by omega)
          have hk := ih k (by omega) next.2 (by omega)
          have hr' := ih r (by omega) next.2 (by omega)
          rw [hr]
          simp [take, hstep, hk, hr']

theorem drain_of_empty {w : Walk α} (h : w.queue.toList = []) : w.drain = [] := by
  rw [← take_eq_drain w (w.remaining + 1) (Nat.le_succ _), take, step?_eq_none_iff.mpr h]

/-- A walk yields what its next step yields, and then what is yielded from there. -/
theorem drain_of_step? {w w' : Walk α} {entry : Cursor α × Nat}
    (h : w.step? = some (entry, w')) : w.drain = entry :: w'.drain := by
  have hless := remaining_lt_of_step? h
  rw [← take_eq_drain w (w.remaining + 1) (Nat.le_succ _), take, h]
  simp only [take_eq_drain w' w.remaining (Nat.le_of_lt hless)]

/-- The walk yields the nodes `xs` that wait at one depth.  Meanwhile their children line up
behind the nodes `ys` that wait one step deeper, if the bound admits them. -/
theorem exists_drain_eq_append {d : Nat} (xs : List (Cursor α)) :
    ∀ (w : Walk α) (ys : List (Cursor α)),
      w.queue.toList = xs.map (·, d) ++ ys.map (·, d + 1) →
      ∃ w' : Walk α, w'.bound = w.bound ∧
        w'.queue.toList =
          (ys ++ if withinBound w.bound (d + 1) then xs.flatMap Cursor.children else []).map
            (·, d + 1) ∧
        w.drain = xs.map (·, d) ++ w'.drain := by
  induction xs with
  | nil =>
      intro w ys hqueue
      exact ⟨w, rfl, by simpa using hqueue, rfl⟩
  | cons x xs ih =>
      intro w ys hqueue
      cases hstep : w.step? with
      | none =>
          rw [step?_eq_none_iff.mp hstep] at hqueue
          cases hqueue
      | some next =>
          obtain ⟨entry, v⟩ := next
          obtain ⟨rest, hwaiting, hwaiting', hbound⟩ := queue_of_step? hstep
          rw [hwaiting, List.map_cons, List.cons_append] at hqueue
          obtain ⟨rfl, rfl⟩ := List.cons.inj hqueue
          have hopened : opened w.bound (x, d) =
              (if withinBound w.bound (d + 1) then x.children else []).map (·, d + 1) := by
            unfold opened
            split <;> rfl
          obtain ⟨w', hbound', hqueue', hdrain⟩ :=
            ih v (ys ++ if withinBound w.bound (d + 1) then x.children else [])
              (by rw [hwaiting', hopened, List.map_append, List.append_assoc])
          refine ⟨w', hbound'.trans hbound, ?_, ?_⟩
          · rw [hqueue', hbound, List.append_assoc]
            split <;> simp
          · rw [drain_of_step? hstep, hdrain, List.map_cons, List.cons_append]

end Walk

namespace Cursor

/-- The `n` levels from level `d` on that a bound admits, each node with its depth below the
start. -/
def levelsFrom (c : Cursor α) (bound : Option Nat) (d n : Nat) : List (Cursor α × Nat) :=
  ((List.range' d n).filter (withinBound bound)).flatMap fun k => (c.level k).map (·, k)

/-- A walk in front of level `d` yields that level and all later ones. -/
theorem drain_eq_levelsFrom (c : Cursor α) (n : Nat) :
    ∀ (w : Walk α) (d : Nat),
      w.queue.toList = (if withinBound w.bound d then (c.level d).map (·, d) else []) →
      c.focus.size ≤ d + n → w.drain = c.levelsFrom w.bound d n := by
  induction n with
  | zero =>
      intro w d hqueue hsize
      rw [level_eq_nil (by omega), List.map_nil, ite_self] at hqueue
      exact Walk.drain_of_empty hqueue
  | succ n ih =>
      intro w d hqueue hsize
      by_cases hbound : withinBound w.bound d = true
      · rw [if_pos hbound] at hqueue
        obtain ⟨w', hbound', hqueue', hdrain⟩ :=
          Walk.exists_drain_eq_append (c.level d) w [] (by simpa using hqueue)
        have hnext := ih w' (d + 1)
          (by rw [hqueue', hbound', List.nil_append, level]; split <;> rfl) (by omega)
        rw [hdrain, hnext, hbound', levelsFrom, levelsFrom, List.range'_succ,
          List.filter_cons_of_pos hbound, List.flatMap_cons]
      · have hdeeper : ¬ withinBound w.bound (d + 1) = true :=
          fun h => hbound (withinBound_of_le (Nat.le_succ d) h)
        rw [if_neg hbound] at hqueue
        rw [ih w (d + 1) (by rw [if_neg hdeeper, hqueue]) (by omega), levelsFrom, levelsFrom,
          List.range'_succ, List.filter_cons_of_neg hbound]

/-- The descendants of a node are its levels from the first one below it on. -/
theorem descendants_eq_levelsFrom (c : Cursor α) (bound : Option Nat) :
    c.descendants bound = c.levelsFrom bound 1 c.focus.size := by
  refine drain_eq_levelsFrom c c.focus.size ((Walk.below c).rebound bound) 1 ?_ (by omega)
  rw [Walk.rebound, Queue.toList_filter, Walk.below, Queue.toList_ofList, level_one,
    List.filter_map]
  by_cases hbound : withinBound bound 1 = true
  · simp [Function.comp_def, hbound]
  · simp [Function.comp_def, hbound]

/-- Within one step are the children. -/
theorem descendants_one (c : Cursor α) : c.descendants (some 1) = c.children.map (·, 1) := by
  obtain ⟨w, _, hqueue, hdrain⟩ := Walk.exists_drain_eq_append (d := 1) c.children
    ((Walk.below c).rebound (some 1)) []
    (by simp [Walk.rebound, Walk.below, withinBound, List.filter_map, Function.comp_def])
  rw [descendants, hdrain, Walk.drain_of_empty hqueue, List.append_nil]

theorem mem_descendants_iff {c d : Cursor α} {bound : Option Nat} {k : Nat} :
    (d, k) ∈ c.descendants bound ↔ 1 ≤ k ∧ withinBound bound k = true ∧ d ∈ c.level k := by
  simp only [descendants_eq_levelsFrom, levelsFrom, List.mem_flatMap, List.mem_filter,
    List.mem_range'_1, List.mem_map, Prod.mk.injEq]
  constructor
  · rintro ⟨j, ⟨⟨hj, _⟩, hbound⟩, e, he, rfl, rfl⟩
    exact ⟨hj, hbound, he⟩
  · rintro ⟨hk, hbound, hd⟩
    have hsize : k < c.focus.size := by
      by_contra hlarge
      rw [level_eq_nil (Nat.le_of_not_lt hlarge)] at hd
      cases hd
    exact ⟨k, ⟨⟨hk, by omega⟩, hbound⟩, d, hd, rfl, rfl⟩

theorem exists_mem_descendants_iff_transGen {c d : Cursor α} :
    (∃ k, (d, k) ∈ c.descendants none) ↔
      Relation.TransGen (fun c d => d ∈ c.children) c d := by
  rw [← exists_mem_level_iff]
  simp only [mem_descendants_iff]
  constructor
  · rintro ⟨k, hk, -, hlevel⟩
    exact ⟨k - 1, by rwa [Nat.sub_add_cancel hk]⟩
  · rintro ⟨k, hlevel⟩
    exact ⟨k + 1, Nat.succ_pos k, rfl, hlevel⟩

/-- Among the nodes below `c`, the less deep come first, and those of one depth from left to
right. -/
def Precedes (c d e : Cursor α) : Prop :=
  d.depth - c.depth < e.depth - c.depth ∨
    d.depth - c.depth = e.depth - c.depth ∧ d.index < e.index

theorem pairwise_descendants (c : Cursor α) (bound : Option Nat) :
    ((c.descendants bound).map (·.1)).Pairwise c.Precedes := by
  have hlevels : (c.descendants bound).map (·.1) =
      ((List.range' 1 c.focus.size).filter (withinBound bound)).flatMap c.level := by
    rw [descendants_eq_levelsFrom, levelsFrom, List.map_flatMap]
    simp [Function.comp_def]
  rw [hlevels, List.pairwise_flatMap]
  constructor
  · intro k _
    refine (c.pairwise_level k).imp_of_mem ?_
    intro x y hx hy hapart
    right
    rw [depth_of_mem_level hx, depth_of_mem_level hy]
    exact ⟨rfl, hapart.index_lt⟩
  · have hrange : (List.range' 1 c.focus.size).Pairwise (· < ·) := List.pairwise_lt_range'
    refine (hrange.filter _).imp ?_
    intro j k hjk x hx y hy
    left
    rw [depth_of_mem_level hx, depth_of_mem_level hy]
    omega

end Cursor
end PropSurface
