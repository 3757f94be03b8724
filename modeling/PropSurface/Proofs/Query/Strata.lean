import PropSurface.Element.Lowering
import PropSurface.Proofs.Tree.Rows

/-!
# Labels of one row

Labels of a certain sort may stand in one row of a tree only.  A search for them meets the nodes of
one level, in order, and what stands right below these.

**Definitions.**
* `Tree.Absent`, `Tree.OnlyInRow`: a forest without labels of a sort, or with such labels in one
  row.
* `Node.reach`: the nodes of one kind right below those of another.

**Results.**
* `Cursor.filter_descendants_of_onlyInRow`: what a search for labels of one row meets.
* `Node.query?_descendant_child`: a query in two steps looks through `Node.reach`.
-/

namespace PropSurface

universe u v

variable {α : Type u}

namespace Tree

variable {p : α → Bool} {a : α} {ts us : List (Tree α)} {d : Nat}

/-! ### Forests without labels of a sort -/

/-- No label of the forest is of the sort. -/
def Absent (p : α → Bool) (ts : List (Tree α)) : Prop := ∀ a ∈ forestPreorder ts, p a = false

@[simp] theorem absent_nil : Absent p ([] : List (Tree α)) := fun _ h => absurd h List.not_mem_nil

@[simp] theorem absent_cons {below : List (Tree α)} :
    Absent p (node a below :: ts) ↔ p a = false ∧ Absent p below ∧ Absent p ts := by
  simp only [Absent, forestPreorder, preorder, List.mem_append, List.mem_cons, or_imp, forall_and,
    forall_eq, and_assoc]

theorem absent_flatMap {β : Type v} {xs : List β} {f : β → List (Tree α)}
    (h : ∀ x ∈ xs, Absent p (f x)) : Absent p (xs.flatMap f) := by
  intro a ha
  rw [forestPreorder_eq_flatMap, List.flatMap_assoc] at ha
  obtain ⟨x, hx, ha⟩ := List.mem_flatMap.mp ha
  exact h x hx a (forestPreorder_eq_flatMap _ ▸ ha)

theorem Absent.mono {q : α → Bool} (h : Absent p ts) (hpq : ∀ a, q a = true → p a = true) :
    Absent q ts := by
  intro a ha
  cases hq : q a with
  | false => rfl
  | true => exact absurd (hpq a hq) (by simp [h a ha])

/-- What is absent is at the root of no tree of the forest. -/
theorem Absent.filter_eq_nil (h : Absent p ts) : ts.filter (p ·.label) = [] := by
  refine List.filter_eq_nil_iff.mpr fun t ht => ?_
  rw [h t.label (label_mem_forestPreorder ht)]
  exact Bool.false_ne_true

theorem Absent.of_mem (h : Absent p ts) {t : Tree α} (ht : t ∈ ts) : Absent p [t] := by
  intro a ha
  rw [forestPreorder_eq_flatMap, List.flatMap_singleton] at ha
  refine h a ?_
  rw [forestPreorder_eq_flatMap]
  exact List.mem_flatMap.mpr ⟨t, ht, ha⟩

theorem Absent.children (h : Absent p ts) : Absent p (ts.flatMap Tree.children) :=
  fun a ha => h a (forestPreorder_children_subset ts ha)

/-! ### Forests with labels of a sort in one row -/

/-- Labels of the sort stand in row `d` of the forest only. -/
def OnlyInRow (p : α → Bool) (d : Nat) (ts : List (Tree α)) : Prop :=
  ∀ k, ∀ t ∈ row k ts, p t.label = true → k = d

theorem Absent.onlyInRow (h : Absent p ts) (d : Nat) : OnlyInRow p d ts := by
  intro k t ht hp
  rw [h t.label (label_mem_of_mem_row ht)] at hp
  cases hp

theorem onlyInRow_flatMap {β : Type v} {xs : List β} {f : β → List (Tree α)}
    (h : ∀ x ∈ xs, OnlyInRow p d (f x)) : OnlyInRow p d (xs.flatMap f) := by
  intro k t ht hp
  rw [row_flatMap] at ht
  obtain ⟨x, hx, ht⟩ := List.mem_flatMap.mp ht
  exact h x hx k t ht hp

/-- The rows of a tree are its root and the rows below. -/
theorem onlyInRow_succ {below : List (Tree α)} (ha : p a = false) (h : OnlyInRow p d below) :
    OnlyInRow p (d + 1) [node a below] := by
  intro k t ht hp
  cases k with
  | zero =>
      rw [List.mem_singleton.mp ht, label_node, ha] at hp
      cases hp
  | succ k =>
      rw [row_succ, List.flatMap_singleton] at ht
      rw [h k t ht hp]

theorem onlyInRow_zero {below : List (Tree α)} (h : Absent p below) :
    OnlyInRow p 0 [node a below] := by
  intro k t ht hp
  cases k with
  | zero => rfl
  | succ k =>
      rw [row_succ, List.flatMap_singleton] at ht
      rw [h t.label (label_mem_of_mem_row ht)] at hp
      cases hp

end Tree

/-! ### Searches -/

/-- A list that is put together from one row is that row. -/
theorem flatMap_range_eq_of_forall {β : Type v} {f : Nat → List β} {d : Nat}
    (h : ∀ k, k ≠ d → f k = []) (n : Nat) :
    (List.range n).flatMap f = if d < n then f d else [] := by
  induction n with
  | zero => rfl
  | succ n ih =>
      rw [List.range_succ, List.flatMap_append, List.flatMap_singleton, ih]
      by_cases hn : n = d
      · subst hn
        simp
      · rw [h n hn, List.append_nil]
        have hlt : d < n + 1 ↔ d < n := by omega
        simp only [hlt]

namespace Cursor

theorem map_fst_descendants (c : Cursor α) :
    (c.descendants none).map (·.1) =
      (List.range c.focus.size).flatMap fun k => c.level (k + 1) := by
  have hbound : (List.range' 1 c.focus.size).filter (withinBound none) =
      List.range' 1 c.focus.size := List.filter_eq_self.mpr fun _ _ => rfl
  rw [descendants_eq_levelsFrom, levelsFrom, hbound, List.range'_eq_map_range, List.map_flatMap,
    List.flatMap_map]
  refine congrArg List.flatten (List.map_congr_left fun k _ => ?_)
  rw [List.map_map, Nat.add_comm]
  exact List.map_id _

/-- A search for labels that stand in one row meets the nodes of one level. -/
theorem filter_descendants_of_onlyInRow (p : α → Bool) {d : Nat} (c : Cursor α)
    (h : Tree.OnlyInRow p d c.focus.children) :
    ((c.descendants none).map (·.1)).filter (p ·.label) =
      (c.level (d + 1)).filter (p ·.label) := by
  have hother : ∀ k, k ≠ d → (c.level (k + 1)).filter (p ·.label) = [] := by
    intro k hk
    refine List.filter_eq_nil_iff.mpr fun e he hp => hk (h k e.focus ?_ hp)
    have hfocus : e.focus ∈ (c.level (k + 1)).map focus := List.mem_map_of_mem he
    rw [map_focus_level, Tree.row_succ, List.flatMap_singleton] at hfocus
    exact hfocus
  rw [map_fst_descendants, List.filter_flatMap, flatMap_range_eq_of_forall hother]
  split
  · rfl
  · rw [level_eq_nil (by omega), List.filter_nil]

/-- A level is put together from the levels below the children. -/
theorem level_succ_eq_flatMap (c : Cursor α) (k : Nat) :
    c.level (k + 1) = c.children.flatMap fun d => d.level k := by
  induction k with
  | zero => simp [level]
  | succ k ih => rw [level, ih, List.flatMap_assoc]; rfl

end Cursor

namespace Node

/-- The nodes of a kind right below those of another kind, in the order of a search for these. -/
def reach (kind kind' : Kind) (n : Node) : List Node :=
  (((n.descendants none).map (·.1)).filter (Node.is kind)).flatMap fun m =>
    m.children.filter (Node.is kind')

/-- A query for a child with a property of a node of a kind. -/
theorem query?_descendant_child (n : Node) (kind kind' : Kind) (p : Node → Bool) :
    n.query? [.descendant kind, { QueryStep.child kind' with holds := p }] =
      (n.reach kind kind').find? p := by
  have hkinds : (QueryStep.descendant kind).admits = Node.is kind := by
    funext m
    simp [QueryStep.descendant, QueryStep.admits]
  have hchild : ∀ m : Node, m.query? [{ QueryStep.child kind' with holds := p }] =
      (m.children.filter (Node.is kind')).find? p := by
    intro m
    have hadmits : ({ QueryStep.child kind' with holds := p } : QueryStep).admits =
        fun d => Node.is kind' d && p d := by
      funext d
      simp [QueryStep.child, QueryStep.admits]
    rw [query?_child rfl, hadmits, ← List.head?_filter, List.filter_filter]
    simp only [Bool.and_comm (p _)]
    cases m.children.filter fun d => Node.is kind' d && p d <;> rfl
  rw [query?_cons, hkinds, reach, List.find?_flatMap]
  exact congrArg (List.findSome? · _) (funext hchild)

end Node

end PropSurface
