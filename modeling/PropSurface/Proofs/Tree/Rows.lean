import PropSurface.Proofs.Tree.Levels
import PropSurface.Query

/-!
# Rows of a forest

What a search below a node finds depends on the subtree at the node only.  This module gives the
subtrees met by a search without cursors: row after row of the forest below the node.

**Definitions.**
* `Tree.row`: the trees a number of steps below those of a forest.
* `Tree.levelOrder`: all trees strictly below the root, in level order.

**Results.**
* `Cursor.map_focus_descendants`: a search without a bound meets `Tree.levelOrder`.
* `Tree.findSome?_levelOrder_eq_some_iff`: the first answer comes from the first row that has one.
* `Tree.exists_mem_row_iff`: the rows hold the labels of the forest, and no others.
* `Node.query?_descendant_of_absent`, `Node.query?_descendant_of_sole`, `Node.query?_child`: the
  steps of a query for what is absent, for the only node of a kind, and for a child.
-/

namespace PropSurface

universe u v

variable {α : Type u} {β : Type v}

namespace Tree

/-! ### Rows -/

/-- The trees `k` steps below those of a forest, left to right. -/
def row : Nat → List (Tree α) → List (Tree α)
  | 0, ts => ts
  | k + 1, ts => row k (ts.flatMap children)

theorem row_succ (k : Nat) (ts : List (Tree α)) : row (k + 1) ts = row k (ts.flatMap children) :=
  rfl

@[simp] theorem row_append (k : Nat) (ts us : List (Tree α)) :
    row k (ts ++ us) = row k ts ++ row k us := by
  induction k generalizing ts us with
  | zero => rfl
  | succ k ih => rw [row_succ, row_succ, row_succ, List.flatMap_append, ih]

@[simp] theorem row_nil (k : Nat) : row k ([] : List (Tree α)) = [] := by
  induction k with
  | zero => rfl
  | succ k ih => rw [row_succ, List.flatMap_nil, ih]

theorem row_flatMap {γ : Type v} (k : Nat) (xs : List γ) (f : γ → List (Tree α)) :
    row k (xs.flatMap f) = xs.flatMap fun x => row k (f x) := by
  induction xs with
  | nil => simp
  | cons x xs ih => rw [List.flatMap_cons, row_append, ih, List.flatMap_cons]

/-- A row is made of the children of the row before. -/
theorem row_succ_eq_flatMap (k : Nat) (ts : List (Tree α)) :
    row (k + 1) ts = (row k ts).flatMap children := by
  induction k generalizing ts with
  | zero => rfl
  | succ k ih => rw [row_succ, ih, row_succ]

/-! ### Labels -/

theorem preorder_eq_cons (t : Tree α) : t.preorder = t.label :: forestPreorder t.children := by
  cases t with
  | node a ts => rfl

theorem forestPreorder_eq_flatMap (ts : List (Tree α)) :
    forestPreorder ts = ts.flatMap preorder := by
  induction ts with
  | nil => rfl
  | cons t ts ih => rw [forestPreorder, ih, List.flatMap_cons]

@[simp] theorem forestPreorder_append (ts us : List (Tree α)) :
    forestPreorder (ts ++ us) = forestPreorder ts ++ forestPreorder us := by
  simp [forestPreorder_eq_flatMap]

theorem label_mem_forestPreorder {t : Tree α} {ts : List (Tree α)} (h : t ∈ ts) :
    t.label ∈ forestPreorder ts := by
  rw [forestPreorder_eq_flatMap]
  exact List.mem_flatMap.mpr ⟨t, h, by rw [preorder_eq_cons]; exact List.mem_cons_self⟩

theorem forestPreorder_children_subset (ts : List (Tree α)) :
    forestPreorder (ts.flatMap children) ⊆ forestPreorder ts := by
  intro a ha
  rw [forestPreorder_eq_flatMap] at ha ⊢
  obtain ⟨u, hu, ha⟩ := List.mem_flatMap.mp ha
  obtain ⟨t, ht, hut⟩ := List.mem_flatMap.mp hu
  refine List.mem_flatMap.mpr ⟨t, ht, ?_⟩
  rw [preorder_eq_cons, forestPreorder_eq_flatMap]
  exact List.mem_cons_of_mem _ (List.mem_flatMap.mpr ⟨u, hut, ha⟩)

theorem label_mem_of_mem_row {k : Nat} {ts : List (Tree α)} {u : Tree α} (h : u ∈ row k ts) :
    u.label ∈ forestPreorder ts := by
  induction k generalizing ts with
  | zero => exact label_mem_forestPreorder h
  | succ k ih => exact forestPreorder_children_subset ts (ih h)

theorem row_subset_of_subset {ts us : List (Tree α)} (h : ts ⊆ us) (k : Nat) :
    row k ts ⊆ row k us := by
  induction k generalizing ts us with
  | zero => exact h
  | succ k ih =>
      refine ih fun u hu => ?_
      obtain ⟨t, ht, hut⟩ := List.mem_flatMap.mp hu
      exact List.mem_flatMap.mpr ⟨t, h ht, hut⟩

mutual

theorem exists_mem_row_of_mem_preorder {a : α} :
    ∀ t : Tree α, a ∈ t.preorder → ∃ k, ∃ u ∈ row k [t], u.label = a
  | node b ts, h => by
      rcases List.mem_cons.mp h with rfl | h
      · exact ⟨0, _, List.mem_singleton.mpr rfl, rfl⟩
      · obtain ⟨k, u, hu, hlabel⟩ := exists_mem_row_of_mem_forestPreorder ts h
        exact ⟨k + 1, u, by simpa [row_succ] using hu, hlabel⟩

theorem exists_mem_row_of_mem_forestPreorder {a : α} :
    ∀ ts : List (Tree α), a ∈ forestPreorder ts → ∃ k, ∃ u ∈ row k ts, u.label = a
  | [], h => absurd h List.not_mem_nil
  | t :: ts, h => by
      rcases List.mem_append.mp h with h | h
      · obtain ⟨k, u, hu, hlabel⟩ := exists_mem_row_of_mem_preorder t h
        exact ⟨k, u, row_subset_of_subset (by simp) k hu, hlabel⟩
      · obtain ⟨k, u, hu, hlabel⟩ := exists_mem_row_of_mem_forestPreorder ts h
        exact ⟨k, u, row_subset_of_subset (List.subset_cons_self t ts) k hu, hlabel⟩

end

/-- The rows of a forest hold its labels, and no others. -/
theorem exists_mem_row_iff {a : α} {ts : List (Tree α)} :
    (∃ k, ∃ u ∈ row k ts, u.label = a) ↔ a ∈ forestPreorder ts := by
  constructor
  · rintro ⟨k, u, hu, rfl⟩
    exact label_mem_of_mem_row hu
  · exact exists_mem_row_of_mem_forestPreorder ts

/-! ### Level order -/

/-- The trees strictly below the root, in level order. -/
def levelOrder (t : Tree α) : List (Tree α) :=
  (List.range t.size).flatMap fun k => row k t.children

theorem label_mem_of_mem_levelOrder {t u : Tree α} (h : u ∈ t.levelOrder) :
    u.label ∈ forestPreorder t.children := by
  obtain ⟨k, _, hu⟩ := List.mem_flatMap.mp h
  exact label_mem_of_mem_row hu

end Tree

namespace Cursor

/-- The subtrees of a level are a row below the node. -/
theorem map_focus_level (c : Cursor α) (k : Nat) :
    (c.level k).map focus = Tree.row k [c.focus] := by
  induction k with
  | zero => rfl
  | succ k ih =>
      rw [level, List.map_flatMap, Tree.row_succ_eq_flatMap, ← ih, List.flatMap_map]
      simp only [map_focus_children]

theorem row_eq_nil {t : Tree α} {k : Nat} (h : t.size ≤ k) : Tree.row k t.children = [] := by
  have hlevel := map_focus_level (ofRoot t) (k + 1)
  rw [level_eq_nil (c := ofRoot t) (Nat.le_succ_of_le h)] at hlevel
  simpa [Tree.row_succ, ofRoot] using hlevel.symm

/-- A search without a bound meets the trees below the root of the subtree, whatever is around
it. -/
theorem map_focus_descendants (c : Cursor α) :
    (c.descendants none).map (fun entry => entry.1.focus) = c.focus.levelOrder := by
  have hbound : (List.range' 1 c.focus.size).filter (withinBound none) =
      List.range' 1 c.focus.size := List.filter_eq_self.mpr fun _ _ => rfl
  rw [descendants_eq_levelsFrom, levelsFrom, hbound, List.range'_eq_map_range, Tree.levelOrder,
    List.map_flatMap, List.flatMap_map]
  refine congrArg List.flatten (List.map_congr_left fun k _ => ?_)
  rw [List.map_map, Nat.add_comm]
  exact (map_focus_level c (k + 1)).trans (by simp [Tree.row_succ])

/-- A search meets the children first. -/
theorem exists_descendants_eq_append (c : Cursor α) :
    ∃ deeper, (c.descendants none).map (·.1) = c.children ++ deeper := by
  obtain ⟨n, hn⟩ := Nat.exists_eq_succ_of_ne_zero (Nat.ne_of_gt c.focus.size_pos)
  rw [descendants_eq_levelsFrom, levelsFrom, hn, List.range'_succ,
    List.filter_cons_of_pos (by rfl), List.flatMap_cons, List.map_append, level_one]
  exact ⟨_, congrArg (· ++ _) (by simp [Function.comp_def])⟩

/-- What is below a node is one of its children, or below one of them. -/
theorem exists_mem_descendants_iff {c d : Cursor α} :
    (∃ k, (d, k) ∈ c.descendants none) ↔
      ∃ e ∈ c.children, e = d ∨ ∃ k, (d, k) ∈ e.descendants none := by
  rw [exists_mem_descendants_iff_transGen, Relation.TransGen.head'_iff]
  simp only [exists_mem_descendants_iff_transGen, Relation.reflTransGen_iff_eq_or_transGen,
    eq_comm (a := d)]

/-- A search that is bounded by one step meets the children. -/
theorem map_fst_descendants_one (c : Cursor α) :
    (c.descendants (some 1)).map (·.1) = c.children := by
  rw [descendants_one, List.map_map]
  simp [Function.comp_def]

end Cursor

/-- The first answer on a list of lists is the first one of the first list that has one. -/
theorem findSome?_flatMap_range_eq_some_iff {f : α → Option β} {rows : Nat → List α} {n : Nat}
    {b : β} :
    ((List.range n).flatMap rows).findSome? f = some b ↔
      ∃ k < n, (∀ j < k, (rows j).findSome? f = none) ∧ (rows k).findSome? f = some b := by
  induction n with
  | zero => simp
  | succ n ih =>
      rw [List.range_succ, List.flatMap_append, List.findSome?_append, Option.or_eq_some_iff, ih,
        List.findSome?_eq_none_iff]
      simp only [List.mem_flatMap, List.mem_range, forall_exists_index, and_imp,
        List.flatMap_cons, List.flatMap_nil, List.append_nil]
      constructor
      · rintro (⟨k, hk, hnone, hsome⟩ | ⟨hnone, hsome⟩)
        · exact ⟨k, Nat.lt_succ_of_lt hk, hnone, hsome⟩
        · refine ⟨n, Nat.lt_succ_self n, fun j hj => ?_, hsome⟩
          exact List.findSome?_eq_none_iff.mpr fun a ha => hnone a j hj ha
      · rintro ⟨k, hk, hnone, hsome⟩
        rcases Nat.lt_succ_iff_lt_or_eq.mp hk with hk | rfl
        · exact .inl ⟨k, hk, hnone, hsome⟩
        · exact .inr ⟨fun a j hj ha => List.findSome?_eq_none_iff.mp (hnone j hj) a ha, hsome⟩

namespace Tree

/-- The first answer in level order comes from the first row that has one. -/
theorem findSome?_levelOrder_eq_some_iff {f : Tree α → Option β} {t : Tree α} {b : β} :
    t.levelOrder.findSome? f = some b ↔
      ∃ k, (∀ j < k, (row j t.children).findSome? f = none) ∧
        (row k t.children).findSome? f = some b := by
  rw [levelOrder, findSome?_flatMap_range_eq_some_iff]
  constructor
  · rintro ⟨k, _, hk⟩
    exact ⟨k, hk⟩
  · rintro ⟨k, hnone, hsome⟩
    refine ⟨k, ?_, hnone, hsome⟩
    by_contra hlarge
    rw [Cursor.row_eq_nil (Nat.le_of_not_lt hlarge)] at hsome
    cases hsome

end Tree

/-! ### Steps of a query -/

namespace Node

theorem label_mem_of_mem_descendants {n m : Node} {k : Nat}
    (h : (m, k) ∈ n.descendants none) : m.label ∈ Tree.forestPreorder n.focus.children := by
  have hmem : m.focus ∈ (n.descendants none).map (fun entry => entry.1.focus) :=
    List.mem_map.mpr ⟨_, h, rfl⟩
  rw [Cursor.map_focus_descendants] at hmem
  exact Tree.label_mem_of_mem_levelOrder hmem

theorem label_mem_preorder {n m : Node} (h : n = m ∨ ∃ k, (m, k) ∈ n.descendants none) :
    m.label ∈ n.focus.preorder := by
  rw [Tree.preorder_eq_cons]
  rcases h with rfl | ⟨k, hk⟩
  · exact List.mem_cons_self
  · exact List.mem_cons_of_mem _ (label_mem_of_mem_descendants hk)

/-- A query for something below fails if there is nothing of the kind. -/
theorem query?_descendant_of_absent {n : Node} {kind : Kind} (rest : List QueryStep)
    (h : ∀ e ∈ Tree.forestPreorder n.focus.children, e.kind ≠ kind) :
    n.query? (.descendant kind :: rest) = none := by
  rw [query?_cons, List.findSome?_eq_none_iff]
  intro m hm
  obtain ⟨hcandidate, hadmits⟩ := List.mem_filter.mp hm
  obtain ⟨⟨m', k⟩, hentry, hsame⟩ := List.mem_map.mp hcandidate
  obtain rfl : m' = m := hsame
  have hkind : Node.kind m' = kind := by
    simpa [QueryStep.descendant, QueryStep.admits, Node.is] using hadmits
  exact absurd hkind (h _ (label_mem_of_mem_descendants hentry))

/-- A query for something below goes on from the only node of the kind. -/
theorem query?_descendant_of_sole {n m : Node} {kind : Kind} (rest : List QueryStep)
    (hm : ∃ k, (m, k) ∈ n.descendants none) (hkind : m.kind = kind)
    (hsole : ∀ m' : Node, (∃ k, (m', k) ∈ n.descendants none) → m'.kind = kind → m' = m) :
    n.query? (.descendant kind :: rest) = m.query? rest := by
  rw [query?_cons]
  have hmem : m ∈ ((Relation.candidates .descendant n).filter
      (QueryStep.descendant kind).admits) := by
    obtain ⟨k, hk⟩ := hm
    refine List.mem_filter.mpr ⟨List.mem_map.mpr ⟨_, hk, rfl⟩, ?_⟩
    simpa [QueryStep.descendant, QueryStep.admits, Node.is] using hkind
  have hall : ∀ m' ∈ (Relation.candidates .descendant n).filter
      (QueryStep.descendant kind).admits, m' = m := by
    intro m' hm'
    obtain ⟨hcandidate, hadmits⟩ := List.mem_filter.mp hm'
    obtain ⟨⟨m'', k⟩, hentry, rfl⟩ := List.mem_map.mp hcandidate
    refine hsole m'' ⟨k, hentry⟩ ?_
    simpa [QueryStep.descendant, QueryStep.admits, Node.is] using hadmits
  obtain ⟨m', ms, hlist⟩ := List.exists_cons_of_ne_nil (List.ne_nil_of_mem hmem)
  change (((Relation.candidates .descendant n).filter
    (QueryStep.descendant kind).admits).findSome? (query? rest)) = _
  rw [hlist] at hall ⊢
  obtain rfl : m' = m := hall m' List.mem_cons_self
  rw [List.findSome?_cons]
  cases hfound : m'.query? rest with
  | some r => rfl
  | none =>
      refine List.findSome?_eq_none_iff.mpr fun x hx => ?_
      rw [hall x (List.mem_cons_of_mem _ hx), hfound]

/-- A step to a child tries the children from left to right. -/
theorem query?_child {s : QueryStep} (hs : s.relation = .child) (rest : List QueryStep)
    (n : Node) :
    n.query? (s :: rest) = (n.children.filter s.admits).findSome? (query? rest) := by
  rw [query?_cons, hs, Relation.candidates, Cursor.map_fst_descendants_one]

end Node

end PropSurface
