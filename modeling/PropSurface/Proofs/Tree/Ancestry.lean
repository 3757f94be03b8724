import PropSurface.Proofs.Tree.Pruning

/-!
# Along the siblings and up to the root

A node has one next sibling and one parent at most.  Following the first of these links passes the
siblings to the right, and following the second one passes the ancestors and ends at the root, after
as many steps as the node is deep.

**Definitions.**
* `Cursor.along`: the node a number of links to the next sibling after a node.
* `Cursor.AncestorOf`: one node is a strict ancestor of another one.

**Results.**
* `Cursor.along_eq_getElem?`: the links from the first child on lead through the children.
* `Cursor.mem_cursors_iff`: the nodes of a tree are those from which parent links lead to its root.
* `Cursor.up_eq_root_iff`, `Cursor.up_eq_none_iff`: how many links these are.
* `Cursor.mem_traverse_root_iff`: a traversal of the tree meets every node at its depth.
* `Cursor.getElem?_ancestors`, `Cursor.mem_ancestors_iff`: the list of the ancestors.
* `Cursor.mem_nearer_iff`: which ancestors are nearer than another one.
* `Cursor.ancestorOf_iff_mem_descendants`: the ancestors of a node are those that have it below
  them.
-/

namespace PropSurface

universe u

variable {α : Type u}

namespace Cursor

/-! ### Siblings -/

/-- The node that is reached by following `k` links to the next sibling. -/
def along : Nat → Cursor α → Option (Cursor α)
  | 0, c => some c
  | k + 1, c => c.next?.bind (along k)

theorem following_of_next? {c d : Cursor α} (h : c.next? = some d) :
    c.following = d :: d.following := by
  rcases c with ⟨t, _ | ⟨⟨before, a, _ | ⟨u, us⟩⟩, fs⟩⟩
  · cases h
  · cases h
  · obtain rfl := Option.some.inj h
    rfl

theorem along_eq_getElem?_following (c : Cursor α) (k : Nat) :
    c.along k = (c :: c.following)[k]? := by
  induction k generalizing c with
  | zero => rfl
  | succ k ih =>
      cases hnext : c.next? with
      | none =>
          have hfollowing : c.following = [] := List.head?_eq_none_iff.mp hnext
          simp [along, hnext, hfollowing]
      | some d => simp [along, hnext, ih d, following_of_next? hnext]

/-- From the first child on, the links to the next sibling lead through the children, and end
there. -/
theorem along_eq_getElem? {p c : Cursor α} (h : p.children.head? = some c) (k : Nat) :
    c.along k = p.children[k]? := by
  have hchildren : p.children = c :: c.following := by
    rcases p with ⟨⟨a, _ | ⟨t, ts⟩⟩, above⟩
    · cases h
    · obtain rfl := Option.some.inj h
      rfl
  rw [hchildren, along_eq_getElem?_following]

/-! ### Up to the root -/

theorem up_of_parent? {c p : Cursor α} (h : c.parent? = some p) (k : Nat) :
    c.up (k + 1) = p.up k := by
  rw [up, h, Option.bind_some]

/-- One more link leads to the parent. -/
theorem up_succ_of_up {c d : Cursor α} {k : Nat} (h : c.up k = some d) :
    c.up (k + 1) = d.parent? := by
  induction k generalizing c with
  | zero =>
      obtain rfl := Option.some.inj h
      simp [up]
  | succ k ih =>
      obtain ⟨p, hparent, hup⟩ := Option.bind_eq_some_iff.mp h
      rw [up_of_parent? hparent]
      exact ih hup

theorem parent?_eq_none_iff {c : Cursor α} : c.parent? = none ↔ c.depth = 0 := by
  rcases c with ⟨t, _ | ⟨f, fs⟩⟩
  · exact iff_of_true rfl rfl
  · exact iff_of_false (Option.some_ne_none _) (Nat.succ_ne_zero _)

theorem depth_of_parent? {c p : Cursor α} (h : c.parent? = some p) : c.depth = p.depth + 1 :=
  depth_of_mem_children (parent?_eq_some_iff.mp h)

/-- There are as many links above a node as it is deep. -/
theorem up_eq_none_iff {c : Cursor α} {k : Nat} : c.up k = none ↔ c.depth < k := by
  induction k generalizing c with
  | zero => exact iff_of_false (Option.some_ne_none c) (Nat.not_lt_zero _)
  | succ k ih =>
      cases hparent : c.parent? with
      | none =>
          have hdepth := parent?_eq_none_iff.mp hparent
          simp [up, hparent, hdepth]
      | some p =>
          have hdepth := depth_of_parent? hparent
          rw [up_of_parent? hparent, ih, hdepth, Nat.add_lt_add_iff_right]

end Cursor

namespace Tree

open Cursor

mutual

theorem exists_up_of_mem_cursorsBelow {c : Cursor α} (above : List (Frame α)) :
    ∀ t : Tree α, c ∈ cursorsBelow above t → ∃ k, c.up k = some ⟨t, above⟩
  | node a ts, h => by
      rcases List.mem_cons.mp h with rfl | h
      · exact ⟨0, rfl⟩
      · obtain ⟨d, hd, k, hup⟩ := exists_up_of_mem_forestCursors a above [] ts h
        exact ⟨k + 1, (up_succ_of_up hup).trans (parent?_eq_some_of_mem_children hd)⟩

theorem exists_up_of_mem_forestCursors {c : Cursor α} (a : α) (above : List (Frame α)) :
    ∀ before ts : List (Tree α), c ∈ forestCursors a above before ts →
      ∃ d ∈ fan a above before ts, ∃ k, c.up k = some d
  | _, [], h => absurd h List.not_mem_nil
  | before, t :: ts, h => by
      rcases List.mem_append.mp h with h | h
      · exact ⟨_, List.mem_cons_self, exists_up_of_mem_cursorsBelow _ t h⟩
      · obtain ⟨d, hd, hup⟩ := exists_up_of_mem_forestCursors a above (t :: before) ts h
        exact ⟨d, List.mem_cons_of_mem _ hd, hup⟩

end

end Tree

namespace Cursor

variable {t : Tree α} {c p : Cursor α}

/-- The nodes of a tree are those from which parent links lead up to its root. -/
theorem mem_cursors_iff : c ∈ t.cursors ↔ ∃ k, c.up k = some (ofRoot t) := by
  refine ⟨Tree.exists_up_of_mem_cursorsBelow [] t, ?_⟩
  rintro ⟨k, hup⟩
  induction k generalizing c with
  | zero =>
      obtain rfl := Option.some.inj hup
      exact Tree.ofRoot_mem_cursors t
  | succ k ih =>
      obtain ⟨p, hparent, hup⟩ := Option.bind_eq_some_iff.mp hup
      exact Tree.mem_cursors_of_mem_children (ih hup) (parent?_eq_some_iff.mp hparent)

/-- The links lead to the root after as many steps as the node is deep, and at no other time. -/
theorem up_eq_root_iff (hc : c ∈ t.cursors) {k : Nat} :
    c.up k = some (ofRoot t) ↔ k = c.depth := by
  obtain ⟨d, hup⟩ := mem_cursors_iff.mp hc
  have hdepth : ∀ {j}, c.up j = some (ofRoot t) → j = c.depth := fun {j} hj =>
    ((depth_of_up hj).trans (Nat.zero_add j)).symm
  refine ⟨hdepth, ?_⟩
  rintro rfl
  rwa [← hdepth hup]

theorem parent?_eq_none_iff_root (hc : c ∈ t.cursors) : c.parent? = none ↔ c = ofRoot t := by
  rw [parent?_eq_none_iff, eq_comm (a := c.depth), ← up_eq_root_iff hc]
  exact Option.some_inj

theorem mem_cursors_of_parent? (hc : c ∈ t.cursors) (h : c.parent? = some p) :
    p ∈ t.cursors := by
  have hup := (up_eq_root_iff hc).mpr rfl
  rw [depth_of_parent? h, up_of_parent? h] at hup
  exact mem_cursors_iff.mpr ⟨p.depth, hup⟩

/-! ### The depth of a node -/

theorem visible_of_never (k : Nat) (d : Cursor α) : visible (fun _ _ => false) k d = true := by
  induction k generalizing d with
  | zero => rfl
  | succ k ih => cases hparent : d.parent? <;> simp [visible, hparent, ih]

/-- A traversal that never skips visits its start and all that a walk yields. -/
theorem traverse_never (c : Cursor α) :
    c.traverse (fun _ _ => false) none = (c, 0) :: c.descendants none := by
  have hsweep := sweep_eq_filter (fun _ _ => false) none c c.focus.size 0
  rwa [levelsFrom_zero, List.filter_eq_self.mpr fun _ _ => visible_of_never _ _,
    List.filter_eq_self.mpr fun _ _ => visible_of_never _ _] at hsweep

/-- A traversal of the whole tree visits every node at its depth. -/
theorem mem_traverse_root_iff (hc : c ∈ t.cursors) {k : Nat} :
    (c, k) ∈ (ofRoot t).traverse (fun _ _ => false) none ↔ k = c.depth := by
  rw [traverse_never, List.mem_cons, mem_descendants_iff_up, ← up_eq_root_iff hc, Prod.mk.injEq]
  cases k with
  | zero => simp [up]
  | succ k => simp

/-! ### Ancestors -/

/-- Node `a` is a strict ancestor of `c`. -/
def AncestorOf (a c : Cursor α) : Prop := ∃ k, c.up (k + 1) = some a

theorem ancestors_of_parent? {c p : Cursor α} (h : c.parent? = some p) :
    c.ancestors = p :: p.ancestors := by
  rcases c with ⟨t, _ | ⟨f, fs⟩⟩
  · cases h
  · obtain rfl := Option.some.inj h
    rfl

/-- The ancestors of a child are its parent and the ancestors of that. -/
theorem ancestors_of_mem_children {c d : Cursor α} (h : d ∈ c.children) :
    d.ancestors = c :: c.ancestors :=
  ancestors_of_parent? (parent?_eq_some_of_mem_children h)

theorem ancestors_of_parent?_eq_none {c : Cursor α} (h : c.parent? = none) :
    c.ancestors = [] := by
  rcases c with ⟨t, _ | ⟨f, fs⟩⟩
  · rfl
  · cases h

theorem getElem?_climb : ∀ (above : List (Frame α)) (t : Tree α) (k : Nat),
    (climb t above)[k]? = up (k + 1) ⟨t, above⟩
  | [], _, _ => rfl
  | _ :: _, _, 0 => rfl
  | f :: fs, t, k + 1 => getElem?_climb fs (f.plug t) k

/-- The ancestors are listed in the order in which the parent links lead to them. -/
theorem getElem?_ancestors (c : Cursor α) (k : Nat) : c.ancestors[k]? = c.up (k + 1) :=
  getElem?_climb c.above c.focus k

theorem mem_ancestors_iff {a c : Cursor α} : a ∈ c.ancestors ↔ AncestorOf a c := by
  rw [List.mem_iff_getElem?]
  exact exists_congr fun k => by rw [getElem?_ancestors]

theorem AncestorOf.depth_lt {a c : Cursor α} (h : AncestorOf a c) : a.depth < c.depth := by
  obtain ⟨k, hup⟩ := h
  have hdepth := depth_of_up hup
  omega

theorem ancestors_of_eq_cons {c p : Cursor α} {rest : List (Cursor α)}
    (h : c.ancestors = p :: rest) : p.ancestors = rest := by
  rcases c with ⟨t, _ | ⟨f, fs⟩⟩
  · cases h
  · obtain ⟨rfl, hrest⟩ := List.cons.inj h
    exact hrest

/-- What comes after an ancestor on the list are its own ancestors. -/
theorem ancestors_of_eq_append {a c : Cursor α} {nearer further : List (Cursor α)}
    (h : c.ancestors = nearer ++ a :: further) : a.ancestors = further := by
  induction nearer generalizing c with
  | nil => exact ancestors_of_eq_cons h
  | cons b nearer ih => exact ih (ancestors_of_eq_cons h)

/-- What comes before an ancestor on the list are the nodes strictly between it and the start. -/
theorem mem_nearer_iff {a b c : Cursor α} {nearer further : List (Cursor α)}
    (h : c.ancestors = nearer ++ a :: further) : b ∈ nearer ↔ AncestorOf a b ∧ AncestorOf b c := by
  have hfurther := ancestors_of_eq_append h
  constructor
  · intro hb
    obtain ⟨xs, ys, rfl⟩ := List.append_of_mem hb
    have hbetween : b.ancestors = ys ++ a :: further :=
      ancestors_of_eq_append (h.trans (List.append_assoc xs (b :: ys) (a :: further)))
    rw [← mem_ancestors_iff, ← mem_ancestors_iff, hbetween, h]
    simp
  · rintro ⟨hab, hbc⟩
    have hdepth := hab.depth_lt
    rw [← mem_ancestors_iff, h, List.mem_append, List.mem_cons] at hbc
    rcases hbc with hb | rfl | hb
    · exact hb
    · exact absurd hdepth (Nat.lt_irrefl _)
    · rw [← hfurther, mem_ancestors_iff] at hb
      exact absurd hdepth (Nat.lt_asymm hb.depth_lt)

/-- The ancestors of a node are those below which it stands. -/
theorem ancestorOf_iff_mem_descendants {a c : Cursor α} :
    AncestorOf a c ↔ ∃ k, (c, k) ∈ a.descendants none := by
  simp only [mem_descendants_iff_up]
  constructor
  · rintro ⟨k, hup⟩
    exact ⟨k + 1, Nat.succ_pos k, hup⟩
  · rintro ⟨k, hk, hup⟩
    exact ⟨k - 1, by rwa [Nat.sub_add_cancel hk]⟩

end Cursor
end PropSurface
