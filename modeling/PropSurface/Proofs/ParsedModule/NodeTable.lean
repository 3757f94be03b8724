import Mathlib.Data.List.Nodup
import Mathlib.Logic.Relation
import PropSurface.Node
import PropSurface.ParsedModule
import PropSurface.Proofs.Tree.Numbering

/-!
# The node table

The table of a module comes from a row for the source file by adding row after row at the end.
Every row is added below a node of the rightmost path, that is below the last node or a node above
it, and this keeps the numbers of the nodes a preorder numbering.

**Definitions.**
* `Slot.parentOf`, `Slot.childrenOf`: the links of a table.
* `Slot.Below`: the way down along the child lists.
* `Slot.WellFormed`: parents and child lists agree, and every subtree is an interval of numbers.
* `Slot.push`, `Slot.pushTree`, `Slot.pushForest`: add one row, or the rows of a tree or forest.
* `Slot.Rightmost`: the nodes below which rows may be added.
* `Slot.ofNode`: the row of a node.

**Results.**
* `Slot.WellFormed.push`: one row below a rightmost node keeps a table well-formed.
* `Slot.grown_pushForest`: so do the rows of a forest.
* `Slot.pushForest_eq_append`: they leave all old rows as they are, but for the child list of the
  node that they are added to.
* `ParsedModule.slots_eq_pushForest`: the table of a module comes about in this way.
* `ParsedModule.getElem?_slots_eq_some_iff`: its rows are those of the nodes, by number.
-/

namespace PropSurface

namespace Slot

/-! ### Links -/

/-- The parent on row `i`. -/
def parentOf (slots : List Slot) (i : Nat) : Option Nat := slots[i]?.bind (·.parent)

/-- The child list on row `i`, empty off the table. -/
def childrenOf (slots : List Slot) (i : Nat) : List Nat := (slots[i]?.map (·.children)).getD []

/-- Node `j` is node `i` or one of its descendants. -/
def Below (slots : List Slot) : Nat → Nat → Prop :=
  Relation.ReflTransGen fun i j => j ∈ childrenOf slots i

/-- A tree, numbered in preorder. -/
structure WellFormed (slots : List Slot) : Prop where
  /-- Node 0 is the source file, and has no parent. -/
  root : ∃ s, slots[0]? = some s ∧ s.element.payload = .sourceFile ∧ s.parent = none
  /-- Every other node has a parent with a smaller number, and is on its child list once. -/
  parent : ∀ i, 0 < i → i < slots.length →
    ∃ p, parentOf slots i = some p ∧ p < i ∧ (childrenOf slots p).count i = 1
  /-- A node on a child list is on the table, and the list is that of its parent. -/
  child : ∀ p i, i ∈ childrenOf slots p → i < slots.length ∧ parentOf slots i = some p
  increasing : ∀ p, (childrenOf slots p).Pairwise (· < ·)
  /-- A node and its descendants are the nodes from its number up to another one. -/
  interval : ∀ i < slots.length, ∃ stop ≤ slots.length, ∀ j, Below slots i j ↔ i ≤ j ∧ j < stop

theorem childrenOf_eq_nil {slots : List Slot} {i : Nat} (h : slots.length ≤ i) :
    childrenOf slots i = [] := by
  rw [childrenOf, List.getElem?_eq_none h]
  rfl

theorem Below.eq_of_length_le {slots : List Slot} {i j : Nat} (h : Below slots i j)
    (hi : slots.length ≤ i) : j = i := by
  rcases Relation.ReflTransGen.cases_head h with rfl | ⟨k, hk, _⟩
  · rfl
  · rw [childrenOf_eq_nil hi] at hk
    cases hk

theorem wellFormed_singleton {e : Element} (he : e.payload = .sourceFile) :
    WellFormed [⟨none, e, []⟩] := by
  have hchildren : ∀ i, childrenOf [⟨none, e, []⟩] i = [] := by
    intro i
    cases i <;> rfl
  refine ⟨⟨_, rfl, he, rfl⟩, ?_, ?_, ?_, ?_⟩
  · intro i hpos hlt
    rw [List.length_singleton] at hlt
    omega
  · intro p i hi
    rw [hchildren] at hi
    cases hi
  · intro p
    rw [hchildren]
    exact List.Pairwise.nil
  · intro i hi
    rw [List.length_singleton] at hi
    refine ⟨1, Nat.le_refl 1, fun j => ?_⟩
    constructor
    · intro hbelow
      rcases Relation.ReflTransGen.cases_head hbelow with rfl | ⟨k, hk, _⟩
      · exact ⟨Nat.le_refl i, hi⟩
      · rw [hchildren] at hk
        cases hk
    · intro hj
      rw [show j = i by omega]
      exact Relation.ReflTransGen.refl

/-! ### One row -/

/-- The row with more numbers on its child list. -/
def addChildren (numbers : List Nat) (s : Slot) : Slot :=
  { s with children := s.children ++ numbers }

@[simp] theorem addChildren_nil : addChildren [] = id := by
  funext s
  simp [addChildren]

theorem addChildren_comp (numbers more : List Nat) :
    addChildren more ∘ addChildren numbers = addChildren (numbers ++ more) := by
  funext s
  simp [addChildren]

/-- Add a row at the end, as the last child of node `p`. -/
def push (slots : List Slot) (p : Nat) (e : Element) : List Slot :=
  slots.modify p (addChildren [slots.length]) ++ [⟨some p, e, []⟩]

@[simp] theorem length_push (slots : List Slot) (p : Nat) (e : Element) :
    (push slots p e).length = slots.length + 1 := by
  simp [push]

theorem getElem?_push (slots : List Slot) (p : Nat) (e : Element) (i : Nat) :
    (push slots p e)[i]? =
      if i = slots.length then some ⟨some p, e, []⟩
      else slots[i]?.map fun s => if p = i then addChildren [slots.length] s else s := by
  rw [push, List.getElem?_append, List.length_modify, List.getElem?_modify]
  rcases Nat.lt_trichotomy i slots.length with hlt | rfl | hgt
  · rw [if_pos hlt, if_neg (Nat.ne_of_lt hlt)]
    rfl
  · simp
  · rw [if_neg (Nat.not_lt_of_gt hgt), if_neg (Nat.ne_of_gt hgt),
      List.getElem?_eq_none (Nat.le_of_lt hgt), List.getElem?_eq_none (by simp; omega)]
    rfl

variable {slots : List Slot} {p : Nat}

theorem parentOf_push (e : Element) (i : Nat) :
    parentOf (push slots p e) i = if i = slots.length then some p else parentOf slots i := by
  rw [parentOf, getElem?_push]
  split
  · rfl
  · rw [parentOf]
    cases slots[i]? with
    | none => rfl
    | some s =>
        by_cases hi : p = i
        · simp [hi, addChildren]
        · simp [hi]

/-- A new row changes one child list, that of its parent. -/
theorem childrenOf_push (hp : p < slots.length) (e : Element) (i : Nat) :
    childrenOf (push slots p e) i =
      if i = p then childrenOf slots p ++ [slots.length] else childrenOf slots i := by
  rw [childrenOf, getElem?_push]
  by_cases hi : i = p
  · subst hi
    rw [if_neg (Nat.ne_of_lt hp), if_pos rfl, childrenOf, List.getElem?_eq_getElem hp]
    simp [addChildren]
  · rw [if_neg hi]
    by_cases hlast : i = slots.length
    · rw [if_pos hlast, childrenOf_eq_nil (Nat.le_of_eq hlast.symm)]
      rfl
    · simp [hlast, Ne.symm hi, childrenOf]

theorem mem_childrenOf_push (hp : p < slots.length) {e : Element} {i j : Nat} :
    j ∈ childrenOf (push slots p e) i ↔
      j ∈ childrenOf slots i ∨ i = p ∧ j = slots.length := by
  rw [childrenOf_push hp]
  split
  · next hi => simp [hi]
  · next hi => simp [hi]

theorem Below.push {i j : Nat} (h : Below slots i j) (hp : p < slots.length) (e : Element) :
    Below (push slots p e) i j := by
  refine Relation.ReflTransGen.mono ?_ _ _ h
  exact fun a b hab => (mem_childrenOf_push hp).mpr (.inl hab)

/-- The new node is below the nodes that its parent is below; nothing else changes. -/
theorem below_push_iff (hp : p < slots.length) {e : Element} {i j : Nat} :
    Below (Slot.push slots p e) i j ↔
      Below slots i j ∨ j = slots.length ∧ Below slots i p := by
  constructor
  · intro h
    induction h with
    | refl => exact .inl Relation.ReflTransGen.refl
    | @tail k j _ hchild ih =>
        rcases (mem_childrenOf_push hp).mp hchild with hold | ⟨rfl, rfl⟩
        · rcases ih with hbelow | ⟨rfl, _⟩
          · exact .inl (Relation.ReflTransGen.tail hbelow hold)
          · rw [childrenOf_eq_nil (Nat.le_refl _)] at hold
            cases hold
        · rcases ih with hbelow | ⟨heq, _⟩
          · exact .inr ⟨rfl, hbelow⟩
          · exact absurd heq (Nat.ne_of_lt hp)
  · rintro (hbelow | ⟨rfl, hbelow⟩)
    · exact hbelow.push hp e
    · exact Relation.ReflTransGen.tail (hbelow.push hp e)
        ((mem_childrenOf_push hp).mpr (.inr ⟨rfl, rfl⟩))

/-! ### The rightmost path -/

/-- The last node of a table, or a node above it. -/
def Rightmost (slots : List Slot) (p : Nat) : Prop :=
  p < slots.length ∧ Below slots p (slots.length - 1)

/-- The new row is the last one. -/
theorem rightmost_push_self (e : Element) : Rightmost (push slots p e) slots.length := by
  refine ⟨by simp, ?_⟩
  rw [length_push, Nat.add_sub_cancel]
  exact Relation.ReflTransGen.refl

namespace WellFormed

theorem parent_push (h : WellFormed slots) (hp : p < slots.length) (e : Element) {i : Nat}
    (hpos : 0 < i) (hi : i < (Slot.push slots p e).length) :
    ∃ q, parentOf (Slot.push slots p e) i = some q ∧ q < i ∧
      (childrenOf (Slot.push slots p e) q).count i = 1 := by
  rw [length_push] at hi
  simp only [parentOf_push, childrenOf_push hp]
  by_cases hlast : i = slots.length
  · subst hlast
    have hnew : slots.length ∉ childrenOf slots p := fun hmem =>
      Nat.lt_irrefl _ (h.child p _ hmem).1
    refine ⟨p, if_pos rfl, hp, ?_⟩
    rw [if_pos rfl, List.count_append, List.count_eq_zero_of_not_mem hnew,
      List.count_singleton_self]
  · obtain ⟨q, hparent, hq, hcount⟩ := h.parent i hpos (by omega)
    refine ⟨q, by rwa [if_neg hlast], hq, ?_⟩
    split
    · next heq =>
        rw [List.count_append, ← heq, hcount, List.count_eq_zero_of_not_mem]
        simpa using hlast
    · exact hcount

theorem child_push (h : WellFormed slots) (hp : p < slots.length) (e : Element) {q i : Nat}
    (hi : i ∈ childrenOf (Slot.push slots p e) q) :
    i < (Slot.push slots p e).length ∧ parentOf (Slot.push slots p e) i = some q := by
  rw [length_push, parentOf_push]
  rcases (mem_childrenOf_push hp).mp hi with hold | ⟨rfl, rfl⟩
  · obtain ⟨hlt, hparent⟩ := h.child q i hold
    exact ⟨Nat.lt_succ_of_lt hlt, by rwa [if_neg (Nat.ne_of_lt hlt)]⟩
  · exact ⟨Nat.lt_succ_self _, if_pos rfl⟩

theorem increasing_push (h : WellFormed slots) (hp : p < slots.length) (e : Element) (q : Nat) :
    (childrenOf (Slot.push slots p e) q).Pairwise (· < ·) := by
  rw [childrenOf_push hp]
  split
  · rw [List.pairwise_append]
    refine ⟨h.increasing p, List.pairwise_singleton _ _, fun a ha b hb => ?_⟩
    rw [List.mem_singleton.mp hb]
    exact (h.child p a ha).1
  · exact h.increasing q

theorem interval_push (h : WellFormed slots) (hp : Rightmost slots p) (e : Element) {i : Nat}
    (hi : i < (Slot.push slots p e).length) :
    ∃ stop ≤ (Slot.push slots p e).length,
      ∀ j, Below (Slot.push slots p e) i j ↔ i ≤ j ∧ j < stop := by
  obtain ⟨hlt, hlast⟩ := hp
  rw [length_push] at hi ⊢
  simp only [below_push_iff hlt]
  by_cases hnew : i = slots.length
  · refine ⟨slots.length + 1, Nat.le_refl _, fun j => ?_⟩
    constructor
    · rintro (hbelow | ⟨rfl, _⟩)
      · have heq := hbelow.eq_of_length_le (Nat.le_of_eq hnew.symm)
        omega
      · omega
    · intro hj
      rw [show j = i by omega]
      exact .inl Relation.ReflTransGen.refl
  · obtain ⟨stop, hstop, hbelow⟩ := h.interval i (by omega)
    by_cases hip : Below slots i p
    · -- The subtree of `i` reaches up to the end of the table, so the new node extends it.
      have hend := (hbelow _).mp (hip.trans hlast)
      refine ⟨slots.length + 1, Nat.le_refl _, fun j => ?_⟩
      rw [hbelow, and_iff_left hip]
      omega
    · refine ⟨stop, by omega, fun j => ?_⟩
      rw [or_iff_left fun hj => hip hj.2]
      exact hbelow j

/-- A row below a rightmost node keeps a table well-formed. -/
theorem push (h : WellFormed slots) (hp : Rightmost slots p) (e : Element) :
    WellFormed (Slot.push slots p e) where
  root := by
    obtain ⟨s, hs, hkind, hparent⟩ := h.root
    have hpos : 0 ≠ slots.length := by
      have := hp.1
      omega
    rw [getElem?_push, if_neg hpos, hs]
    refine ⟨_, rfl, ?_⟩
    split
    · exact ⟨hkind, hparent⟩
    · exact ⟨hkind, hparent⟩
  parent _ hpos hi := h.parent_push hp.1 e hpos hi
  child _ _ hi := h.child_push hp.1 e hi
  increasing := h.increasing_push hp.1 e
  interval _ hi := h.interval_push hp e hi

end WellFormed

/-! ### The rows of a forest -/

mutual

/-- Add the nodes of a tree in preorder, its root as the last child of node `p`. -/
def pushTree (slots : List Slot) (p : Nat) : Lowered → List Slot
  | .node e ts => pushForest (push slots p e) slots.length ts

/-- Add the nodes of a forest, tree after tree, each root as the last child of node `p`. -/
def pushForest (slots : List Slot) (p : Nat) : List Lowered → List Slot
  | [] => slots
  | t :: ts => pushForest (pushTree slots p t) p ts

end

/-- Forests are added one after the other. -/
theorem pushForest_append (slots : List Slot) (p : Nat) (xs ys : List Lowered) :
    pushForest slots p (xs ++ ys) = pushForest (pushForest slots p xs) p ys := by
  induction xs generalizing slots with
  | nil => rfl
  | cons x xs ih => exact ih (pushTree slots p x)

/-- What is kept when rows are added at and below node `p`. -/
structure Grown (slots : List Slot) (p : Nat) (slots' : List Slot) : Prop where
  wellFormed : WellFormed slots'
  rightmost : Rightmost slots' p
  below : ∀ {i j}, Below slots i j → Below slots' i j

mutual

theorem grown_pushTree {slots : List Slot} {p : Nat} (h : WellFormed slots)
    (hp : Rightmost slots p) : ∀ t : Lowered, Grown slots p (pushTree slots p t)
  | .node e ts => by
      -- The new row is the last one, so the forest below it goes to a rightmost node again.
      have hforest := grown_pushForest (h.push hp e) (rightmost_push_self e) ts
      have hnew : Below (push slots p e) p slots.length :=
        (below_push_iff hp.1).mpr (.inr ⟨rfl, Relation.ReflTransGen.refl⟩)
      rw [pushTree]
      exact ⟨hforest.wellFormed,
        ⟨Nat.lt_trans hp.1 hforest.rightmost.1, (hforest.below hnew).trans hforest.rightmost.2⟩,
        fun hbelow => hforest.below (hbelow.push hp.1 e)⟩

/-- The nodes of a forest below a rightmost node keep a table well-formed, and leave the node
rightmost. -/
theorem grown_pushForest {slots : List Slot} {p : Nat} (h : WellFormed slots)
    (hp : Rightmost slots p) : ∀ ts : List Lowered, Grown slots p (pushForest slots p ts)
  | [] => ⟨h, hp, id⟩
  | t :: ts => by
      have htree := grown_pushTree h hp t
      have hforest := grown_pushForest htree.wellFormed htree.rightmost ts
      rw [pushForest]
      exact ⟨hforest.wellFormed, hforest.rightmost,
        fun hbelow => hforest.below (htree.below hbelow)⟩

end

/-! ### The table of a module -/

mutual

theorem length_ofTree (parent : Option Nat) (n : Nat) :
    ∀ t : Lowered, (ofTree parent n t).length = t.size
  | .node e ts => by simp [ofTree, Tree.size, length_ofForest n (n + 1) ts]

theorem length_ofForest (parent n : Nat) :
    ∀ ts : List Lowered, (ofForest parent n ts).length = Tree.forestSize ts
  | [] => rfl
  | t :: ts => by
      simp [ofForest, Tree.forestSize, length_ofTree (some parent) n t,
        length_ofForest parent (n + t.size) ts]

end

theorem modify_append {α : Type} (f : α → α) :
    ∀ (xs ys : List α) (i : Nat), (xs ++ ys).modify i f =
      if i < xs.length then xs.modify i f ++ ys else xs ++ ys.modify (i - xs.length) f
  | [], ys, i => by simp
  | x :: xs, ys, 0 => by simp
  | x :: xs, ys, i + 1 => by
      simp only [List.cons_append, List.modify_succ_cons, modify_append f xs ys i,
        List.length_cons, Nat.add_lt_add_iff_right, Nat.add_sub_add_right]
      split
      · rfl
      · rfl

mutual

theorem pushTree_eq_append (slots : List Slot) (p : Nat) :
    ∀ t : Lowered, pushTree slots p t =
      slots.modify p (addChildren [slots.length]) ++ ofTree (some p) slots.length t
  | .node e ts => by
      have hlast : slots.length < (push slots p e).length := by simp
      rw [pushTree, pushForest_eq_append hlast ts, length_push, push, modify_append,
        List.length_modify, if_neg (Nat.lt_irrefl _), Nat.sub_self, List.append_assoc]
      rfl

/-- The rows of a forest come after the old ones, which stay as they are but for the child list
of the node that the forest is added to. -/
theorem pushForest_eq_append {slots : List Slot} {p : Nat} (hp : p < slots.length) :
    ∀ ts : List Lowered, pushForest slots p ts =
      slots.modify p (addChildren (rootNumbers slots.length ts)) ++
        ofForest p slots.length ts
  | [] => by simp [pushForest, rootNumbers, ofForest]
  | t :: ts => by
      have htree := pushTree_eq_append slots p t
      have hlength : (pushTree slots p t).length = slots.length + t.size := by
        rw [htree, List.length_append, List.length_modify, length_ofTree]
      rw [pushForest, pushForest_eq_append (by omega) ts, hlength, htree, modify_append,
        List.length_modify, if_pos hp, List.modify_modify_eq, addChildren_comp,
        List.append_assoc]
      rfl

end

/-! ### Rows and nodes -/

open Cursor

/-- The row of a node, with the numbers of the nodes around it. -/
def ofNode (n : Node) : Slot := ⟨n.parent?.map index, n.label, n.children.map index⟩

theorem map_index_fan (e : Element) (above : List (Frame Element)) :
    ∀ before ts : List Lowered, (fan e above before ts).map index =
      rootNumbers (Tree.forestSize before + 1 + offset above) ts
  | _, [] => rfl
  | before, t :: ts => by
      rw [fan, List.map_cons, map_index_fan e above (t :: before) ts, Tree.forestSize_cons_add]
      rfl

mutual

/-- The rows of a tree are those of its nodes, in preorder. -/
theorem ofTree_eq_map_ofNode (above : List (Frame Element)) :
    ∀ t : Lowered, ofTree ((Cursor.mk t above).parent?.map index) (offset above) t =
      (Tree.cursorsBelow above t).map ofNode
  | .node e ts => by
      have hforest := ofForest_eq_map_ofNode e above [] ts
      have hfan := map_index_fan e above [] ts
      simp only [Tree.forestSize, Nat.zero_add, Nat.add_comm 1] at hforest hfan
      rw [Tree.cursorsBelow, List.map_cons, ofTree, hforest, ← hfan]
      rfl

theorem ofForest_eq_map_ofNode (e : Element) (above : List (Frame Element)) :
    ∀ before ts : List Lowered,
      ofForest (offset above) (Tree.forestSize before + 1 + offset above) ts =
        (Tree.forestCursors e above before ts).map ofNode
  | _, [] => rfl
  | before, t :: ts => by
      have htree := ofTree_eq_map_ofNode (⟨before, e, ts⟩ :: above) t
      have hforest := ofForest_eq_map_ofNode e above (t :: before) ts
      rw [Tree.forestSize_cons_add] at hforest
      rw [Tree.forestCursors, List.map_append, ← htree, ← hforest]
      rfl

end

end Slot

namespace ParsedModule

/-- The table of a module comes about below the row of the source file. -/
theorem slots_eq_pushForest (m : ParsedModule) :
    m.slots = Slot.pushForest [⟨none, m.root.label, []⟩] 0 m.root.children := by
  rw [Slot.pushForest_eq_append (by simp), slots]
  cases m.root with
  | node e ts => rfl

/-- The table has the row of the node with that number at every number. -/
theorem getElem?_slots_eq_some_iff {m : ParsedModule} {i : Nat} {s : Slot} :
    m.slots[i]? = some s ↔ ∃ n ∈ m.root.cursors, n.index = i ∧ Slot.ofNode n = s := by
  have hslots : m.slots = m.root.cursors.map Slot.ofNode := Slot.ofTree_eq_map_ofNode [] m.root
  rw [hslots, List.getElem?_map, Option.map_eq_some_iff]
  refine exists_congr fun n => ?_
  rw [← and_assoc, ← Tree.cursor?_eq_some_iff]
  rfl

end ParsedModule

end PropSurface
