import PropSurface.Proofs.ParsedModule.NodeTable
import PropSurface.Proofs.Session.Transparency
import PropSurface.Proofs.Tree.Ancestry

/-!
# Moving between the nodes of a module

The moves to siblings and ancestors agree with the children of the nodes, with their depths and with
the walks below them.  On the node table they come down to two links: the number of a node is
searched on the child list of its parent, and parents are followed until a node with the wanted
property is met.

**Definitions.**
* `Node.Coherent`: how the moves from a node fit the tree that it belongs to.
* `Slot.followingOf`: the numbers after a number on the child list of its parent.
* `Slot.Climbs`: the search along the parents of a table.
* `ParsedModule.holdsAt`: a property of nodes as one of numbers.
* `ParsedModule.Linked`: the moves from a node are those on the table.

**Results.**
* `Node.ancestor?_eq_some_iff`, `Node.ancestor?_eq_none_iff`: the nearest ancestor with a property.
* `Node.coherent_of_mem_cursors`: the moves from all nodes of a tree fit.
* `ParsedModule.followingOf_slots`: the siblings that follow, found by number.
* `ParsedModule.climbs_slots`, `Slot.Climbs.unique`: the search along the parents ends with the
  nearest ancestor, and with nothing else.
* `ParsedModule.navigation_coherent`: the moves on a module and on its table.
-/

namespace PropSurface

open Cursor

namespace Node

/-! ### Moves on the tree -/

/-- The ancestor found is the one with the property below which there is no other one on the way. -/
theorem ancestor?_eq_some_iff {x a : Node} {p : Node → Bool} :
    x.ancestor? p = some a ↔
      AncestorOf a x ∧ p a = true ∧ ∀ b, AncestorOf a b → AncestorOf b x → p b = false := by
  rw [ancestor?, List.find?_eq_some_iff_append]
  constructor
  · rintro ⟨hp, nearer, further, hancestors, hnearer⟩
    refine ⟨?_, hp, fun b hab hbx => ?_⟩
    · rw [← mem_ancestors_iff, hancestors]
      exact List.mem_append_right _ List.mem_cons_self
    · simpa using hnearer b ((mem_nearer_iff hancestors).mpr ⟨hab, hbx⟩)
  · rintro ⟨habove, hp, hbetween⟩
    obtain ⟨nearer, further, hancestors⟩ :=
      List.append_of_mem (mem_ancestors_iff.mpr habove)
    refine ⟨hp, nearer, further, hancestors, fun b hb => ?_⟩
    obtain ⟨hab, hbx⟩ := (mem_nearer_iff hancestors).mp hb
    rw [hbetween b hab hbx, Bool.not_false]

theorem ancestor?_eq_none_iff {x : Node} {p : Node → Bool} :
    x.ancestor? p = none ↔ ∀ a, AncestorOf a x → p a = false := by
  simp only [ancestor?, List.find?_eq_none, mem_ancestors_iff, Bool.not_eq_true]

/-- The parent is tried first, and then the ancestors of the parent. -/
theorem ancestor?_of_parent? {x q : Node} (h : x.parent? = some q) (p : Node → Bool) :
    x.ancestor? p = if p q then some q else q.ancestor? p := by
  rw [ancestor?, ancestors_of_parent? h]
  cases hp : p q with
  | true => simp [hp]
  | false => simp [hp, ancestor?]

/-- Every ancestor is found by some property: that of its depth, which no other one shares. -/
theorem exists_ancestor?_iff {x a : Node} : (∃ p, x.ancestor? p = some a) ↔ AncestorOf a x := by
  refine ⟨fun ⟨p, hp⟩ => (ancestor?_eq_some_iff.mp hp).1, fun habove => ?_⟩
  refine ⟨fun b => b.depth == a.depth, ancestor?_eq_some_iff.mpr ⟨habove, beq_self_eq_true _, ?_⟩⟩
  intro b hab _
  exact beq_false_of_ne (Nat.ne_of_gt hab.depth_lt)

/-- How the moves from a node `x` fit the tree `t`. -/
structure Coherent (t : Lowered) (x : Node) : Prop where
  /-- From the first child on, the next siblings are the other children, and there is none after
  the last one. -/
  children : ∀ c, x.children.head? = some c → ∀ k, c.along k = x.children[k]?
  /-- The closest sibling with a property is the first such node among the children of the parent
  that come after the node. -/
  closest : ∀ q, x.parent? = some q → q.children.Nodup ∧
    ∃ before after, q.children = before ++ x :: after ∧ ∀ p, x.closest? p = after.find? p
  /-- Only the root has no parent, and it has no siblings. -/
  root : (x.parent? = none ↔ x = .ofRoot t) ∧ (x = .ofRoot t → ∀ p, x.closest? p = none)
  /-- The parents of `x` lead to the root in as many steps as `x` is deep. -/
  parents : ∀ k, x.up k = some (.ofRoot t) ↔ k = x.depth
  /-- There they end. -/
  highest : ∀ k, x.up k = none ↔ x.depth < k
  /-- The depth is the one at which a traversal of the tree meets the node. -/
  depth : ∀ k, (x, k) ∈ (Cursor.ofRoot t).traverse (fun _ _ => false) none ↔ k = x.depth
  /-- The ancestor with a property is the only one with it and with no such node on the way. -/
  ancestor : ∀ p a, x.ancestor? p = some a ↔
    AncestorOf a x ∧ p a = true ∧ ∀ b, AncestorOf a b → AncestorOf b x → p b = false
  /-- No ancestor is found only if none has the property. -/
  noAncestor : ∀ p, x.ancestor? p = none ↔ ∀ a, AncestorOf a x → p a = false
  /-- A node can be found as an ancestor of `x` if and only if `x` is among its descendants. -/
  descendant : ∀ a, (∃ p, x.ancestor? p = some a) ↔ ∃ k, (x, k) ∈ a.descendants none

/-- The moves from every node of a tree fit the tree. -/
theorem coherent_of_mem_cursors {t : Lowered} {x : Node} (hx : x ∈ t.cursors) : Coherent t x where
  children _ hc := along_eq_getElem? hc
  closest q hq := by
    obtain ⟨before, hchildren⟩ := children_eq_append hq
    exact ⟨q.nodup_children, before, x.following, hchildren, fun _ => rfl⟩
  root := by
    refine ⟨parent?_eq_none_iff_root hx, ?_⟩
    rintro rfl p
    rfl
  parents _ := up_eq_root_iff hx
  highest _ := up_eq_none_iff
  depth _ := mem_traverse_root_iff hx
  ancestor _ _ := ancestor?_eq_some_iff
  noAncestor _ := ancestor?_eq_none_iff
  descendant _ := exists_ancestor?_iff.trans ancestorOf_iff_mem_descendants

end Node

/-! ### Moves on the table -/

namespace Slot

/-- The numbers after number `i` on the child list of its parent. -/
def followingOf (slots : List Slot) (i : Nat) : List Nat :=
  match parentOf slots i with
  | none => []
  | some p => (childrenOf slots p).drop ((childrenOf slots p).idxOf i + 1)

/-- The search that goes from a number to its parent until it meets a number with property `p`, and
what it ends with. -/
inductive Climbs (slots : List Slot) (p : Nat → Bool) : Option Nat → Option Nat → Prop
  | off : Climbs slots p none none
  | found {i : Nat} (h : p i = true) : Climbs slots p (some i) (some i)
  | up {i : Nat} {r : Option Nat} (h : p i = false) (hrest : Climbs slots p (parentOf slots i) r) :
      Climbs slots p (some i) r

/-- The search can end in one way only. -/
theorem Climbs.unique {slots : List Slot} {p : Nat → Bool} {i r r' : Option Nat}
    (h : Climbs slots p i r) (h' : Climbs slots p i r') : r = r' := by
  induction h with
  | off =>
      cases h'
      rfl
  | found hp =>
      cases h' with
      | found => rfl
      | up hnot =>
          rw [hp] at hnot
          cases hnot
  | up hnot _ ih =>
      cases h' with
      | found hp =>
          rw [hp] at hnot
          cases hnot
      | up _ hrest => exact ih hrest

end Slot

namespace ParsedModule

open Slot

variable {m : ParsedModule} {x : Node}

/-- Whether the node of number `i` has the property. -/
def holdsAt (m : ParsedModule) (p : Node → Bool) (i : Nat) : Bool := (m.root.cursor? i).any p

theorem holdsAt_index (hx : x ∈ m.root.cursors) (p : Node → Bool) :
    m.holdsAt p x.index = p x := by
  rw [holdsAt, Tree.cursor?_eq_some_iff.mpr ⟨hx, rfl⟩, Option.any_some]

theorem getElem?_slots_index (hx : x ∈ m.root.cursors) :
    m.slots[x.index]? = some (Slot.ofNode x) :=
  getElem?_slots_eq_some_iff.mpr ⟨x, hx, rfl, rfl⟩

theorem parentOf_slots (hx : x ∈ m.root.cursors) :
    parentOf m.slots x.index = x.parent?.map index := by
  rw [parentOf, getElem?_slots_index hx, Option.bind_some, ofNode]

theorem childrenOf_slots (hx : x ∈ m.root.cursors) :
    childrenOf m.slots x.index = x.children.map index := by
  rw [childrenOf, getElem?_slots_index hx, Option.map_some, Option.getD_some, ofNode]

/-- The number of a node stands once on the child list of its parent, so what comes after it are
the numbers of the siblings that follow. -/
theorem followingOf_slots (hx : x ∈ m.root.cursors) :
    followingOf m.slots x.index = x.following.map index := by
  rw [followingOf, parentOf_slots hx]
  cases hparent : x.parent? with
  | none =>
      rw [(parent?_eq_none_iff_root hx).mp hparent]
      rfl
  | some q =>
      obtain ⟨before, hchildren⟩ := children_eq_append hparent
      have hpairwise := q.pairwise_children
      rw [hchildren, List.pairwise_append] at hpairwise
      have hnew : x.index ∉ before.map index := by
        rintro hmem
        obtain ⟨y, hy, hsame⟩ := List.mem_map.mp hmem
        have hless := (hpairwise.2.2 y hy x List.mem_cons_self).index_lt
        omega
      simp only [Option.map_some, childrenOf_slots (mem_cursors_of_parent? hx hparent)]
      rw [hchildren, List.map_append, List.map_cons, List.idxOf_append_of_notMem hnew,
        List.idxOf_cons_self, Nat.add_zero, List.drop_append, List.drop_of_length_le (by simp)]
      simp

/-- From the parent of a node on, the search along the parents ends with the nearest ancestor that
has the property. -/
theorem climbs_slots (hx : x ∈ m.root.cursors) (p : Node → Bool) :
    Climbs m.slots (m.holdsAt p) (parentOf m.slots x.index) ((x.ancestor? p).map index) := by
  rw [parentOf_slots hx]
  -- By induction on the depth, which is one less at the parent.
  induction hdepth : x.depth generalizing x with
  | zero =>
      have hparent := parent?_eq_none_iff.mpr hdepth
      rw [hparent, Node.ancestor?, ancestors_of_parent?_eq_none hparent]
      exact .off
  | succ d ih =>
      cases hparent : x.parent? with
      | none =>
          rw [parent?_eq_none_iff.mp hparent] at hdepth
          cases hdepth
      | some q =>
          have hq := mem_cursors_of_parent? hx hparent
          have hrest := ih hq (Nat.succ.inj ((depth_of_parent? hparent).symm.trans hdepth))
          rw [← parentOf_slots hq] at hrest
          rw [Node.ancestor?_of_parent? hparent]
          cases hp : p q with
          | true => exact .found ((holdsAt_index hq p).trans hp)
          | false => exact .up ((holdsAt_index hq p).trans hp) hrest

/-- How the moves from a node are found on the table of its module. -/
structure Linked (m : ParsedModule) (x : Node) : Prop where
  parent : parentOf m.slots x.index = x.parent?.map index
  children : childrenOf m.slots x.index = x.children.map index
  /-- The number of `x` is searched on the child list of its parent. -/
  following : followingOf m.slots x.index = x.following.map index
  /-- The search along the parents comes to an end, and finds the nearest ancestor. -/
  ancestor : ∀ p r, Climbs m.slots (m.holdsAt p) (parentOf m.slots x.index) r ↔
    r = (x.ancestor? p).map index

theorem linked_of_mem_cursors (hx : x ∈ m.root.cursors) : Linked m x where
  parent := parentOf_slots hx
  children := childrenOf_slots hx
  following := followingOf_slots hx
  ancestor p r := by
    refine ⟨fun h => h.unique (climbs_slots hx p), ?_⟩
    rintro rfl
    exact climbs_slots hx p

/-- The moves from every node of a module fit its tree, and they are the moves on its table. -/
theorem navigation_coherent (m : ParsedModule) {x : Node} (hx : x ∈ m.root.cursors) :
    x.Coherent m.root ∧ m.Linked x :=
  ⟨Node.coherent_of_mem_cursors hx, linked_of_mem_cursors hx⟩

/-- A base of the third type of the diamond. -/
def diamondBase : Node := (Diamond.entry.root.cursor? 13).get (by decide +kernel)

theorem diamondBase_mem_cursors : diamondBase ∈ Diamond.entry.root.cursors :=
  (Tree.cursor?_eq_some_iff.mp (Option.some_get _).symm).1

/-- The other base is the next sibling; the type is two steps up, and the source file three. -/
theorem navigation_coherent_diamond :
    diamondBase ∈ Diamond.entry.root.cursors ∧
      followingOf Diamond.entry.slots 13 = [15] ∧
      Climbs Diamond.entry.slots (Diamond.entry.holdsAt (Node.isNamed "B")) (some 12) (some 10) ∧
      diamondBase.up 3 = some (.ofRoot Diamond.entry.root) ∧ diamondBase.up 4 = none := by
  obtain ⟨hcoherent, hlinked⟩ := navigation_coherent Diamond.entry diamondBase_mem_cursors
  have hindex : diamondBase.index = 13 := by decide +kernel
  have hdepth : diamondBase.depth = 3 := by decide +kernel
  have hparent : parentOf Diamond.entry.slots diamondBase.index = some 12 :=
    hlinked.parent.trans (by decide +kernel)
  have hfound := (hlinked.ancestor (Node.isNamed "B") (some 10)).mpr (by decide +kernel)
  refine ⟨diamondBase_mem_cursors, ?_, hparent ▸ hfound, ?_, ?_⟩
  · rw [← hindex, hlinked.following]
    decide +kernel
  · exact (hcoherent.parents 3).mpr hdepth.symm
  · exact (hcoherent.highest 4).mpr (hdepth ▸ Nat.lt_succ_self 3)

end ParsedModule
end PropSurface
