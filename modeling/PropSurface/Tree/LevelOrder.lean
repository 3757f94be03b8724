import PropSurface.Queue
import PropSurface.Tree.Cursor

/-!
# Walks in level order

**Input.**  A node of a tree, optionally with a bound on the depth below it.

**Algorithm.**
* A `Walk` is a queue of nodes with their depths and the bound in force.  One step
  yields the head of the queue and, below the bound, appends its children.
* `Cursor.sweep` goes level by level: it visits a whole frontier, then the children
  of the nodes that were not pruned.

**Results.**  `Walk.drain` takes as many steps as there are nodes left under the
queue, and no walk yields more than that; `Cursor.descendants` lists the nodes
strictly below a node in this order, each with its depth below the start;
`Cursor.firstBelow?` searches that list and goes no further than it has to.
-/

namespace PropSurface

universe u v

variable {α : Type u}

/-- Whether depth `d` is allowed by an optional bound. -/
def withinBound (bound : Option Nat) (d : Nat) : Bool :=
  bound.all (d ≤ ·)

/-- A walk in level order that can be stopped, resumed and bounded at any time: the
nodes that wait, each with its depth, and the bound in force. -/
structure Walk (α : Type u) where
  queue : Queue (Cursor α × Nat)
  bound : Option Nat

namespace Walk

/-- The walk over the nodes strictly below `c`, without a bound. -/
def below (c : Cursor α) : Walk α :=
  ⟨.ofList (c.children.map (·, 1)), none⟩

/-- Replace the bound; waiting nodes that are too deep are dropped. -/
def rebound (w : Walk α) (bound : Option Nat) : Walk α :=
  ⟨w.queue.filter (fun entry => withinBound bound entry.2), bound⟩

/-- What comes in when an entry is yielded: the children of the node, if the bound
admits their depth. -/
def opened (bound : Option Nat) (entry : Cursor α × Nat) : List (Cursor α × Nat) :=
  if withinBound bound (entry.2 + 1) then entry.1.children.map (·, entry.2 + 1) else []

/-- One step: the entry at the head of the queue, and the walk that goes on from there. -/
def step? (w : Walk α) : Option ((Cursor α × Nat) × Walk α) :=
  w.queue.pop?.map fun (entry, rest) =>
    (entry, ⟨rest.pushAll (opened w.bound entry), w.bound⟩)

/-- A step yields the head of the queue and appends what it opens. -/
theorem queue_of_step? {w w' : Walk α} {entry : Cursor α × Nat}
    (h : w.step? = some (entry, w')) :
    ∃ rest, w.queue.toList = entry :: rest ∧
      w'.queue.toList = rest ++ opened w.bound entry ∧ w'.bound = w.bound := by
  obtain ⟨⟨x, rest⟩, hpop, hx⟩ := Option.map_eq_some_iff.mp h
  simp only [Prod.mk.injEq] at hx
  obtain ⟨rfl, rfl⟩ := hx
  exact ⟨rest.toList, Queue.toList_eq_cons_of_pop? hpop, by simp, rfl⟩

/-- Up to `n` steps: what they yield, and the walk that is left. -/
def take : Nat → Walk α → List (Cursor α × Nat) × Walk α
  | 0, w => ([], w)
  | n + 1, w =>
      match w.step? with
      | none => ([], w)
      | some (entry, w') =>
          let (entries, left) := take n w'
          (entry :: entries, left)

/-- Number of nodes at and under the waiting ones. -/
def remaining (w : Walk α) : Nat :=
  Tree.forestSize (w.queue.toList.map (fun entry => entry.1.focus))

/-- No more nodes come in than there are below the yielded one. -/
theorem forestSize_opened_le (bound : Option Nat) (entry : Cursor α × Nat) :
    Tree.forestSize ((opened bound entry).map (fun e => e.1.focus))
      ≤ Tree.forestSize entry.1.focus.children := by
  unfold opened
  split
  · rw [← Cursor.map_focus_children entry.1]
    simp [List.map_map, Function.comp_def]
  · simp [Tree.forestSize]

/-- A step uses up at least the node it yields. -/
theorem remaining_lt_of_step? {w w' : Walk α} {entry : Cursor α × Nat}
    (h : w.step? = some (entry, w')) : w'.remaining < w.remaining := by
  obtain ⟨rest, hqueue, hqueue', _⟩ := queue_of_step? h
  have hopened := forestSize_opened_le w.bound entry
  rcases entry with ⟨⟨⟨a, ts⟩, above⟩, d⟩
  simp only [Tree.children_node] at hopened
  simp only [remaining, hqueue, hqueue', List.map_append, List.map_cons,
    Tree.forestSize_append, Tree.forestSize, Tree.size]
  omega

/-- Everything the walk still yields. -/
def drain (w : Walk α) : List (Cursor α × Nat) := (w.take w.remaining).1

/-- What `f` gives for the first of the next `n` nodes for which it gives something.  The
walk is left there. -/
def firstWithin? {β : Type v} (f : Cursor α → Option β) : Nat → Walk α → Option β
  | 0, _ => none
  | n + 1, w =>
      match w.step? with
      | none => none
      | some (entry, w') =>
          match f entry.1 with
          | some b => some b
          | none => firstWithin? f n w'

theorem firstWithin?_eq_findSome? {β : Type v} (f : Cursor α → Option β) (n : Nat)
    (w : Walk α) : w.firstWithin? f n = ((w.take n).1.map (·.1)).findSome? f := by
  induction n generalizing w with
  | zero => rfl
  | succ n ih =>
      cases hstep : w.step? with
      | none => simp [firstWithin?, take, hstep]
      | some next =>
          cases hf : f next.1.1 with
          | none => simp [firstWithin?, take, hstep, hf, ih]
          | some b => simp [firstWithin?, take, hstep, hf]

/-- What `f` gives for the first node of the walk for which it gives something. -/
def first? {β : Type v} (w : Walk α) (f : Cursor α → Option β) : Option β :=
  w.firstWithin? f w.remaining

/-- The first answer is the first one on the list of all nodes. -/
theorem first?_eq_findSome? {β : Type v} (w : Walk α) (f : Cursor α → Option β) :
    w.first? f = (w.drain.map (·.1)).findSome? f :=
  firstWithin?_eq_findSome? f w.remaining w

end Walk

namespace Cursor

/-- The nodes strictly below this one within the bound, in level order, each with its
depth below the start. -/
def descendants (c : Cursor α) (bound : Option Nat) : List (Cursor α × Nat) :=
  ((Walk.below c).rebound bound).drain

/-- What `f` gives for the first node strictly below, within the bound and in level order,
for which it gives something. -/
def firstBelow? {β : Type v} (c : Cursor α) (bound : Option Nat)
    (f : Cursor α → Option β) : Option β :=
  ((Walk.below c).rebound bound).first? f

theorem firstBelow?_eq_findSome? {β : Type v} (c : Cursor α) (bound : Option Nat)
    (f : Cursor α → Option β) :
    c.firstBelow? bound f = ((c.descendants bound).map (·.1)).findSome? f :=
  Walk.first?_eq_findSome? _ f

/-- Visit a frontier at depth `d`, then the children of its nodes that `skip` does not
prune, level after level.  `levels` bounds the number of levels. -/
def sweep (skip : Cursor α → Nat → Bool) (bound : Option Nat) :
    Nat → Nat → List (Cursor α) → List (Cursor α × Nat)
  | 0, _, _ => []
  | levels + 1, d, frontier =>
      if frontier.isEmpty || !withinBound bound d then []
      else
        frontier.map (·, d) ++
          sweep skip bound levels (d + 1)
            ((frontier.filter (fun c => !skip c d)).flatMap children)

/-- The nodes at and below this one, level by level, leaving out everything below a
node at which `skip` holds.  A tree has no more levels than nodes. -/
def traverse (c : Cursor α) (skip : Cursor α → Nat → Bool) (bound : Option Nat) :
    List (Cursor α × Nat) :=
  sweep skip bound c.focus.size 0 [c]

end Cursor

end PropSurface
