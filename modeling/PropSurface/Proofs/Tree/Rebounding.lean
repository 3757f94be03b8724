import PropSurface.Proofs.Tree.Descendants

/-!
# Walks whose bound changes on the way

A walk can be given another bound at any time.  A tighter bound drops nodes that wait; a looser one
does not bring them back, nor the children of the nodes that were yielded meanwhile.  Whatever is
done, what was yielded and what waits stay in the order of the levels.

**Definitions.**
* `Walk.Move`, `Walk.call`, `Walk.run`: the calls on a walk, and what they yield.
* `Walk.boundAfter`: the bound that a sequence of calls leaves in force.
* `Walk.Tightening`: a sequence of calls that never makes the bound looser.
* `Walk.LinedUp`: how two nodes that wait stand to one another.
* `Walk.Consistent`: what holds after any sequence of calls.
* `Walk.OnCourse`: what holds after a tightening one.

**Results.**
* `Walk.Consistent.call`, `Walk.OnCourse.call`: one call keeps the invariants.
* `Walk.run_consistent`: what a sequence of calls yields.
-/

namespace PropSurface

universe u

variable {α : Type u}

namespace Walk

/-! ### Calls -/

/-- A call on a walk. -/
inductive Move where
  | next
  | rebound (bound : Option Nat)
deriving DecidableEq, Repr

/-- What a call yields, and the walk after it.  A walk at its end stays as it is. -/
def call (w : Walk α) : Move → Option (Cursor α × Nat) × Walk α
  | .next =>
      match w.step? with
      | none => (none, w)
      | some (entry, w') => (some entry, w')
  | .rebound bound => (none, w.rebound bound)

/-- What a sequence of calls yields, and the walk after them. -/
def run : Walk α → List Move → List (Cursor α × Nat) × Walk α
  | w, [] => ([], w)
  | w, move :: moves =>
      ((w.call move).1.toList ++ ((w.call move).2.run moves).1, ((w.call move).2.run moves).2)

/-- The bound in force after a call. -/
def inForce (bound : Option Nat) : Move → Option Nat
  | .next => bound
  | .rebound bound' => bound'

/-- The bound in force after a sequence of calls: that of the last one that sets a bound. -/
def boundAfter (bound : Option Nat) (moves : List Move) : Option Nat := moves.foldl inForce bound

/-- No call makes the bound looser. -/
def Tightening : Option Nat → List Move → Prop
  | _, [] => True
  | bound, move :: moves =>
      Tighter (inForce bound move) bound ∧ Tightening (inForce bound move) moves

theorem bound_call (w : Walk α) (move : Move) : (w.call move).2.bound = inForce w.bound move := by
  cases move with
  | rebound bound => rfl
  | next =>
      cases hstep : w.step? with
      | none => simp [call, hstep, inForce]
      | some next =>
          obtain ⟨_, _, _, hbound⟩ := queue_of_step? hstep
          simpa [call, hstep, inForce] using hbound

theorem bound_run (w : Walk α) (moves : List Move) :
    (w.run moves).2.bound = boundAfter w.bound moves := by
  induction moves generalizing w with
  | nil => rfl
  | cons move moves ih => rw [run, ih, bound_call, boundAfter, boundAfter, List.foldl_cons]

/-! ### The invariant of all runs -/

/-- Two entries that wait one before the other: either they are of one depth and the first is to the
left, or the second is one step deeper and is to the left of all that is below the first. -/
def LinedUp (e f : Cursor α × Nat) : Prop :=
  e.2 = f.2 ∧ e.1.Apart f.1 ∨ f.2 = e.2 + 1 ∧ f.1.Apart e.1

theorem LinedUp.ahead {e f : Cursor α × Nat} (h : LinedUp e f) : Ahead e f := by
  rcases h with ⟨hdepth, hapart⟩ | ⟨hdepth, _⟩
  · exact .inr ⟨hdepth, hapart.index_lt⟩
  · exact .inl (by omega)

/-- How things stand between the calls on a walk below `c`, when the entries of `yielded` have been
yielded. -/
structure Consistent (c : Cursor α) (yielded : List (Cursor α × Nat)) (w : Walk α) : Prop where
  /-- Depths are right. -/
  placed : ∀ e ∈ yielded ++ w.queue.toList, 1 ≤ e.2 ∧ e.1.up e.2 = some c
  /-- The nodes that wait do not overlap, and stand at two depths at most. -/
  linedUp : w.queue.toList.Pairwise LinedUp
  /-- What waits comes after what was yielded. -/
  ordered : (yielded ++ w.queue.toList).Pairwise Ahead
  /-- No node waits in vain. -/
  bounded : ∀ e ∈ w.queue.toList, withinBound w.bound e.2 = true

section Opened

variable {bound : Option Nat} {entry e f : Cursor α × Nat}

theorem mem_opened (h : e ∈ opened bound entry) :
    e.1 ∈ entry.1.children ∧ e.2 = entry.2 + 1 ∧ withinBound bound e.2 = true := by
  unfold opened at h
  split at h
  · obtain ⟨d, hd, rfl⟩ := List.mem_map.mp h
    exact ⟨hd, rfl, ‹_›⟩
  · cases h

theorem pairwise_opened (bound : Option Nat) (entry : Cursor α × Nat) :
    (opened bound entry).Pairwise LinedUp := by
  unfold opened
  split
  · exact List.pairwise_map.mpr (entry.1.pairwise_children.imp fun hapart => .inl ⟨rfl, hapart⟩)
  · exact .nil

/-- The children of a node line up behind all that waited behind the node. -/
theorem LinedUp.opened (h : LinedUp entry f) (he : e ∈ opened bound entry) : LinedUp f e := by
  obtain ⟨hchild, hdepth, _⟩ := mem_opened he
  have hbounds := Cursor.bounds_of_mem_children hchild
  rcases h with ⟨hsame, hapart⟩ | ⟨hdeeper, hapart⟩
  · refine .inr ⟨by omega, ?_⟩
    unfold Cursor.Apart at hapart ⊢
    omega
  · refine .inl ⟨by omega, ?_⟩
    unfold Cursor.Apart at hapart ⊢
    omega

end Opened

section Kept

variable {c : Cursor α} {yielded : List (Cursor α × Nat)} {w w' : Walk α}
  {entry : Cursor α × Nat}

theorem consistent_below (c : Cursor α) : Consistent c [] (below c) := by
  have hqueue : (below c).queue.toList = opened none (c, 0) := Queue.toList_ofList _
  refine ⟨fun e he => ?_, ?_, ?_, fun _ _ => rfl⟩
  · rw [List.nil_append, hqueue] at he
    obtain ⟨hchild, hdepth, _⟩ := mem_opened he
    rw [hdepth, ← Cursor.mem_level_iff, Cursor.level_one]
    exact ⟨Nat.le_refl 1, hchild⟩
  · rw [hqueue]
    exact pairwise_opened none (c, 0)
  · rw [List.nil_append, hqueue]
    exact (pairwise_opened none (c, 0)).imp LinedUp.ahead

/-- A new bound drops entries, and leaves the others in order. -/
theorem Consistent.rebound (h : Consistent c yielded w) (bound : Option Nat) :
    Consistent c yielded (w.rebound bound) := by
  have hqueue : (w.rebound bound).queue.toList =
      w.queue.toList.filter (fun e => withinBound bound e.2) := Queue.toList_filter _ _
  have hsub : (yielded ++ (w.rebound bound).queue.toList).Sublist
      (yielded ++ w.queue.toList) := by
    rw [hqueue]
    exact List.filter_sublist.append_left yielded
  refine ⟨fun e he => h.placed e (hsub.subset he), ?_, h.ordered.sublist hsub, fun e he => ?_⟩
  · rw [hqueue]
    exact h.linedUp.filter _
  · rw [hqueue] at he
    exact (List.mem_filter.mp he).2

/-- A step moves an entry from the queue to what was yielded, and its children line up. -/
theorem Consistent.step (h : Consistent c yielded w) (hstep : w.step? = some (entry, w')) :
    Consistent c (yielded ++ [entry]) w' := by
  obtain ⟨rest, hqueue, hqueue', hbound⟩ := queue_of_step? hstep
  have hsplit : (yielded ++ [entry]) ++ w'.queue.toList =
      (yielded ++ w.queue.toList) ++ opened w.bound entry := by
    rw [hqueue, hqueue']
    simp
  have hlinedUp := h.linedUp
  rw [hqueue, List.pairwise_cons] at hlinedUp
  have hordered := h.ordered
  rw [hqueue, List.pairwise_append] at hordered
  have hentry := h.placed entry (by simp [hqueue])
  refine ⟨fun e he => ?_, ?_, ?_, fun e he => ?_⟩
  · rw [hsplit] at he
    rcases List.mem_append.mp he with he | he
    · exact h.placed e he
    · obtain ⟨hchild, hdepth, _⟩ := mem_opened he
      rw [hdepth, Cursor.up, Cursor.parent?_eq_some_iff.mpr hchild]
      exact ⟨Nat.succ_pos _, hentry.2⟩
  · rw [hqueue', List.pairwise_append]
    exact ⟨hlinedUp.2, pairwise_opened _ _, fun f hf e he => (hlinedUp.1 f hf).opened he⟩
  · rw [hsplit, List.pairwise_append]
    refine ⟨h.ordered, (pairwise_opened _ _).imp LinedUp.ahead, fun f hf e he => ?_⟩
    have hdepth := (mem_opened he).2.1
    rw [hqueue] at hf
    -- Nothing that was yielded is deeper than the entry, and its children are.
    rcases List.mem_append.mp hf with hf | hf
    · have hle := (hordered.2.2 f hf entry List.mem_cons_self).depth_le
      exact .inl (by omega)
    · rcases List.mem_cons.mp hf with rfl | hf
      · exact .inl (by omega)
      · exact ((hlinedUp.1 f hf).opened he).ahead
  · rw [hqueue'] at he
    rw [hbound]
    rcases List.mem_append.mp he with he | he
    · exact h.bounded e (by rw [hqueue]; exact List.mem_cons_of_mem _ he)
    · exact (mem_opened he).2.2

theorem Consistent.call (h : Consistent c yielded w) (move : Move) :
    Consistent c (yielded ++ (w.call move).1.toList) (w.call move).2 := by
  cases move with
  | rebound bound => simpa [Walk.call] using h.rebound bound
  | next =>
      cases hstep : w.step? with
      | none => simpa [Walk.call, hstep] using h
      | some next => simpa [Walk.call, hstep] using h.step hstep

theorem Consistent.run (h : Consistent c yielded w) (moves : List Move) :
    Consistent c (yielded ++ (w.run moves).1) (w.run moves).2 := by
  induction moves generalizing yielded w with
  | nil => simpa [Walk.run] using h
  | cons move moves ih => simpa [Walk.run] using ih (h.call move)

/-! ### Runs that only tighten the bound -/

/-- What was yielded is the beginning of the level order, and what is left to yield is the rest of
it, as deep as the bound admits. -/
def OnCourse (c : Cursor α) (yielded : List (Cursor α × Nat)) (w : Walk α) : Prop :=
  ∃ rest, c.descendants none = yielded ++ rest ∧
    w.drain = rest.filter (fun e => withinBound w.bound e.2)

theorem onCourse_below (c : Cursor α) : OnCourse c [] (below c) := by
  refine ⟨c.descendants none, rfl, ?_⟩
  rw [c.drain_below]
  exact (List.filter_eq_self.mpr fun _ _ => rfl).symm

theorem OnCourse.rebound (h : OnCourse c yielded w) {bound : Option Nat}
    (htighter : Tighter bound w.bound) : OnCourse c yielded (w.rebound bound) := by
  obtain ⟨rest, hrest, hdrain⟩ := h
  refine ⟨rest, hrest, ?_⟩
  rw [drain_rebound w htighter, hdrain, List.filter_filter]
  exact List.filter_congr fun e _ => Bool.and_eq_left_iff_imp.mpr (htighter e.2)

theorem OnCourse.step (h : OnCourse c yielded w) (hstep : w.step? = some (entry, w')) :
    OnCourse c (yielded ++ [entry]) w' := by
  obtain ⟨rest, hrest, hdrain⟩ := h
  obtain ⟨_, _, _, hbound⟩ := queue_of_step? hstep
  have hordered := c.pairwise_ahead_descendants
  rw [hrest, List.pairwise_append] at hordered
  rw [drain_of_step? hstep] at hdrain
  cases rest with
  | nil => cases hdrain
  | cons e rest =>
      -- The first entry of the rest is the least deep one, so it is admitted if any is.
      have hfirst : withinBound w.bound e.2 = true := by
        by_contra hdeep
        have hnone : (e :: rest).filter (fun f => withinBound w.bound f.2) = [] := by
          rw [List.filter_eq_nil_iff]
          intro f hf hadmitted
          refine hdeep (withinBound_of_le ?_ hadmitted)
          rcases List.mem_cons.mp hf with rfl | hf
          · exact Nat.le_refl _
          · exact ((List.pairwise_cons.mp hordered.2.1).1 f hf).depth_le
        rw [hnone] at hdrain
        cases hdrain
      rw [List.filter_cons, if_pos hfirst] at hdrain
      obtain ⟨rfl, hleft⟩ := List.cons.inj hdrain
      exact ⟨rest, by rw [hrest, List.append_assoc, List.singleton_append], by rw [hleft, hbound]⟩

theorem OnCourse.call (h : OnCourse c yielded w) {move : Move}
    (htighter : Tighter (inForce w.bound move) w.bound) :
    OnCourse c (yielded ++ (w.call move).1.toList) (w.call move).2 := by
  cases move with
  | rebound bound =>
      have hkept : OnCourse c yielded (w.rebound bound) := h.rebound htighter
      simpa [Walk.call] using hkept
  | next =>
      cases hstep : w.step? with
      | none => simpa [Walk.call, hstep] using h
      | some next => simpa [Walk.call, hstep] using h.step hstep

theorem OnCourse.run (h : OnCourse c yielded w) {moves : List Move}
    (htightening : Tightening w.bound moves) :
    OnCourse c (yielded ++ (w.run moves).1) (w.run moves).2 := by
  induction moves generalizing yielded w with
  | nil => simpa [Walk.run] using h
  | cons move moves ih =>
      have hrest := ih (h.call htightening.1) (by rw [bound_call]; exact htightening.2)
      simpa [Walk.run] using hrest

end Kept

/-- Whatever calls are made on a walk below a node: no node is yielded twice, and every yielded node
is strictly below the start, with the number of parent links up to it; the depths never get less;
and what a call yields is within the bound in force then.  If the bound is never made looser, what
was yielded is the beginning of the level order, and any further steps yield the rest of it, as deep
as the bound admits. -/
theorem run_consistent (c : Cursor α) (moves : List Move) :
    (((below c).run moves).1.map (·.1)).Nodup ∧
    (∀ e ∈ ((below c).run moves).1, 1 ≤ e.2 ∧ e.1.up e.2 = some c) ∧
    (((below c).run moves).1.map (·.2)).Pairwise (· ≤ ·) ∧
    (∀ e w, ((below c).run moves).2.call .next = (some e, w) →
      withinBound (boundAfter none moves) e.2 = true) ∧
    (Tightening none moves →
      ((below c).run moves).1 <+: c.descendants none ∧
      ∀ n, (((below c).run moves).2.take n).1 =
        (((c.descendants none).drop ((below c).run moves).1.length).filter
          (fun e => withinBound (boundAfter none moves) e.2)).take n) := by
  have hrun := (consistent_below c).run moves
  have hbound : ((below c).run moves).2.bound = boundAfter none moves := bound_run _ moves
  rw [List.nil_append] at hrun
  have hplaced : ∀ e ∈ ((below c).run moves).1, 1 ≤ e.2 ∧ e.1.up e.2 = some c :=
    fun e he => hrun.placed e (List.mem_append_left _ he)
  have hordered := (List.pairwise_append.mp hrun.ordered).1
  refine ⟨nodup_of_pairwise_ahead (fun e he => (hplaced e he).2) hordered, hplaced,
    List.pairwise_map.mpr (hordered.imp Ahead.depth_le), fun e w hnext => ?_, fun htightening => ?_⟩
  · cases hstep : ((below c).run moves).2.step? with
    | none => simp [call, hstep] at hnext
    | some next =>
        obtain ⟨rest, hqueue, _⟩ := queue_of_step? hstep
        have hfirst := hrun.bounded next.1 (by rw [hqueue]; exact List.mem_cons_self)
        simp only [call, hstep, Prod.mk.injEq, Option.some.injEq] at hnext
        rwa [hbound, hnext.1] at hfirst
  · obtain ⟨rest, hrest, hdrain⟩ := (onCourse_below c).run htightening
    rw [List.nil_append] at hrest
    refine ⟨⟨rest, hrest.symm⟩, fun n => ?_⟩
    rw [take_eq_take_drain, hdrain, hbound, hrest, List.drop_left]

def fork : Cursor Nat :=
  .ofRoot (.node 0 [.node 1 [.node 3 []], .node 2 [.node 4 []]])

/-- After the first step and with the bound set to the children, only the other child is left. -/
theorem run_consistent_fork :
    Tightening none [.next, .rebound (some 1)] ∧
      ((((below fork).run [.next, .rebound (some 1)]).2.take 3).1.map
        fun e => (e.1.label, e.2)) = [(2, 1)] := by
  have htightening : Tightening none [.next, .rebound (some 1)] :=
    ⟨tighter_none none, tighter_none (some 1), trivial⟩
  obtain ⟨-, -, -, -, htight⟩ := run_consistent fork [.next, .rebound (some 1)]
  refine ⟨htightening, ?_⟩
  rw [(htight htightening).2 3]
  decide +kernel

end Walk
end PropSurface
