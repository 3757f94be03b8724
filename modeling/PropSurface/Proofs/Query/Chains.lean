import Mathlib.Data.List.Pairwise
import PropSurface.Proofs.Tree.Levels
import PropSurface.Query

/-!
# Chains of a query

A query is answered by the end of a chain of nodes, one for each step.  The search tries the
candidates of every step in level order and backtracks, so the chain it finds is the least one.

**Definitions.**
* `Relation.Leads`: what a relation means in the tree.
* `Node.Chain`: a chain of nodes that passes the steps of a query.
* `Node.Earlier`: the lexicographic order of chains, each step ordered by depth below the node
  before it, and then by number.

**Results.**
* `Relation.mem_candidates_iff`, `Relation.pairwise_candidates`: the candidates of a step are
  the nodes that its relation leads to, in order.
* `Node.query?_append_eq_some_iff`: a query in two parts takes the second part from the first
  match of the first part from which it succeeds.
* `Node.query?_least_chain`: a query is answered by the end of its least chain, and only if there
  is a chain.
-/

namespace PropSurface

/-! ### Candidates -/

/-- What a relation means: to be below a node, right below it, or right after it among the
children of some node. -/
def Relation.Leads (r : Relation) (n m : Node) : Prop :=
  match r with
  | descendant => Relation.TransGen (fun (c d : Node) => d ∈ c.children) n m
  | child => m ∈ n.children
  | next => ∃ (p : Node) (before after : List Node), p.children = before ++ n :: m :: after

namespace Relation

theorem mem_candidates_iff {r : Relation} {n m : Node} :
    m ∈ r.candidates n ↔ r.Leads n m := by
  have hdescendants : ∀ bound : Option Nat, m ∈ (n.descendants bound).map (·.1) ↔
      ∃ k, 1 ≤ k ∧ withinBound bound k = true ∧ m ∈ n.level k := by
    intro bound
    simp only [List.mem_map, Prod.exists, Cursor.mem_descendants_iff, exists_eq_right,
      exists_and_right]
  cases r with
  | descendant =>
      rw [candidates, hdescendants, Leads, ← Cursor.exists_mem_level_iff]
      constructor
      · rintro ⟨k, hk, _, hm⟩
        exact ⟨k - 1, by rwa [Nat.sub_add_cancel hk]⟩
      · rintro ⟨k, hm⟩
        exact ⟨k + 1, Nat.le_add_left 1 k, rfl, hm⟩
  | child =>
      rw [candidates, hdescendants, Leads, ← Cursor.level_one]
      constructor
      · rintro ⟨k, hk, hbound, hm⟩
        have hone : k = 1 := Nat.le_antisymm (of_decide_eq_true hbound) hk
        rwa [hone] at hm
      · intro hm
        exact ⟨1, Nat.le_refl 1, rfl, hm⟩
  | next => rw [candidates, Option.mem_toList, Leads, Cursor.next?_eq_some_iff]

/-- The candidates are tried in their order. -/
theorem pairwise_candidates (r : Relation) (n : Node) :
    (r.candidates n).Pairwise n.Precedes := by
  cases r with
  | descendant => exact n.pairwise_descendants none
  | child => exact n.pairwise_descendants (some 1)
  | next =>
      rw [candidates]
      cases n.next? with
      | none => exact List.Pairwise.nil
      | some m => exact List.pairwise_singleton _ m

end Relation

/-! ### The least entry with an answer -/

theorem Cursor.Precedes.asymm {α : Type} {c d e : Cursor α} (h : c.Precedes d e) :
    ¬ c.Precedes e d := by
  unfold Precedes at h ⊢
  omega

/-- The first answer on an ordered list comes from the least entry that gives an answer. -/
theorem findSome?_eq_some_iff_of_pairwise {α β : Type} {before : α → α → Prop}
    (hasymm : ∀ {a b}, before a b → ¬ before b a) {l : List α} (hl : l.Pairwise before)
    {f : α → Option β} {b : β} :
    l.findSome? f = some b ↔
      ∃ a ∈ l, f a = some b ∧ ∀ x ∈ l, before x a → f x = none := by
  constructor
  · intro h
    obtain ⟨l₁, a, l₂, rfl, ha, hnone⟩ := List.findSome?_eq_some_iff.mp h
    refine ⟨a, List.mem_append_right _ List.mem_cons_self, ha, fun x hx hxa => ?_⟩
    obtain ⟨_, htail, _⟩ := List.pairwise_append.mp hl
    rcases List.mem_append.mp hx with hx | hx
    · exact hnone x hx
    · rcases List.mem_cons.mp hx with rfl | hx
      · exact absurd hxa (hasymm hxa)
      · exact absurd hxa (hasymm ((List.pairwise_cons.mp htail).1 x hx))
  · rintro ⟨a, ha, hfa, hnone⟩
    obtain ⟨l₁, l₂, rfl⟩ := List.append_of_mem ha
    obtain ⟨_, _, hcross⟩ := List.pairwise_append.mp hl
    refine List.findSome?_eq_some_iff.mpr ⟨l₁, a, l₂, rfl, hfa, fun x hx => ?_⟩
    exact hnone x (List.mem_append_left _ hx) (hcross x hx a List.mem_cons_self)

/-! ### Chains -/

theorem QueryStep.admits_iff {s : QueryStep} {n : Node} :
    s.admits n = true ↔ (∀ kind, s.kind = some kind → n.kind = kind) ∧ s.holds n = true := by
  simp [admits, Option.all_eq_true, Node.is]

namespace Node

/-- The nodes after a start that pass the steps of a query one by one, each reached from the
node before it. -/
inductive Chain : List QueryStep → Node → List Node → Prop where
  | nil (n : Node) : Chain [] n []
  | cons {s : QueryStep} {rest : List QueryStep} {n m : Node} {ms : List Node} :
      s.relation.Leads n m → (∀ kind, s.kind = some kind → m.kind = kind) → s.holds m = true →
      Chain rest m ms → Chain (s :: rest) n (m :: ms)

/-- A chain comes earlier than another one from the same start: at the first place where they
differ, its node comes earlier below the node before. -/
inductive Earlier : Node → List Node → List Node → Prop where
  | head {n m m' : Node} {ms ms' : List Node} :
      n.Precedes m m' → Earlier n (m :: ms) (m' :: ms')
  | tail {n m : Node} {ms ms' : List Node} :
      Earlier m ms ms' → Earlier n (m :: ms) (m :: ms')

theorem chain_nil_iff {n : Node} {ms : List Node} : Chain [] n ms ↔ ms = [] := by
  constructor
  · rintro ⟨⟩
    rfl
  · rintro rfl
    exact .nil n

theorem chain_cons_iff {s : QueryStep} {rest : List QueryStep} {n : Node} {ms : List Node} :
    Chain (s :: rest) n ms ↔
      ∃ m ms', ms = m :: ms' ∧ m ∈ (s.relation.candidates n).filter s.admits ∧
        Chain rest m ms' := by
  simp only [List.mem_filter, Relation.mem_candidates_iff, QueryStep.admits_iff]
  constructor
  · rintro ⟨⟩
    exact ⟨_, _, rfl, ⟨‹_›, ‹_›, ‹_›⟩, ‹_›⟩
  · rintro ⟨m, ms', rfl, ⟨hleads, hkind, hholds⟩, hrest⟩
    exact .cons hleads hkind hholds hrest

theorem pairwise_admitted (s : QueryStep) (n : Node) :
    ((s.relation.candidates n).filter s.admits).Pairwise n.Precedes :=
  (s.relation.pairwise_candidates n).filter _

theorem Earlier.asymm {n : Node} {ms ms' : List Node} (h : Earlier n ms ms') :
    ¬ Earlier n ms' ms := by
  induction h with
  | head hprec =>
      rintro (hprec' | _)
      · exact hprec.asymm hprec'
      · exact hprec.asymm hprec
  | tail _ ih =>
      rintro (hprec | hlater)
      · exact hprec.asymm hprec
      · exact ih hlater

/-- Of two chains of a query from one start, one comes earlier. -/
theorem Chain.trichotomy {q : List QueryStep} {n : Node} {ms ms' : List Node}
    (h : Chain q n ms) (h' : Chain q n ms') :
    Earlier n ms ms' ∨ ms = ms' ∨ Earlier n ms' ms := by
  induction q generalizing n ms ms' with
  | nil =>
      rw [chain_nil_iff.mp h, chain_nil_iff.mp h']
      exact .inr (.inl rfl)
  | cons s rest ih =>
      obtain ⟨m, ms, rfl, hm, hrest⟩ := chain_cons_iff.mp h
      obtain ⟨m', ms', rfl, hm', hrest'⟩ := chain_cons_iff.mp h'
      by_cases heq : m = m'
      · subst heq
        rcases ih hrest hrest' with hearlier | rfl | hearlier
        · exact .inl (.tail hearlier)
        · exact .inr (.inl rfl)
        · exact .inr (.inr (.tail hearlier))
      · have hsymm : Std.Symm fun a b => n.Precedes a b ∨ n.Precedes b a := ⟨fun _ _ => Or.symm⟩
        have hordered : ((s.relation.candidates n).filter s.admits).Pairwise
            fun a b => n.Precedes a b ∨ n.Precedes b a :=
          (pairwise_admitted s n).imp Or.inl
        rcases hordered.forall hm hm' heq with hprec | hprec
        · exact .inl (.head hprec)
        · exact .inr (.inr (.head hprec))

/-! ### What a query answers -/

/-- A query in two parts fails if the second part fails from every match of the first part. -/
theorem query?_append_eq_none_iff {q q' : List QueryStep} {n : Node} :
    n.query? (q ++ q') = none ↔
      ∀ ms, Chain q n ms → (ms.getLastD n).query? q' = none := by
  induction q generalizing n with
  | nil => simp [chain_nil_iff]
  | cons s rest ih =>
      rw [List.cons_append, query?_cons, List.findSome?_eq_none_iff]
      constructor
      · intro h ms hchain
        obtain ⟨m, ms, rfl, hm, hrest⟩ := chain_cons_iff.mp hchain
        rw [List.getLastD_cons]
        exact ih.mp (h m hm) ms hrest
      · intro h m hm
        refine ih.mpr fun ms hrest => ?_
        rw [← List.getLastD_cons]
        exact h (m :: ms) (chain_cons_iff.mpr ⟨m, ms, rfl, hm, hrest⟩)

/-- A query in two parts takes the second part from the first match of the first part from
which it succeeds. -/
theorem query?_append_eq_some_iff {q q' : List QueryStep} {n r : Node} :
    n.query? (q ++ q') = some r ↔
      ∃ ms, Chain q n ms ∧ (ms.getLastD n).query? q' = some r ∧
        ∀ ms', Chain q n ms' → Earlier n ms' ms → (ms'.getLastD n).query? q' = none := by
  induction q generalizing n with
  | nil =>
      constructor
      · intro h
        refine ⟨[], .nil n, h, fun ms' hchain hearlier => ?_⟩
        rw [chain_nil_iff.mp hchain] at hearlier
        cases hearlier
      · rintro ⟨ms, hchain, h, _⟩
        rwa [chain_nil_iff.mp hchain] at h
  | cons s rest ih =>
      rw [List.cons_append, query?_cons,
        findSome?_eq_some_iff_of_pairwise Cursor.Precedes.asymm (pairwise_admitted s n)]
      constructor
      · rintro ⟨m, hm, hquery, hnone⟩
        obtain ⟨ms, hrest, hend, hleast⟩ := ih.mp hquery
        refine ⟨m :: ms, chain_cons_iff.mpr ⟨m, ms, rfl, hm, hrest⟩, ?_, ?_⟩
        · rwa [List.getLastD_cons]
        · intro ms' hchain' hearlier
          obtain ⟨m', ms', rfl, hm', hrest'⟩ := chain_cons_iff.mp hchain'
          rw [List.getLastD_cons]
          -- An earlier chain leaves at an earlier candidate, or at the same one and later on.
          cases hearlier with
          | head hprec => exact query?_append_eq_none_iff.mp (hnone m' hm' hprec) ms' hrest'
          | tail hearlier => exact hleast ms' hrest' hearlier
      · rintro ⟨ms, hchain, hend, hleast⟩
        obtain ⟨m, ms, rfl, hm, hrest⟩ := chain_cons_iff.mp hchain
        rw [List.getLastD_cons] at hend
        have hnone : ∀ m' ms', m' ∈ (s.relation.candidates n).filter s.admits →
            Chain rest m' ms' → Earlier n (m' :: ms') (m :: ms) →
            (ms'.getLastD m').query? q' = none := by
          intro m' ms' hm' hrest' hearlier
          rw [← List.getLastD_cons]
          exact hleast _ (chain_cons_iff.mpr ⟨m', ms', rfl, hm', hrest'⟩) hearlier
        refine ⟨m, hm, ih.mpr ⟨ms, hrest, hend, ?_⟩, ?_⟩
        · exact fun ms' hrest' hearlier => hnone m ms' hm hrest' (.tail hearlier)
        · exact fun m' hm' hprec => query?_append_eq_none_iff.mpr fun ms' hrest' =>
            hnone m' ms' hm' hrest' (.head hprec)

theorem query?_eq_none_iff {q : List QueryStep} {n : Node} :
    n.query? q = none ↔ ∀ ms, ¬ Chain q n ms := by
  rw [← List.append_nil q, query?_append_eq_none_iff, List.append_nil]
  simp [query?]

theorem query?_eq_some_iff {q : List QueryStep} {n r : Node} :
    n.query? q = some r ↔
      ∃ ms, Chain q n ms ∧ ms.getLastD n = r ∧
        ∀ ms', Chain q n ms' → ms' = ms ∨ Earlier n ms ms' := by
  rw [← List.append_nil q, query?_append_eq_some_iff, List.append_nil]
  refine exists_congr fun ms => and_congr_right fun hchain => ?_
  simp only [query?, Option.some.injEq, reduceCtorEq, imp_false]
  refine and_congr_right fun _ => forall_congr' fun ms' => forall_congr' fun hchain' => ?_
  constructor
  · intro hnot
    rcases hchain.trichotomy hchain' with hearlier | rfl | hearlier
    · exact .inr hearlier
    · exact .inl rfl
    · exact absurd hearlier hnot
  · rintro (rfl | hearlier)
    · exact fun hself => hself.asymm hself
    · exact hearlier.asymm

/-- A query succeeds if and only if there is a chain that passes its steps, and its answer is the
end of the least one.  So a query in two parts takes the second part from the first match of the
first part from which it succeeds, and a query without steps answers with its start. -/
theorem query?_least_chain (q : List QueryStep) (n : Node) :
    ((n.query? q).isSome = true ↔ ∃ ms, Chain q n ms) ∧
    (∀ r, n.query? q = some r ↔
      ∃ ms, Chain q n ms ∧ ms.getLastD n = r ∧
        ∀ ms', Chain q n ms' → ms' = ms ∨ Earlier n ms ms') ∧
    (∀ q' r, n.query? (q ++ q') = some r ↔
      ∃ ms, Chain q n ms ∧ (ms.getLastD n).query? q' = some r ∧
        ∀ ms', Chain q n ms' → Earlier n ms' ms → (ms'.getLastD n).query? q' = none) ∧
    n.query? [] = some n := by
  refine ⟨?_, fun r => query?_eq_some_iff, fun q' r => query?_append_eq_some_iff, rfl⟩
  rw [Option.isSome_iff_ne_none, ne_eq, query?_eq_none_iff, not_forall_not]

end Node

end PropSurface
