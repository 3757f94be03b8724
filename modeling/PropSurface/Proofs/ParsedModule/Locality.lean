import PropSurface.Concrete.Sample
import PropSurface.Proofs.Element.Parts
import PropSurface.Proofs.ParsedModule.Writing

/-!
# Locality of lowering

What is written of a concrete node does not depend on the table that it is written into.  The new
rows come at the end, the old ones stay as they are but for one child list, and in another table
the new rows are the same with other numbers.

**Definitions.**
* `Slot.renumber`, `Slot.moved`: the numbers that new rows have in another table.
* `Slot.Enclosed`: a row whose links stay among the new rows and the row above them.
* `Lowering.written`: the table that is left after a node is written.

**Results.**
* `Slot.ofForest_moved`: the rows of a forest in another table.
* `Slot.enclosed_ofForest`: they are linked to each other and to the row above them only.
* `Lowering.write_local`: what is written of a node, and what a module has of a statement.
-/

namespace PropSurface

namespace Slot

/-! ### Other tables -/

/-- The number of a row in another table, for rows that are added to a table of `n` rows and to one
of `m` rows.  The old row that they are added below is row `q` there. -/
def renumber (n m q i : Nat) : Nat := if i < n then q else i - n + m

/-- A new row with the numbers that it has in another table. -/
def moved (n m q : Nat) (s : Slot) : Slot :=
  ⟨s.parent.map (renumber n m q), s.element, s.children.map (renumber n m q)⟩

variable {n m p q : Nat}

theorem renumber_of_lt (h : p < n) : renumber n m q p = q := if_pos h

@[simp] theorem renumber_add (n m q k : Nat) : renumber n m q (n + k) = m + k := by
  rw [renumber, if_neg (by omega)]
  omega

theorem rootNumbers_moved (n m q k : Nat) (ts : List Lowered) :
    rootNumbers (m + k) ts = (rootNumbers (n + k) ts).map (renumber n m q) := by
  induction ts generalizing k with
  | nil => rfl
  | cons t ts ih =>
      rw [rootNumbers, rootNumbers, List.map_cons, renumber_add, Nat.add_assoc, Nat.add_assoc, ih]

mutual

theorem ofTree_moved (n m q i k : Nat) :
    ∀ t : Lowered, ofTree (some (renumber n m q i)) (m + k) t =
      (ofTree (some i) (n + k) t).map (moved n m q)
  | .node e ts => by
      have hforest := ofForest_moved n m q (n + k) (k + 1) ts
      rw [renumber_add] at hforest
      rw [ofTree, ofTree, List.map_cons, moved, Option.map_some, Nat.add_assoc, Nat.add_assoc,
        hforest, rootNumbers_moved n m q]

/-- The rows of a forest in another table. -/
theorem ofForest_moved (n m q i k : Nat) :
    ∀ ts : List Lowered, ofForest (renumber n m q i) (m + k) ts =
      (ofForest i (n + k) ts).map (moved n m q)
  | [] => rfl
  | t :: ts => by
      rw [ofForest, ofForest, List.map_append, ofTree_moved n m q i k t, Nat.add_assoc,
        Nat.add_assoc, ofForest_moved n m q i (k + t.size) ts]

end

/-! ### Links of new rows -/

theorem mem_rootNumbers {i : Nat} {ts : List Lowered} (h : i ∈ rootNumbers n ts) :
    n ≤ i ∧ i < n + Tree.forestSize ts := by
  induction ts generalizing n with
  | nil => cases h
  | cons t ts ih =>
      rw [Tree.forestSize]
      have hpos := t.size_pos
      rcases List.mem_cons.mp h with rfl | h
      · omega
      · have := ih h
        omega

/-- A row is linked only to the rows from `n` up to `stop`, and to its parent, which may be row `p`
as well. -/
structure Enclosed (p n stop : Nat) (s : Slot) : Prop where
  parent : ∃ i, s.parent = some i ∧ (i = p ∨ n ≤ i ∧ i < stop)
  children : ∀ i ∈ s.children, n ≤ i ∧ i < stop

theorem Enclosed.widen {n' stop stop' : Nat} {s : Slot} (h : Enclosed p n stop s)
    (hp : p = q ∨ n' ≤ p ∧ p < stop') (hn : n' ≤ n) (hstop : stop ≤ stop') :
    Enclosed q n' stop' s := by
  obtain ⟨i, hi, hcases⟩ := h.parent
  refine ⟨⟨i, hi, ?_⟩, fun j hj => ?_⟩
  · rcases hcases with rfl | hi
    · exact hp
    · exact .inr (by omega)
  · have := h.children j hj
    omega

mutual

theorem enclosed_ofTree (p n : Nat) :
    ∀ t : Lowered, ∀ s ∈ ofTree (some p) n t, Enclosed p n (n + t.size) s
  | .node e ts => by
      intro s hs
      rw [Tree.size]
      rcases List.mem_cons.mp hs with rfl | hs
      · refine ⟨⟨p, rfl, .inl rfl⟩, fun i hi => ?_⟩
        have := mem_rootNumbers hi
        omega
      · exact (enclosed_ofForest n (n + 1) ts s hs).widen (.inr (by omega)) (by omega) (by omega)

/-- The rows of a forest are linked to each other and to the row above them only. -/
theorem enclosed_ofForest (p n : Nat) :
    ∀ ts : List Lowered, ∀ s ∈ ofForest p n ts, Enclosed p n (n + Tree.forestSize ts) s
  | [] => fun s hs => by cases hs
  | t :: ts => by
      intro s hs
      rw [Tree.forestSize]
      rcases List.mem_append.mp hs with hs | hs
      · exact (enclosed_ofTree p n t s hs).widen (.inl rfl) (Nat.le_refl n) (by omega)
      · exact (enclosed_ofForest p (n + t.size) ts s hs).widen (.inl rfl) (by omega) (by omega)

end

theorem ofForest_append (p n : Nat) (xs ys : List Lowered) :
    ofForest p n (xs ++ ys) = ofForest p n xs ++ ofForest p (n + Tree.forestSize xs) ys := by
  induction xs generalizing n with
  | nil => rfl
  | cons t ts ih =>
      rw [List.cons_append, ofForest, ofForest, ih, Tree.forestSize, List.append_assoc,
        Nat.add_assoc]

end Slot

open Slot

namespace Lowering

/-- The table that is left after a node is written below row `p`. -/
def written (source : String) (role : Role) (t : Concrete) (slots : List Slot) (p : Nat) :
    List Slot := (write source role t p slots).2

variable {slots : List Slot} {p : Nat}

/-- The rows of the lowered form of the node are added. -/
theorem written_eq_append (source : String) (role : Role) (t : Concrete) (hp : p < slots.length) :
    written source role t slots p =
      slots.modify p (addChildren (rootNumbers slots.length (lower source role t))) ++
        ofForest p slots.length (lower source role t) := by
  rw [written, writes_write, pushForest_eq_append hp]

end Lowering

namespace ParsedModule

/-- The elements of the statements of a module, in order. -/
def statements (source : String) (ts : List Concrete) : List Lowered :=
  (ts.filter (·.label.isMeaningful)).flatMap (Lowering.lower source (.plain []))

theorem statements_append (source : String) (ts us : List Concrete) :
    statements source (ts ++ us) = statements source ts ++ statements source us := by
  rw [statements, List.filter_append, List.flatMap_append]
  rfl

/-- The rows of a module: the one of the source file, and those of the statements. -/
theorem exists_slots_eq_cons {path : Path} {source : String} {r : Token} {m : ParsedModule}
    {ts : List Concrete} (h : parse path source (.node r ts) = .ok m) :
    ∃ s, m.slots = s :: ofForest 0 1 (statements source ts) := by
  unfold parse at h
  split_ifs at h
  cases h
  refine ⟨⟨none, ⟨.sourceFile, r.span⟩, rootNumbers 1 (statements source ts)⟩, ?_⟩
  have hforest : Lowering.meaningful (Lowering.lowerParts source (fun _ => .plain []) ts) =
      statements source ts :=
    Lowering.meaningful_lowerParts source (fun _ => .plain []) (.node r ts)
  rw [slots, Lowering.lowerRoot, Tree.children_node, hforest]
  rfl

/-- Whether a module can be read is up to its root. -/
theorem exists_parse_node {path : Path} {source : String} {r : Token} {m : ParsedModule}
    {ts : List Concrete} (h : parse path source (.node r ts) = .ok m) (us : List Concrete) :
    ∃ m', parse path source (.node r us) = .ok m' := by
  unfold parse at h
  split_ifs at h with herror
  exact ⟨_, if_neg herror⟩

/-- The rows that a module has of one of its statements are those of a module that has nothing but
this one, with other numbers. -/
theorem slots_statement {path : Path} {source : String} {r : Token}
    {before after : List Concrete} {t : Concrete} {m front alone : ParsedModule}
    (hm : parse path source (.node r (before ++ t :: after)) = .ok m)
    (hfront : parse path source (.node r before) = .ok front)
    (halone : parse path source (.node r [t]) = .ok alone) :
    (m.slots.drop front.slots.length).take (alone.slots.length - 1) =
      (alone.slots.drop 1).map (moved 1 front.slots.length 0) := by
  obtain ⟨s, hs⟩ := exists_slots_eq_cons hm
  obtain ⟨s', hs'⟩ := exists_slots_eq_cons hfront
  obtain ⟨s'', hs''⟩ := exists_slots_eq_cons halone
  have hsplit : statements source (before ++ t :: after) =
      statements source before ++ (statements source [t] ++ statements source after) := by
    rw [← statements_append, ← statements_append]
    rfl
  have hlength : front.slots.length = 1 + Tree.forestSize (statements source before) := by
    rw [hs', List.length_cons, length_ofForest, Nat.add_comm]
  have hrows : m.slots = (s :: ofForest 0 1 (statements source before)) ++
      (ofForest 0 front.slots.length (statements source [t]) ++
        ofForest 0 (front.slots.length + Tree.forestSize (statements source [t]))
          (statements source after)) := by
    rw [hs, hsplit, ofForest_append, ofForest_append, ← hlength]
    rfl
  have hdrop : front.slots.length = (s :: ofForest 0 1 (statements source before)).length := by
    rw [hs', List.length_cons, List.length_cons]
  have htake : alone.slots.length - 1 =
      (ofForest 0 front.slots.length (statements source [t])).length := by
    rw [hs'', List.length_cons, Nat.add_sub_cancel, length_ofForest, length_ofForest]
  rw [hrows, hdrop, List.drop_left, ← hdrop, htake, List.take_left, hs'']
  exact ofForest_moved 1 front.slots.length 0 0 0 (statements source [t])

end ParsedModule

namespace Lowering

/-- Below any row of any table, what is written of a node in a role adds rows at the end, and
changes no old row but for the child list of the row above, to which numbers of new rows are added.
The new rows are linked to each other and to that row only, and in any other table they are the
same with other numbers.  So the rows that a module has of a statement do not depend on the
statements before and after it. -/
theorem write_local (source : String) (role : Role) (t : Concrete) {slots slots' : List Slot}
    {p q : Nat} (hp : p < slots.length) (hq : q < slots'.length) :
    (∃ numbers added,
      written source role t slots p = slots.modify p (addChildren numbers) ++ added ∧
      (∀ i ∈ numbers, slots.length ≤ i ∧ i < slots.length + added.length) ∧
      (∀ s ∈ added, Enclosed p slots.length (slots.length + added.length) s) ∧
      written source role t slots' q =
        slots'.modify q (addChildren (numbers.map (renumber slots.length slots'.length q))) ++
          added.map (moved slots.length slots'.length q)) ∧
    ∀ (path : Path) (r : Token) (before after : List Concrete) (m : ParsedModule),
      ParsedModule.parse path source (.node r (before ++ t :: after)) = .ok m →
        ∃ front alone, ParsedModule.parse path source (.node r before) = .ok front ∧
          ParsedModule.parse path source (.node r [t]) = .ok alone ∧
          (m.slots.drop front.slots.length).take (alone.slots.length - 1) =
            (alone.slots.drop 1).map (moved 1 front.slots.length 0) := by
  constructor
  · have hlength : (ofForest p slots.length (lower source role t)).length =
        Tree.forestSize (lower source role t) := length_ofForest ..
    have hnumbers := rootNumbers_moved slots.length slots'.length q 0 (lower source role t)
    have hrows := ofForest_moved slots.length slots'.length q p 0 (lower source role t)
    rw [renumber_of_lt hp] at hrows
    refine ⟨_, _, written_eq_append source role t hp, ?_, ?_, ?_⟩
    · rw [hlength]
      exact fun i hi => mem_rootNumbers hi
    · rw [hlength]
      exact enclosed_ofForest p slots.length (lower source role t)
    · rw [written_eq_append source role t hq]
      exact congrArg₂ (fun ids rows => slots'.modify q (addChildren ids) ++ rows) hnumbers hrows
  · intro path r before after m hm
    obtain ⟨front, hfront⟩ := ParsedModule.exists_parse_node hm before
    obtain ⟨alone, halone⟩ := ParsedModule.exists_parse_node hm [t]
    exact ⟨front, alone, hfront, halone, ParsedModule.slots_statement hm hfront halone⟩

/-! ### A heritage in two tables

It is written below the source file, where it does not belong, and below its class. -/

namespace Derived

open Sample (rule)

def source : String := "class X extends C<P> {}"

def heritage : Concrete :=
  rule "class_heritage" 8 20 []
    [ rule "extends_clause" 8 20 []
        [ rule "identifier" 16 17 ["value"] [],
          rule "type_arguments" 17 20 ["type_arguments"] [rule "type_identifier" 18 19 [] []] ] ]

def file : Slot := ⟨none, ⟨.sourceFile, ⟨0, 23⟩⟩, []⟩

def table : List Slot := [file]

def withClass : List Slot := push table 0 ⟨.classDeclaration (some "X"), ⟨0, 23⟩⟩

end Derived

open Derived in
/-- The type argument is written below the target that the clause has kept the number of. -/
theorem write_local_heritage :
    ∃ numbers added,
      numbers = [1] ∧ added.map (·.parent) = [some 0, some 1, some 2, some 2, some 4] ∧
        written source .classHeritage heritage table 0 =
          table.modify 0 (addChildren numbers) ++ added ∧
        written source .classHeritage heritage withClass 1 =
          withClass.modify 1 (addChildren (numbers.map (renumber 1 2 1))) ++
            added.map (moved 1 2 1) := by
  obtain ⟨⟨numbers, added, htable, -, -, hclass⟩, -⟩ :=
    write_local source .classHeritage heritage (show 0 < table.length by decide)
      (show 1 < withClass.length by decide)
  have hrows :
      (written source .classHeritage heritage table 0).map (fun s => (s.parent, s.children)) =
        [ (none, [1]), (some 0, [2]), (some 1, [3, 4]), (some 2, []), (some 2, [5]),
          (some 4, []) ] := by
    decide +kernel
  have hsplit : table.modify 0 (addChildren numbers) ++ added =
      addChildren numbers file :: added := rfl
  rw [htable, hsplit, List.map_cons, List.cons.injEq] at hrows
  refine ⟨numbers, added, (Prod.mk.inj hrows.1).2, ?_, htable, hclass⟩
  have hparents := congrArg (List.map Prod.fst) hrows.2
  rwa [List.map_map] at hparents

end Lowering
end PropSurface
