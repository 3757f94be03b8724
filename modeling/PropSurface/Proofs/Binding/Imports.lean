import PropSurface.Binding
import PropSurface.Concrete.Sample
import PropSurface.Proofs.Element.Imports
import PropSurface.Proofs.Tree.Ancestry

/-!
# Names that are imported

A name of a module is bound by the import statements that stand at its top, as it is written there:
first by the names in lists, each under its alias if it has one, and then by the default names.

**Definitions.**
* `ImportsOnTop`: a module whose import statements are all at its top.
* `Concrete.namedBindings`, `Concrete.defaultBindings`: what its import statements bind, each name
  with the statement that it stands in.

**Results.**
* `ImportsOnTop.map_found_named`, `ImportsOnTop.map_found_default`: the nodes that are looked
  through are the written names, and each leads to the source of its own statement.
* `ImportsOnTop.importOrigin?_eq`, `ImportsOnTop.isSome_importOrigin?_iff`: where a name is imported
  from, and which names are.
* `ImportsOnTop.origin_as_written`: imports are found as they are written.
-/

namespace PropSurface

open PropSurface.Tree Lowering

/-! ### Written bindings -/

/-- A module whose import statements are all at its top, among any other statements. -/
structure ImportsOnTop (root : Concrete) : Prop where
  imports : ∀ c ∈ root.partsOf .importStatement, IsImport c
  others : ∀ c ∈ root.parts, c.label.rule ≠ .importStatement → Importless c

namespace Concrete

/-- The names in lists, in document order, each with its import statement. -/
def namedBindings (root : Concrete) : List (Concrete × Concrete) :=
  (root.partsOf .importStatement).flatMap fun c => c.importSpecifiers.map fun s => (c, s)

/-- The default names, in document order, each with its import statement. -/
def defaultBindings (root : Concrete) : List (Concrete × Concrete) :=
  (root.partsOf .importStatement).flatMap fun c => c.importDefaults.map fun e => (c, e)

theorem namedBindings_inOrder (root : Concrete) :
    (root.namedBindings.map (·.2.label)).Sublist root.preorder := by
  have hnames : root.namedBindings.map (·.2.label) =
      ((root.partsOf .importStatement).flatMap importSpecifiers).map Tree.label := by
    simp only [namedBindings, List.map_flatMap, List.map_map]
    rfl
  rw [hnames]
  refine preorder_flatMap_partsOf fun c => ?_
  refine preorder_flatMap_partsOf fun d => ?_
  refine preorder_flatMap_partsOf fun l => ?_
  exact l.preorder_partsOf _

theorem defaultBindings_inOrder (root : Concrete) :
    (root.defaultBindings.map (·.2.label)).Sublist root.preorder := by
  have hnames : root.defaultBindings.map (·.2.label) =
      ((root.partsOf .importStatement).flatMap importDefaults).map Tree.label := by
    simp only [defaultBindings, List.map_flatMap, List.map_map]
    rfl
  rw [hnames]
  refine preorder_flatMap_partsOf fun c => ?_
  refine preorder_flatMap_partsOf fun d => ?_
  exact d.preorder_partsOf _

/-- The root of the elements of a source. -/
def rootNode (source : String) (root : Concrete) : Node := .ofRoot (lowerRoot source root)

end Concrete

/-! ### Nodes of import statements -/

namespace Node

/-- The names in the lists of an import statement. -/
def listed (statement : Node) : List Node :=
  ((statement.level 2).filter (Node.is .namedImports)).flatMap fun m =>
    m.children.filter (Node.is .importSpecifier)

/-- The default names of an import statement. -/
def leading (statement : Node) : List Node :=
  (statement.children.filter (Node.is .importClause)).flatMap fun m =>
    m.children.filter (Node.is .identifier)

theorem map_focus_filter (ns : List Node) (kind : Kind) :
    (ns.filter (Node.is kind)).map Cursor.focus = (ns.map Cursor.focus).filter (hasKind kind) := by
  rw [List.filter_map]
  rfl

theorem map_focus_filter_children (n : Node) (kind : Kind) :
    (n.children.filter (Node.is kind)).map Cursor.focus =
      n.focus.children.filter (hasKind kind) := by
  rw [map_focus_filter, Cursor.map_focus_children]

theorem map_focus_listed (statement : Node) :
    statement.listed.map Cursor.focus = specifierTrees statement.focus := by
  have hlists : ((statement.level 2).filter (Node.is .namedImports)).map Cursor.focus =
      nameLists statement.focus := by
    rw [map_focus_filter, Cursor.map_focus_level, row_succ_eq_flatMap, nameLists]
    rw [row_succ, List.flatMap_singleton]
    rfl
  rw [specifierTrees, ← hlists, List.flatMap_map, listed, List.map_flatMap]
  exact List.flatMap_congr fun m _ => map_focus_filter_children m _

theorem map_focus_leading (statement : Node) :
    statement.leading.map Cursor.focus = defaultTrees statement.focus := by
  rw [defaultTrees, ← map_focus_filter_children, List.flatMap_map, leading, List.map_flatMap]
  exact List.flatMap_congr fun m _ => map_focus_filter_children m _

theorem stringChild?_eq (n : Node) : n.stringChild? = stringOf? n.focus := by
  rw [stringChild?, search?_eq_find?, Cursor.map_fst_descendants_one, stringOf?,
    ← Cursor.map_focus_children, List.find?_map, Option.bind_map]
  rfl

/-- A name of a list leads to the string of its statement. -/
theorem importSource?_of_mem_listed {statement n : Node}
    (hstatement : hasKind .importDeclaration statement.focus = true)
    (hchildren : ∀ u ∈ statement.focus.children, hasKind .importDeclaration u = false)
    (hn : n ∈ statement.listed) : n.importSource? = stringOf? statement.focus := by
  obtain ⟨list, hlist, hn⟩ := List.mem_flatMap.mp hn
  obtain ⟨hlevel, hkind⟩ := List.mem_filter.mp hlist
  obtain ⟨clause, hclause, hlist⟩ := List.mem_flatMap.mp hlevel
  rw [Cursor.level_one] at hclause
  have hnotList : Node.is .importDeclaration list = false := by
    rw [Node.is, of_decide_eq_true hkind]
    rfl
  have hnotClause : Node.is .importDeclaration clause = false :=
    hchildren clause.focus (Cursor.map_focus_children statement ▸ List.mem_map_of_mem hclause)
  have hfound : Node.is .importDeclaration statement = true := hstatement
  rw [importSource?, ancestor?, Cursor.ancestors_of_mem_children (List.mem_filter.mp hn).1,
    Cursor.ancestors_of_mem_children hlist, Cursor.ancestors_of_mem_children hclause,
    List.find?_cons_of_neg (by simp [hnotList]), List.find?_cons_of_neg (by simp [hnotClause]),
    List.find?_cons_of_pos hfound, Option.bind_some, stringChild?_eq]

/-- A default name leads to the string of its statement. -/
theorem importSource?_of_mem_leading {statement n : Node}
    (hstatement : hasKind .importDeclaration statement.focus = true)
    (hn : n ∈ statement.leading) : n.importSource? = stringOf? statement.focus := by
  obtain ⟨clause, hclause, hn⟩ := List.mem_flatMap.mp hn
  obtain ⟨hclause, hkind⟩ := List.mem_filter.mp hclause
  have hnotClause : Node.is .importDeclaration clause = false := by
    rw [Node.is, of_decide_eq_true hkind]
    rfl
  have hfound : Node.is .importDeclaration statement = true := hstatement
  rw [importSource?, ancestor?, Cursor.ancestors_of_mem_children (List.mem_filter.mp hn).1,
    Cursor.ancestors_of_mem_children hclause, List.find?_cons_of_neg (by simp [hnotClause]),
    List.find?_cons_of_pos hfound, Option.bind_some, stringChild?_eq]

/-- What a name says, and the string that it leads to. -/
def found (n : Node) : Element × Option String := (n.label, n.importSource?)

/-- The names below a node, found by way of its children, are told from the subtrees there. -/
theorem map_found_flatMap (root : Node) {pick : Node → List Node} {trees : Lowered → List Lowered}
    (hpick : ∀ n : Node, (pick n).map Cursor.focus = trees n.focus)
    (hsource : ∀ statement ∈ root.children, ∀ n ∈ pick statement,
      n.importSource? = stringOf? statement.focus) :
    (root.children.flatMap pick).map found =
      root.focus.children.flatMap fun t => (trees t).map fun u => (u.label, stringOf? t) := by
  rw [← Cursor.map_focus_children, List.flatMap_map, List.map_flatMap]
  refine List.flatMap_congr fun statement hstatement => ?_
  rw [← hpick, List.map_map]
  refine List.map_congr_left fun n hn => ?_
  rw [found, hsource statement hstatement n hn]
  rfl

end Node

/-! ### The nodes that are looked through -/

theorem nameLists_eq_nil {t : Lowered} (h : Absent Element.isImport [t]) : nameLists t = [] := by
  have hbelow := h.children.children
  rw [List.flatMap_singleton] at hbelow
  exact filter_hasKind_eq_nil hbelow rfl

theorem defaultTrees_eq_nil {t : Lowered} (h : Absent Element.isImport [t]) :
    defaultTrees t = [] := by
  have hbelow := h.children
  rw [List.flatMap_singleton] at hbelow
  rw [defaultTrees, filter_hasKind_eq_nil hbelow rfl, List.flatMap_nil]

namespace ImportsOnTop

variable {root : Concrete}

/-- The element of a statement is that of an import, or has nothing to do with one. -/
theorem cases_of_mem (h : ImportsOnTop root) (source : String) {t : Lowered}
    (ht : t ∈ (lowerRoot source root).children) :
    (hasKind .importDeclaration t = true ∧
        ∀ u ∈ t.children, hasKind .importDeclaration u = false) ∨
      Absent Element.isImport [t] := by
  rw [lowerRoot_eq, children_node] at ht
  obtain ⟨c, hc, ht⟩ := List.mem_flatMap.mp ht
  by_cases hrule : c.label.rule = .importStatement
  · have hstatement := h.imports c (Concrete.mem_partsOf.mpr ⟨hc, hrule⟩)
    rw [hstatement.lower_eq] at ht
    rw [List.mem_singleton.mp ht]
    exact .inl ⟨rfl, fun u hu => hstatement.hasKind_part source hu⟩
  · have habsent := absent_lower source (.plain []) rfl ⟨[], rfl⟩ (h.others c hc hrule)
    exact .inr (habsent.of_mem ht)

/-- Names that lead to the string of their statement in an import do so in every statement, if there
are none in other statements. -/
theorem importSource?_of_mem (h : ImportsOnTop root) (source : String) {pick : Node → List Node}
    {trees : Lowered → List Lowered}
    (hpick : ∀ n : Node, (pick n).map Cursor.focus = trees n.focus)
    (hsource : ∀ statement n : Node, hasKind .importDeclaration statement.focus = true →
      (∀ u ∈ statement.focus.children, hasKind .importDeclaration u = false) →
        n ∈ pick statement → n.importSource? = stringOf? statement.focus)
    (habsent : ∀ t, Absent Element.isImport [t] → trees t = []) :
    ∀ statement ∈ (root.rootNode source).children, ∀ n ∈ pick statement,
      Node.importSource? n = stringOf? statement.focus := by
  intro statement hstatement n hn
  have hmem : statement.focus ∈ (lowerRoot source root).children :=
    Cursor.map_focus_children (root.rootNode source) ▸ List.mem_map_of_mem hstatement
  rcases h.cases_of_mem source hmem with ⟨hdeclaration, hchildren⟩ | hother
  · exact hsource statement n hdeclaration hchildren hn
  · have hfocus := List.mem_map_of_mem (f := Cursor.focus) hn
    rw [hpick, habsent _ hother] at hfocus
    cases hfocus

/-- Elements of a kind of imports stand in one row, if they do so in every import statement. -/
theorem onlyInRow (h : ImportsOnTop root) (source : String) {kind : Kind}
    (hkind : kind.isImport = true) {d : Nat}
    (himport : ∀ c, IsImport c → OnlyInRow (Element.is kind) d (lower source (.plain []) c)) :
    OnlyInRow (Element.is kind) d (lowerRoot source root).children := by
  rw [lowerRoot_eq]
  refine onlyInRow_flatMap fun c hc => ?_
  by_cases hrule : c.label.rule = .importStatement
  · exact himport c (h.imports c (Concrete.mem_partsOf.mpr ⟨hc, hrule⟩))
  · have habsent := absent_lower source (.plain []) rfl ⟨[], rfl⟩ (h.others c hc hrule)
    exact (habsent.of_isImport hkind).onlyInRow d

/-- The names in lists that are looked through are found statement by statement. -/
theorem reach_namedImports (h : ImportsOnTop root) (source : String) :
    (root.rootNode source).reach .namedImports .importSpecifier =
      (root.rootNode source).children.flatMap Node.listed := by
  have hlevel : (((root.rootNode source).descendants none).map (·.1)).filter
      (Node.is .namedImports) = ((root.rootNode source).level 3).filter (Node.is .namedImports) :=
    Cursor.filter_descendants_of_onlyInRow (Element.is .namedImports) (root.rootNode source)
      (h.onlyInRow source rfl fun _ hc => hc.onlyInRow_namedImports source)
  rw [Node.reach, hlevel, Cursor.level_succ_eq_flatMap, List.filter_flatMap, List.flatMap_assoc]
  rfl

/-- The default names that are looked through are found statement by statement. -/
theorem reach_importClause (h : ImportsOnTop root) (source : String) :
    (root.rootNode source).reach .importClause .identifier =
      (root.rootNode source).children.flatMap Node.leading := by
  have hlevel : (((root.rootNode source).descendants none).map (·.1)).filter
      (Node.is .importClause) = ((root.rootNode source).level 2).filter (Node.is .importClause) :=
    Cursor.filter_descendants_of_onlyInRow (Element.is .importClause) (root.rootNode source)
      (h.onlyInRow source rfl fun _ hc => hc.onlyInRow_importClause source)
  rw [Node.reach, hlevel, Cursor.level_succ_eq_flatMap, List.filter_flatMap, List.flatMap_assoc]
  simp only [Cursor.level_one]
  rfl

/-- What is told statement by statement is told by the import statements, if nothing is told by
other statements. -/
theorem flatMap_statements (h : ImportsOnTop root) (source : String) {β : Type}
    {f : Lowered → List β} (hf : ∀ t, Absent Element.isImport [t] → f t = []) :
    (lowerRoot source root).children.flatMap f =
      (root.partsOf .importStatement).flatMap fun c => f
        (.node ⟨.importDeclaration, c.label.span⟩
          (c.parts.flatMap fun d => lower source (IsImport.partRole d.label) d)) := by
  rw [lowerRoot_eq, children_node, List.flatMap_assoc, Concrete.flatMap_parts_eq .importStatement]
  · refine List.flatMap_congr fun c hc => ?_
    rw [(h.imports c hc).lower_eq, List.flatMap_singleton]
  · intro c hc hrule
    have habsent := absent_lower source (.plain []) rfl ⟨[], rfl⟩ (h.others c hc hrule)
    exact List.flatMap_eq_nil_iff.mpr fun t ht => hf t (habsent.of_mem ht)

/-- Names that are found statement by statement are the written ones, in document order, and each
leads to the source of its own statement. -/
theorem map_found_flatMap (h : ImportsOnTop root) (source : String) {pick : Node → List Node}
    {trees : Lowered → List Lowered} {names : Concrete → List Concrete}
    {element : Concrete → Element}
    (hpick : ∀ n : Node, (pick n).map Cursor.focus = trees n.focus)
    (hsource : ∀ statement n : Node, hasKind .importDeclaration statement.focus = true →
      (∀ u ∈ statement.focus.children, hasKind .importDeclaration u = false) →
        n ∈ pick statement → n.importSource? = stringOf? statement.focus)
    (habsent : ∀ t, Absent Element.isImport [t] → trees t = [])
    (htrees : ∀ c, IsImport c → (trees (.node ⟨.importDeclaration, c.label.span⟩
      (c.parts.flatMap fun d => lower source (IsImport.partRole d.label) d))).map Tree.label =
        (names c).map element)
    (hclause : ∀ c, ∀ s ∈ names c, c.partsOf .importClause ≠ []) :
    ((root.rootNode source).children.flatMap pick).map Node.found =
      ((root.partsOf .importStatement).flatMap fun c => (names c).map fun s => (c, s)).map
        fun b => (element b.2, some (b.1.importSource source)) := by
  rw [Node.map_found_flatMap _ hpick (h.importSource?_of_mem source hpick hsource habsent)]
  change (lowerRoot source root).children.flatMap _ = _
  rw [h.flatMap_statements source fun t ht => by rw [habsent t ht]; rfl, List.map_flatMap]
  refine List.flatMap_congr fun c hc => ?_
  have hlabels := htrees c (h.imports c hc)
  have hstring := (h.imports c hc).stringOf?_eq source c.label.span
  generalize Tree.node _ _ = t at hlabels hstring ⊢
  calc (trees t).map (fun u => (u.label, stringOf? t))
      = ((names c).map element).map fun e => (e, stringOf? t) := by
        rw [← hlabels, List.map_map]
        rfl
    _ = ((names c).map fun s => (c, s)).map fun b =>
          (element b.2, some (b.1.importSource source)) := by
        rw [List.map_map, List.map_map]
        refine List.map_congr_left fun s hs => ?_
        simp only [Function.comp_apply, hstring (hclause c s hs)]

theorem map_found_named (h : ImportsOnTop root) (source : String) :
    ((root.rootNode source).reach .namedImports .importSpecifier).map Node.found =
      root.namedBindings.map fun b =>
        (b.2.specifierElement source, some (b.1.importSource source)) := by
  rw [h.reach_namedImports]
  refine h.map_found_flatMap source Node.map_focus_listed ?_ ?_ ?_ ?_
  · exact fun _ _ => Node.importSource?_of_mem_listed
  · intro t ht
    rw [specifierTrees, nameLists_eq_nil ht, List.flatMap_nil]
  · exact fun c hc => hc.specifierTrees_eq source _
  · intro c s hs
    obtain ⟨d, hd, -⟩ := List.mem_flatMap.mp hs
    exact List.ne_nil_of_mem hd

theorem map_found_default (h : ImportsOnTop root) (source : String) :
    ((root.rootNode source).reach .importClause .identifier).map Node.found =
      root.defaultBindings.map fun b =>
        (b.2.nameElement source, some (b.1.importSource source)) := by
  rw [h.reach_importClause]
  refine h.map_found_flatMap source Node.map_focus_leading ?_ ?_ ?_ ?_
  · exact fun _ _ hdeclaration _ => Node.importSource?_of_mem_leading hdeclaration
  · exact fun t ht => defaultTrees_eq_nil ht
  · exact fun c hc => hc.defaultTrees_eq source _
  · intro c e he
    obtain ⟨d, hd, -⟩ := List.mem_flatMap.mp he
    exact List.ne_nil_of_mem hd

/-- The first node of a name, with what it says and leads to, among nodes that are the written
bindings. -/
theorem find?_isNamed {nodes : List Node} {bindings : List (Concrete × Concrete)}
    {element : Concrete → Element} {name : Concrete → String} {source : String}
    (hfound : nodes.map Node.found =
      bindings.map fun b => (element b.2, some (b.1.importSource source)))
    (hname : ∀ s, (element s).name? = some (name s)) (x : String) :
    (nodes.find? (Node.isNamed x)).map Node.found =
      (bindings.find? fun b => decide (name b.2 = x)).map fun b =>
        (element b.2, some (b.1.importSource source)) := by
  have hnodes : (nodes.map Node.found).find? (fun r => decide (r.1.name? = some x)) =
      (nodes.find? (Node.isNamed x)).map Node.found := List.find?_map
  rw [hfound, List.find?_map] at hnodes
  refine hnodes.symm.trans (congrArg (Option.map _) (congrArg (List.find? · bindings) ?_))
  funext b
  simp only [Function.comp_apply, hname, Option.some.injEq]

/-- A name is imported as it is written: if names in lists bind it, from the source and under the
imported name of the first of them; and otherwise, if default names do, as the default from the
source of the first of these. -/
theorem importOrigin?_eq (h : ImportsOnTop root) (source x : String) :
    importOrigin? (root.rootNode source) x =
      match root.namedBindings.find? fun b => decide (b.2.localName source = x) with
      | some (c, s) => some ⟨s.importedName source, c.importSource source⟩
      | none =>
          (root.defaultBindings.find? fun b => decide (b.2.text source = x)).map fun b =>
            ⟨defaultName, b.1.importSource source⟩ := by
  have hlocal : ∀ s, (Concrete.specifierElement source s).name? = some (s.localName source) :=
    fun _ => rfl
  have htext : ∀ e, (Concrete.nameElement source e).name? = some (e.text source) := fun _ => rfl
  have hnamed := find?_isNamed (h.map_found_named source) hlocal x
  have hdefault := find?_isNamed (h.map_found_default source) htext x
  rw [importOrigin?, namedImport?, Node.query?_descendant_child, defaultImport?,
    Node.query?_descendant_child]
  cases hwritten : root.namedBindings.find? fun b => decide (b.2.localName source = x) with
  | some b =>
      obtain ⟨c, s⟩ := b
      rw [hwritten, Option.map_some] at hnamed
      obtain ⟨n, hn, hfound⟩ := Option.map_eq_some_iff.mp hnamed
      obtain ⟨hlabel, hsource⟩ := Prod.mk.inj hfound
      simp only [hn, hlabel, hsource, Concrete.specifierElement, Option.map_some]
  | none =>
      rw [hwritten, Option.map_none, Option.map_eq_none_iff] at hnamed
      simp only [hnamed]
      cases hfirst : root.defaultBindings.find? fun b => decide (b.2.text source = x) with
      | some b =>
          rw [hfirst, Option.map_some] at hdefault
          obtain ⟨n, hn, hfound⟩ := Option.map_eq_some_iff.mp hdefault
          simp only [hn, (Prod.mk.inj hfound).2, Option.bind_some, Option.map_some]
      | none =>
          rw [hfirst, Option.map_none, Option.map_eq_none_iff] at hdefault
          rw [hdefault, Option.bind_none, Option.map_none]

/-- Nothing else binds a name: neither a namespace, nor a required module, nor a name that has an
alias, nor a name that is exported again. -/
theorem isSome_importOrigin?_iff (h : ImportsOnTop root) (source x : String) :
    (importOrigin? (root.rootNode source) x).isSome ↔
      (∃ b ∈ root.namedBindings, b.2.localName source = x) ∨
        ∃ b ∈ root.defaultBindings, b.2.text source = x := by
  rw [h.importOrigin?_eq]
  cases hwritten : root.namedBindings.find? fun b => decide (b.2.localName source = x) with
  | some b =>
      have hb := List.find?_some hwritten
      exact iff_of_true rfl (.inl ⟨b, List.mem_of_find?_eq_some hwritten, of_decide_eq_true hb⟩)
  | none =>
      have hnone : ¬∃ b ∈ root.namedBindings, b.2.localName source = x := by
        rintro ⟨b, hb, hname⟩
        exact absurd (List.find?_eq_none.mp hwritten b hb) (by simp [hname])
      rw [or_iff_right hnone, Option.isSome_map, List.find?_isSome]
      simp only [decide_eq_true_eq]

/-- Imports are found as they are written.  A name that a list binds, under its alias if it has
one, comes from the statement of the first such name in document order, under the name that it has
there; any other name that is a default name comes from the first statement whose default name it
is, as the default; and no other name is imported. -/
theorem origin_as_written (h : ImportsOnTop root) (source x : String) :
    importOrigin? (root.rootNode source) x =
        (match root.namedBindings.find? fun b => decide (b.2.localName source = x) with
        | some (c, s) => some ⟨s.importedName source, c.importSource source⟩
        | none =>
            (root.defaultBindings.find? fun b => decide (b.2.text source = x)).map fun b =>
              ⟨defaultName, b.1.importSource source⟩) ∧
      ((importOrigin? (root.rootNode source) x).isSome ↔
        (∃ b ∈ root.namedBindings, b.2.localName source = x) ∨
          ∃ b ∈ root.defaultBindings, b.2.text source = x) ∧
      (root.namedBindings.map (·.2.label)).Sublist root.preorder ∧
      (root.defaultBindings.map (·.2.label)).Sublist root.preorder :=
  ⟨h.importOrigin?_eq source x, h.isSome_importOrigin?_iff source x,
    root.namedBindings_inOrder, root.defaultBindings_inOrder⟩

end ImportsOnTop

/-! ### Mixed imports

A name that is imported under an alias, and is the default name of the other statement, next to a
namespace. -/

namespace MixedImports

open Sample (rule token)

def source : String :=
  "import \x7b A as B \x7d from \x22./a\x22; import A, * as N from \x22./b\x22;"

def listing : Concrete :=
  rule "import_statement" 0 29 []
    [ token "import" 0 6,
      rule "import_clause" 7 17 []
        [rule "named_imports" 7 17 []
          [ token "\x7b" 7 8,
            rule "import_specifier" 9 15 []
              [ rule "identifier" 9 10 ["name"] [], token "as" 11 13,
                rule "identifier" 14 15 ["alias"] [] ],
            token "\x7d" 16 17 ]],
      token "from" 18 22, rule "string" 23 28 ["source"] [], token ";" 28 29 ]

def leading : Concrete :=
  rule "import_statement" 30 58 []
    [ token "import" 30 36,
      rule "import_clause" 37 46 []
        [ rule "identifier" 37 38 [] [], token "," 38 39,
          rule "namespace_import" 40 46 []
            [token "*" 40 41, token "as" 42 44, rule "identifier" 45 46 [] []] ],
      token "from" 47 51, rule "string" 52 57 ["source"] [], token ";" 57 58 ]

def root : Concrete := rule "program" 0 58 [] [listing, leading]

theorem isImport_listing : IsImport listing where
  rule := by decide +kernel
  parts := by decide +kernel
  clause := by decide +kernel
  named := by decide +kernel
  source := fun _ => ⟨_, by rfl, by rfl⟩
  inside := by decide +kernel

theorem isImport_leading : IsImport leading where
  rule := by decide +kernel
  parts := by decide +kernel
  clause := by decide +kernel
  named := by decide +kernel
  source := fun _ => ⟨_, by rfl, by rfl⟩
  inside := by decide +kernel

theorem importsOnTop : ImportsOnTop root where
  imports := by
    have hparts : root.partsOf .importStatement = [listing, leading] := by rfl
    rw [hparts]
    exact List.forall_mem_cons.mpr
      ⟨isImport_listing, List.forall_mem_singleton.mpr isImport_leading⟩
  others := by decide +kernel

end MixedImports

open MixedImports in
/-- The alias hides the name that it stands for, which the default name binds; and the namespace
binds nothing. -/
theorem ImportsOnTop.origin_as_written_mixed :
    importOrigin? (root.rootNode source) "B" = some ⟨"A", "./a"⟩ ∧
      importOrigin? (root.rootNode source) "A" = some ⟨"default", "./b"⟩ ∧
      importOrigin? (root.rootNode source) "N" = none := by
  obtain ⟨hB, -⟩ := origin_as_written importsOnTop source "B"
  obtain ⟨hA, -⟩ := origin_as_written importsOnTop source "A"
  obtain ⟨hN, -⟩ := origin_as_written importsOnTop source "N"
  exact ⟨hB.trans (by decide +kernel), hA.trans (by decide +kernel), hN.trans (by decide +kernel)⟩

end PropSurface
