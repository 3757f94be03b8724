import Mathlib.Data.List.Flatten
import PropSurface.Proofs.Element.Origin
import PropSurface.Proofs.Element.Statements
import PropSurface.Proofs.Query.Strata

/-!
# Elements of import statements

An import statement has a clause, which holds a default name, a list of names, or a namespace, and
a string that names the other module.  Its elements stand in fixed rows, and elements of their kinds
come from nowhere else.

**Definitions.**
* `Kind.isImport`, `Role.isImport`: the kinds of the elements of imports, and the roles in which
  they arise; `Importless`: a concrete tree without an import statement.
* `IsImport`: an import statement as the grammar has it.
* `Concrete.importSpecifiers`, `Concrete.importDefaults`: what an import statement binds.

**Results.**
* `Lowering.absent_lower`: what holds no import statement leaves no element of an import.
* `IsImport.specifierTrees_eq`, `IsImport.defaultTrees_eq`, `IsImport.stringOf?_eq`: the names and
  the string of a statement, in its elements.
* `IsImport.onlyInRow_namedImports`, `IsImport.onlyInRow_importClause`: where these elements stand.
-/

namespace PropSurface

open PropSurface.Tree

/-! ### Elements of imports -/

/-- Whether only import statements give rise to elements of a kind. -/
def Kind.isImport : Kind → Bool
  | .importDeclaration => true
  | .importClause => true
  | .namedImports => true
  | .importSpecifier => true
  | _ => false

/-- Whether only import statements give rise to an element. -/
def Element.isImport (e : Element) : Bool := e.kind.isImport

/-- Whether only the parts of an import statement are read in a role. -/
def Role.isImport : Role → Bool
  | .importClause => true
  | .namedImports => true
  | .importSpecifier => true
  | _ => false

/-- A concrete tree without an import statement. -/
def Importless (c : Concrete) : Prop := ∀ t ∈ c.preorder, t.rule ≠ .importStatement

instance (c : Concrete) : Decidable (Importless c) :=
  inferInstanceAs (Decidable (∀ t ∈ c.preorder, t.rule ≠ .importStatement))

theorem importless_iff {c : Concrete} :
    Importless c ↔ c.label.rule ≠ .importStatement ∧ ∀ d ∈ c.children, Importless d := by
  simp only [Importless, preorder_eq_cons c, forestPreorder_eq_flatMap, List.forall_mem_cons,
    List.mem_flatMap]
  refine and_congr_right fun _ => ⟨fun h d hd t ht => h t ⟨d, hd, ht⟩, ?_⟩
  rintro h t ⟨d, hd, ht⟩
  exact h d hd t ht

namespace Lowering

section Roles

variable (source : String) (t : Token) (kids : List Token) (k : Token)

theorem isImport_argumentsOnly : (argumentsOnly k).isImport = false := by
  unfold argumentsOnly
  split <;> rfl

theorem isImport_planExtends : ((planExtends t).roleOf k).isImport = false := by
  simp only [planExtends]
  split <;> rfl

theorem isImport_planExport : ((planExport source t kids).roleOf k).isImport = false := by
  unfold planExport
  split <;> rfl

theorem isImport_planPlain (keywords : List Element) (ht : t.rule ≠ .importStatement) :
    ((planPlain source keywords t kids).roleOf k).isImport = false := by
  cases hrule : t.rule <;> simp only [planPlain, hrule]
  case importStatement => exact absurd hrule ht
  case exportStatement => exact isImport_planExport source t kids k
  case classLike =>
    simp only [planClass]
    split_ifs <;> rfl
  case interfaceDeclaration =>
    simp only [planInterface]
    split_ifs
    · rfl
    · split <;> rfl
  case typeAliasDeclaration =>
    simp only [planAlias]
    split_ifs <;> rfl
  all_goals rfl

theorem isImport_planType : ((planType source t kids).roleOf k).isImport = false := by
  cases hrule : t.rule <;> simp only [planType, hrule]
  case genericType => exact isImport_argumentsOnly k
  all_goals rfl

theorem isImport_planSpecifier (make : String → Option String → Payload) :
    ((planSpecifier source make t kids).roleOf k).isImport = false := by
  unfold planSpecifier
  split <;> rfl

/-- Only import statements and their parts give roles of an import. -/
theorem isImport_plan {role : Role} (hrole : role.isImport = false)
    (ht : t.rule ≠ .importStatement) :
    ((plan source role t kids).roleOf k).isImport = false := by
  cases role <;> simp only [plan]
  case plain keywords => exact isImport_planPlain source t kids k keywords ht
  case importClause => cases hrole
  case namedImports => cases hrole
  case importSpecifier => cases hrole
  case exportClause => split <;> rfl
  case exportSpecifier => exact isImport_planSpecifier source t kids k _
  case classHeritage =>
    unfold planHeritage
    split
    · simp only
      split <;> rfl
    · exact isImport_planExtends t k
  case extendsClause => exact isImport_planExtends t k
  case heritageType =>
    unfold planHeritageType
    split
    · exact isImport_argumentsOnly k
    · rfl
  case instantiation => split <;> rfl
  case member =>
    unfold planMember
    split
    · simp only
      split <;> rfl
    · rfl
    · exact isImport_planPlain source t kids k [] ht
  case type => exact isImport_planType source t kids k
  case operand =>
    split
    · rfl
    · exact isImport_planType source t kids k
  all_goals rfl

end Roles

end Lowering

theorem Role.isImport_of_mem_kinds {role : Role} (hrole : role.isImport = false) {rule : Rule}
    (hrule : rule ≠ .importStatement) {kind : Kind} (h : kind ∈ role.kinds rule) :
    kind.isImport = false := by
  have hkinds : ∀ kind ∈ rule.kinds, kind.isImport = false := by
    cases rule
    case importStatement => exact absurd rfl hrule
    all_goals decide
  cases role
  case plain keywords => exact hkinds kind h
  case member => exact hkinds kind h
  case importClause => cases hrole
  case namedImports => cases hrole
  case importSpecifier => cases hrole
  all_goals
    revert h kind
    simp [Role.kinds, Kind.isImport]

theorem ReadIn.importless {source : String} {role role' : Role} {c d : Concrete}
    (h : ReadIn source role c role' d) (hrole : role.isImport = false) (hc : Importless c) :
    role'.isImport = false ∧ Importless d := by
  induction h with
  | here => exact ⟨hrole, hc⟩
  | @inside _ _ c _ _ hd _ ih =>
      obtain ⟨hrule, hchildren⟩ := importless_iff.mp hc
      exact ih (Lowering.isImport_plan source _ _ _ hrole hrule) (hchildren _ hd)

namespace Lowering

/-- What holds no import statement leaves no element of an import. -/
theorem absent_lower (source : String) (role : Role) (hrole : role.isImport = false)
    (hkeywords : role.Exporting) {c : Concrete} (hc : Importless c) :
    Absent Element.isImport (lower source role c) := by
  intro e he
  by_contra himport
  obtain ⟨x, hx, rfl⟩ := exists_within_of_mem_forestPreorder _ he
  rw [Element.isImport] at himport
  have hcommon : x.label.kind.isCommon = false := by
    revert himport
    cases x.label.kind <;> decide
  obtain ⟨role', d, hread, horigin⟩ := exists_origin source hcommon c role hx
  obtain ⟨hrole', hd⟩ := hread.importless hrole hc
  rcases horigin with hkeyword | ⟨_, hmade⟩
  · -- A keyword is one of an export.
    have hexport := (hread.exporting hkeywords).isExport_of_mem_keywords hkeyword
    revert himport hexport
    cases x.label.kind <;> decide
  · exact himport (Role.isImport_of_mem_kinds hrole' (importless_iff.mp hd).1 hmade)

end Lowering

/-! ### Import statements -/

namespace Concrete

/-- The children that carry meaning and stand for a rule, in order. -/
def partsOf (c : Concrete) (rule : Rule) : List Concrete :=
  c.parts.filter fun d => decide (d.label.rule = rule)

/-- The names in the lists of an import statement. -/
def importSpecifiers (c : Concrete) : List Concrete :=
  (c.partsOf .importClause).flatMap fun d =>
    (d.partsOf .namedImports).flatMap fun l => l.partsOf .importSpecifier

/-- The default names of an import statement, in front of its list. -/
def importDefaults (c : Concrete) : List Concrete :=
  (c.partsOf .importClause).flatMap fun d => d.partsOf .identifier

/-- The name that a specifier takes from the other module. -/
def importedName (source : String) (s : Concrete) : String :=
  ((s.filling? "name").map fun n => Lowering.unquoted source n.label).getD ""

/-- The alias of a specifier. -/
def alias? (source : String) (s : Concrete) : Option String :=
  (s.filling? "alias").map fun n => Lowering.unquoted source n.label

/-- The name that a specifier binds: its alias, or the imported name if there is none. -/
def localName (source : String) (s : Concrete) : String :=
  (s.alias? source).getD (s.importedName source)

/-- The element of a specifier. -/
def specifierElement (source : String) (s : Concrete) : Element :=
  ⟨.importSpecifier (s.importedName source) (s.alias? source), s.label.span⟩

/-- The string that names the other module of a statement. -/
def importSource (source : String) (c : Concrete) : String :=
  ((c.filling? "source").map fun d => Lowering.unquoted source d.label).getD ""

/-- The element of a default name. -/
def nameElement (source : String) (e : Concrete) : Element :=
  ⟨.identifier (e.text source), e.label.span⟩

theorem mem_partsOf {c d : Concrete} {rule : Rule} :
    d ∈ c.partsOf rule ↔ d ∈ c.parts ∧ d.label.rule = rule := by
  rw [partsOf, List.mem_filter, decide_eq_true_eq]

theorem partsOf_sublist (c : Concrete) (rule : Rule) : (c.partsOf rule).Sublist c.children :=
  List.filter_sublist.trans List.filter_sublist

/-- What is picked from parts in document order is in document order. -/
theorem preorder_flatMap_partsOf {c : Concrete} {rule : Rule} {f : Concrete → List Concrete}
    (h : ∀ d, ((f d).map Tree.label).Sublist d.preorder) :
    (((c.partsOf rule).flatMap f).map Tree.label).Sublist c.preorder := by
  rw [preorder_eq_cons, forestPreorder_eq_flatMap, List.map_flatMap]
  refine .cons _ ?_
  exact (List.Sublist.flatMap_right _ fun d _ => h d).trans ((partsOf_sublist c rule).flatMap _)

theorem preorder_partsOf (c : Concrete) (rule : Rule) :
    ((c.partsOf rule).map Tree.label).Sublist c.preorder := by
  have hself : (((c.partsOf rule).flatMap fun d => [d]).map Tree.label).Sublist c.preorder :=
    preorder_flatMap_partsOf fun d => by
      rw [preorder_eq_cons]
      exact List.singleton_sublist.mpr List.mem_cons_self
  rwa [List.flatMap_singleton'] at hself

/-- Parts that leave nothing do not count. -/
theorem flatMap_parts_eq {β : Type} {c : Concrete} (rule : Rule) {f : Concrete → List β}
    (h : ∀ d ∈ c.parts, d.label.rule ≠ rule → f d = []) :
    c.parts.flatMap f = (c.partsOf rule).flatMap f := by
  rw [partsOf]
  generalize c.parts = ds at h
  induction ds with
  | nil => rfl
  | cons d ds ih =>
      have hds := ih fun e he => h e (List.mem_cons_of_mem _ he)
      by_cases hrule : d.label.rule = rule
      · rw [List.filter_cons_of_pos (by simpa using hrule), List.flatMap_cons, List.flatMap_cons,
          hds]
      · rw [List.filter_cons_of_neg (by simpa using hrule), List.flatMap_cons,
          h d List.mem_cons_self hrule, List.nil_append, hds]

end Concrete

/-- An import statement as the grammar has it.  What is imported is named by a clause, which may
hold a default name, lists of names, and other things such as a namespace; each name of a list has
a name in the other module.  A statement with a clause has one string, which is its source.  No
other import statement stands inside. -/
structure IsImport (c : Concrete) : Prop where
  rule : c.label.rule = .importStatement
  parts : ∀ d ∈ c.parts, d.label.rule ∈ [.importClause, .string, .other]
  clause : ∀ d ∈ c.partsOf .importClause, ∀ e ∈ d.parts,
    e.label.rule ∈ [.identifier, .namedImports, .other]
  named : ∀ s ∈ c.importSpecifiers, (s.filling? "name").isSome
  source : c.partsOf .importClause ≠ [] →
    ∃ d, c.filling? "source" = some d ∧ c.partsOf .string = [d]
  inside : ∀ d ∈ c.children, Importless d

/-! ### Elements of an import statement -/

/-- Whether an element is of a kind. -/
def Element.is (kind : Kind) (e : Element) : Bool := decide (e.kind = kind)

/-- Whether the root of an element tree is of a kind. -/
def hasKind (kind : Kind) (t : Lowered) : Bool := t.label.is kind

/-- The lists of names in the element of an import statement. -/
def nameLists (t : Lowered) : List Lowered :=
  (t.children.flatMap Tree.children).filter (hasKind .namedImports)

/-- The names in these lists. -/
def specifierTrees (t : Lowered) : List Lowered :=
  (nameLists t).flatMap fun u => u.children.filter (hasKind .importSpecifier)

/-- The default names in the element of an import statement. -/
def defaultTrees (t : Lowered) : List Lowered :=
  (t.children.filter (hasKind .importClause)).flatMap fun u =>
    u.children.filter (hasKind .identifier)

/-- The value of the first string right below an element. -/
def stringOf? (t : Lowered) : Option String :=
  (t.children.find? (hasKind .stringLiteral)).bind fun u =>
    match u.label.payload with
    | .stringLiteral value => some value
    | _ => none

/-- Where nothing of an import is, no element of such a kind is. -/
theorem Tree.Absent.of_isImport {ts : List Lowered} (h : Absent Element.isImport ts) {kind : Kind}
    (hkind : kind.isImport = true) : Absent (Element.is kind) ts := by
  refine h.mono fun e he => ?_
  rw [Element.isImport, of_decide_eq_true he, hkind]

theorem filter_hasKind_eq_nil {ts : List Lowered} (h : Absent Element.isImport ts) {kind : Kind}
    (hkind : kind.isImport = true) : ts.filter (hasKind kind) = [] :=
  (h.of_isImport hkind).filter_eq_nil

namespace IsImport

open Lowering

variable {source : String} {c d e : Concrete}

/-- The role in which a part of an import statement is read. -/
def partRole (t : Token) : Role := if t.rule = .importClause then .importClause else .plain []

/-- The role in which a part of an import clause is read. -/
def clausePartRole (t : Token) : Role := if t.rule = .namedImports then .namedImports else .plain []

theorem importless_of_mem_parts (h : IsImport c) (hd : d ∈ c.parts) : Importless d :=
  h.inside d (List.mem_filter.mp hd).1

/-- Nothing of an import is left by a part of a statement, unless it is a clause. -/
theorem absent_part (h : IsImport c) (source : String) (hd : d ∈ c.parts)
    (hrule : d.label.rule ≠ .importClause) :
    Absent Element.isImport (lower source (partRole d.label) d) := by
  rw [partRole, if_neg hrule]
  exact absent_lower source (.plain []) rfl ⟨[], rfl⟩ (h.importless_of_mem_parts hd)

/-- Nothing of an import is left by a part of a clause, unless it is a list of names. -/
theorem absent_clausePart (h : IsImport c) (source : String) (hd : d ∈ c.partsOf .importClause)
    (he : e ∈ d.parts) (hrule : e.label.rule ≠ .namedImports) :
    Absent Element.isImport (lower source (clausePartRole e.label) e) := by
  have hinside := (importless_iff.mp
    (h.importless_of_mem_parts (Concrete.mem_partsOf.mp hd).1)).2
  rw [clausePartRole, if_neg hrule]
  exact absent_lower source (.plain []) rfl ⟨[], rfl⟩ (hinside e (List.mem_filter.mp he).1)

theorem lower_eq (h : IsImport c) (source : String) :
    lower source (.plain []) c =
      [.node ⟨.importDeclaration, c.label.span⟩
        (c.parts.flatMap fun d => lower source (partRole d.label) d)] :=
  lower_import h.rule

theorem lower_clause (source : String) (d : Concrete) :
    lower source .importClause d =
      [.node ⟨.importClause, d.label.span⟩
        (d.parts.flatMap fun e => lower source (clausePartRole e.label) e)] :=
  lower_importClause

/-- The lists of names in a clause. -/
theorem filter_clause_lists (h : IsImport c) (source : String) (hd : d ∈ c.partsOf .importClause) :
    (d.parts.flatMap fun e => lower source (clausePartRole e.label) e).filter
        (hasKind .namedImports) =
      (d.partsOf .namedImports).flatMap (lower source .namedImports) := by
  rw [List.filter_flatMap, Concrete.flatMap_parts_eq .namedImports]
  · refine List.flatMap_congr fun e he => ?_
    rw [clausePartRole, if_pos (Concrete.mem_partsOf.mp he).2, lower_namedImports]
    rfl
  · intro e he hrule
    exact filter_hasKind_eq_nil (h.absent_clausePart source hd he hrule) rfl

/-- The lists of names in the element of an import statement are the written ones. -/
theorem nameLists_eq (h : IsImport c) (source : String) (span : Span) :
    nameLists (.node ⟨.importDeclaration, span⟩
        (c.parts.flatMap fun d => lower source (partRole d.label) d)) =
      (c.partsOf .importClause).flatMap fun d =>
        (d.partsOf .namedImports).flatMap (lower source .namedImports) := by
  rw [nameLists, children_node, List.flatMap_assoc, List.filter_flatMap,
    Concrete.flatMap_parts_eq .importClause]
  · refine List.flatMap_congr fun d hd => ?_
    rw [partRole, if_pos (Concrete.mem_partsOf.mp hd).2, lower_clause, List.flatMap_singleton,
      children_node, h.filter_clause_lists source hd]
  · intro d hd hrule
    exact filter_hasKind_eq_nil (h.absent_part source hd hrule).children rfl

/-- A specifier becomes its element, above the names that it is made of. -/
theorem exists_lower_specifier {s : Concrete} (hs : (s.filling? "name").isSome) (source : String) :
    ∃ below, lower source .importSpecifier s = [.node (s.specifierElement source) below] ∧
      Absent Element.isImport below := by
  obtain ⟨name, hname⟩ := Option.isSome_iff_exists.mp hs
  refine ⟨identifier source name.label ::
    ((s.filling? "alias").map fun d => identifier source d.label).toList, ?_, ?_⟩
  · rw [lower_specifier (fun _ _ => rfl) hname, Concrete.specifierElement, Concrete.importedName,
      hname]
    rfl
  · cases s.filling? "alias" with
    | none => exact absent_cons.mpr ⟨rfl, absent_nil, absent_nil⟩
    | some d =>
        exact absent_cons.mpr ⟨rfl, absent_nil, absent_cons.mpr ⟨rfl, absent_nil, absent_nil⟩⟩

theorem mem_importSpecifiers {l s : Concrete} (hd : d ∈ c.partsOf .importClause)
    (hl : l ∈ d.partsOf .namedImports) (hs : s ∈ l.partsOf .importSpecifier) :
    s ∈ c.importSpecifiers :=
  List.mem_flatMap.mpr ⟨d, hd, List.mem_flatMap.mpr ⟨l, hl, hs⟩⟩

/-- The elements of the names of an import statement, in order. -/
theorem specifierTrees_eq (h : IsImport c) (source : String) (span : Span) :
    (specifierTrees (.node ⟨.importDeclaration, span⟩
        (c.parts.flatMap fun d => lower source (partRole d.label) d))).map Tree.label =
      c.importSpecifiers.map (Concrete.specifierElement source) := by
  rw [specifierTrees, h.nameLists_eq, Concrete.importSpecifiers]
  simp only [List.flatMap_assoc, List.map_flatMap]
  refine List.flatMap_congr fun d hd => List.flatMap_congr fun l hl => ?_
  rw [lower_namedImports, List.flatMap_singleton, children_node, List.filter_flatMap,
    Concrete.flatMap_parts_eq .importSpecifier, List.map_flatMap, List.map_eq_flatMap]
  · refine List.flatMap_congr fun s hs => ?_
    obtain ⟨below, hlower, -⟩ :=
      exists_lower_specifier (h.named s (mem_importSpecifiers hd hl hs)) source
    rw [if_pos (Concrete.mem_partsOf.mp hs).2, hlower]
    rfl
  · intro s _ hrule
    rw [if_neg hrule, lower_ignored, List.filter_nil]

/-- The elements of the default names of an import statement, in order. -/
theorem defaultTrees_eq (h : IsImport c) (source : String) (span : Span) :
    (defaultTrees (.node ⟨.importDeclaration, span⟩
        (c.parts.flatMap fun d => lower source (partRole d.label) d))).map Tree.label =
      c.importDefaults.map (Concrete.nameElement source) := by
  have hclauses : (c.parts.flatMap fun d => lower source (partRole d.label) d).filter
      (hasKind .importClause) = (c.partsOf .importClause).flatMap (lower source .importClause) := by
    rw [List.filter_flatMap, Concrete.flatMap_parts_eq .importClause]
    · refine List.flatMap_congr fun d hd => ?_
      rw [partRole, if_pos (Concrete.mem_partsOf.mp hd).2, lower_clause]
      rfl
    · intro d hd hrule
      exact filter_hasKind_eq_nil (h.absent_part source hd hrule) rfl
  rw [defaultTrees, children_node, hclauses, Concrete.importDefaults]
  simp only [List.flatMap_assoc, List.map_flatMap]
  refine List.flatMap_congr fun d hd => ?_
  rw [lower_clause, List.flatMap_singleton, children_node, List.filter_flatMap,
    Concrete.flatMap_parts_eq .identifier, List.map_flatMap, List.map_eq_flatMap]
  · refine List.flatMap_congr fun e he => ?_
    have hrule := (Concrete.mem_partsOf.mp he).2
    have hnot : e.label.rule ≠ .namedImports := by simp [hrule]
    rw [clausePartRole, if_neg hnot, lower_plain_identifier hrule]
    rfl
  · intro e he hrule
    have hcases := h.clause d hd e he
    simp only [List.mem_cons, List.not_mem_nil, or_false, hrule, false_or] at hcases
    rcases hcases with hlist | hother
    · rw [clausePartRole, if_pos hlist, lower_namedImports]
      rfl
    · rw [clausePartRole, if_neg (by simp [hother]), lower_plain_other hother]
      rfl

/-- The first string right below the element of a statement with a clause is its source. -/
theorem stringOf?_eq (h : IsImport c) (source : String) (span : Span)
    (hclause : c.partsOf .importClause ≠ []) :
    stringOf? (.node ⟨.importDeclaration, span⟩
        (c.parts.flatMap fun d => lower source (partRole d.label) d)) =
      some (c.importSource source) := by
  obtain ⟨literal, hfilling, hstrings⟩ := h.source hclause
  have hfilter : (c.parts.flatMap fun d => lower source (partRole d.label) d).filter
      (hasKind .stringLiteral) = [stringLiteral source literal.label] := by
    rw [List.filter_flatMap, Concrete.flatMap_parts_eq .string, hstrings, List.flatMap_singleton]
    · have hrule : literal.label.rule = .string :=
        (Concrete.mem_partsOf.mp (hstrings ▸ List.mem_singleton_self literal)).2
      rw [partRole, if_neg (by simp [hrule]), lower_plain_string hrule]
      rfl
    · intro d hd hrule
      have hcases := h.parts d hd
      simp only [List.mem_cons, List.not_mem_nil, or_false, hrule, false_or] at hcases
      rcases hcases with hclause | hother
      · rw [partRole, if_pos hclause, lower_clause]
        rfl
      · rw [partRole, if_neg (by simp [hother]), lower_plain_other hother]
        rfl
  rw [stringOf?, children_node, ← List.head?_filter, hfilter, Concrete.importSource, hfilling]
  rfl

/-! ### Rows of an import statement -/

/-- The names of a list are of no other kind of imports. -/
theorem absent_names (h : IsImport c) (source : String) (hd : d ∈ c.partsOf .importClause)
    {l : Concrete} (hl : l ∈ d.partsOf .namedImports) {kind : Kind} (hkind : kind.isImport = true)
    (hne : kind ≠ .importSpecifier) :
    Absent (Element.is kind) (l.parts.flatMap fun s => lower source
      (if s.label.rule = .importSpecifier then .importSpecifier else .ignored) s) := by
  refine absent_flatMap fun s hs => ?_
  by_cases hrule : s.label.rule = .importSpecifier
  · obtain ⟨below, hlower, hbelow⟩ := exists_lower_specifier
      (h.named s (mem_importSpecifiers hd hl (Concrete.mem_partsOf.mpr ⟨hs, hrule⟩))) source
    rw [if_pos hrule, hlower, absent_cons]
    exact ⟨decide_eq_false hne.symm, hbelow.of_isImport hkind, absent_nil⟩
  · rw [if_neg hrule, lower_ignored]
    exact absent_nil

/-- Lists of names stand two steps below the element of an import statement only. -/
theorem onlyInRow_namedImports (h : IsImport c) (source : String) :
    OnlyInRow (Element.is .namedImports) 2 (lower source (.plain []) c) := by
  rw [h.lower_eq]
  refine onlyInRow_succ rfl (onlyInRow_flatMap fun d hd => ?_)
  by_cases hclause : d.label.rule = .importClause
  · rw [partRole, if_pos hclause, lower_clause]
    refine onlyInRow_succ rfl (onlyInRow_flatMap fun e he => ?_)
    have hd' := Concrete.mem_partsOf.mpr ⟨hd, hclause⟩
    by_cases hlist : e.label.rule = .namedImports
    · rw [clausePartRole, if_pos hlist, lower_namedImports]
      exact onlyInRow_zero
        (h.absent_names source hd' (Concrete.mem_partsOf.mpr ⟨he, hlist⟩) rfl (by decide))
    · exact ((h.absent_clausePart source hd' he hlist).of_isImport rfl).onlyInRow 0
  · exact ((h.absent_part source hd hclause).of_isImport rfl).onlyInRow 1

/-- Clauses stand right below the element of an import statement only. -/
theorem onlyInRow_importClause (h : IsImport c) (source : String) :
    OnlyInRow (Element.is .importClause) 1 (lower source (.plain []) c) := by
  rw [h.lower_eq]
  refine onlyInRow_succ rfl (onlyInRow_flatMap fun d hd => ?_)
  by_cases hclause : d.label.rule = .importClause
  · rw [partRole, if_pos hclause, lower_clause]
    refine onlyInRow_zero (absent_flatMap fun e he => ?_)
    have hd' := Concrete.mem_partsOf.mpr ⟨hd, hclause⟩
    by_cases hlist : e.label.rule = .namedImports
    · rw [clausePartRole, if_pos hlist, lower_namedImports, absent_cons]
      exact ⟨rfl, h.absent_names source hd' (Concrete.mem_partsOf.mpr ⟨he, hlist⟩) rfl (by decide),
        absent_nil⟩
    · exact (h.absent_clausePart source hd' he hlist).of_isImport rfl
  · exact ((h.absent_part source hd hclause).of_isImport rfl).onlyInRow 0

/-- No import statement stands right below another one. -/
theorem hasKind_part (h : IsImport c) (source : String) {u : Lowered}
    (hu : u ∈ c.parts.flatMap fun d => lower source (partRole d.label) d) :
    hasKind .importDeclaration u = false := by
  obtain ⟨d, hd, hu⟩ := List.mem_flatMap.mp hu
  by_cases hclause : d.label.rule = .importClause
  · rw [partRole, if_pos hclause, lower_clause] at hu
    rw [List.mem_singleton.mp hu]
    rfl
  · have habsent : Absent (Element.is .importDeclaration)
        (lower source (partRole d.label) d) := (h.absent_part source hd hclause).of_isImport rfl
    exact habsent u.label (label_mem_forestPreorder hu)

end IsImport

end PropSurface
