import PropSurface.Concrete.Sample
import PropSurface.Proofs.Declaration.Members
import PropSurface.Proofs.Element.ClassHeader
import PropSurface.Proofs.Element.Origin
import PropSurface.Proofs.Tree.Closure

/-!
# What an interface says

The bases and members of an interface are read from the elements right below it.  They are those
that are written in its extends clauses and in its body: no type argument, type parameter, nested
object type or other statement adds to them.

**Definitions.**
* `Concrete.extended`, `Concrete.bodyParts`: the types that an interface extends and what stands
  in its body, as they are written; `Concrete.targetName`: the name of an extended type.
* `IsInterface`: a concrete tree that is written as an interface.

**Results.**
* `IsInterface.declarationShape_eq`: what an interface says.
* `declarationShape_interface`: the same for every interface of a module, with the node of the
  source that it comes from.
-/

namespace PropSurface

open Lowering

/-! ### How an interface is written -/

namespace Concrete

def isExtends (d : Concrete) : Bool := decide (d.label.rule = .extendsTypeClause)

def isBody (d : Concrete) : Bool :=
  decide (d.label.rule = .interfaceBody) || decide (d.label.rule = .objectType)

/-- The types that an interface extends, clause by clause. -/
def extended (c : Concrete) : List Concrete := (c.parts.filter isExtends).flatMap parts

/-- What stands in the body of an interface. -/
def bodyParts (c : Concrete) : List Concrete := (c.parts.filter isBody).flatMap parts

/-- Whether a node is a plain or a dotted name of a type. -/
def isTypeName (d : Concrete) : Bool :=
  decide (d.label.rule = .typeIdentifier) || decide (d.label.rule = .nestedTypeIdentifier)

/-- Whether a node is a name of a type, with or without type arguments. -/
def isTarget (d : Concrete) : Bool :=
  d.isTypeName || decide (d.label.rule = .genericType) && (d.filling? "name").any isTypeName

/-- The name of an extended type: the whole text without type arguments. -/
def targetName (source : String) (d : Concrete) : String :=
  if d.label.rule = .genericType then ((d.filling? "name").map (text source)).getD ""
  else d.text source

end Concrete

/-- A concrete tree that is written as an interface: its name is a plain name of a type, and it
extends types by their names. -/
structure IsInterface (c : Concrete) : Prop where
  rule : c.label.rule = .interfaceDeclaration
  name : ∀ d ∈ c.parts, d.label.fills "name" = true → d.label.rule = .typeIdentifier
  targets : ∀ d ∈ c.extended, d.isTarget = true

/-! ### Reading the subtree of a declaration -/

/-- The name of a heritage target, by its subtree. -/
def treeTarget? (t : Lowered) : Option String :=
  (t.children.find? fun u => decide (u.label.kind = .identifier)).bind fun u => u.label.name?

/-- The names of the targets of a heritage clause, by its subtree. -/
def treeTargets (t : Lowered) : List String :=
  (t.children.filter fun u => decide (u.label.kind = .heritageTarget)).filterMap treeTarget?

/-- The bases that a forest below an interface adds. -/
def forestBases (ts : List Lowered) : List String :=
  (ts.filter fun t => decide (t.label.payload = .heritageClause .extending)).flatMap treeTargets

/-- The members that a forest below a declaration adds. -/
def forestMembers (ts : List Lowered) : List String :=
  ts.filterMap fun t => elementMember? t.label

theorem targetName?_eq (n : Node) : targetName? n = treeTarget? n.focus := by
  rw [targetName?, Node.search?_eq_find?, Cursor.map_fst_descendants_one, treeTarget?,
    ← Cursor.map_focus_children, List.find?_map, Option.bind_map]
  rfl

theorem targetNames_eq (n : Node) : targetNames n = treeTargets n.focus := by
  rw [targetNames, treeTargets, ← Cursor.map_focus_children, List.filter_map, List.filterMap_map]
  simp only [Function.comp_def, ← targetName?_eq]
  rfl

theorem declarationShape_of_focus {n : Node} {name : String} {span : Span}
    {below : List Lowered} (h : n.focus = .node ⟨.interfaceDeclaration name, span⟩ below) :
    declarationShape n = ⟨forestBases below, forestMembers below⟩ := by
  have hpayload : n.label.payload = .interfaceDeclaration name := by
    change n.focus.label.payload = _
    rw [h]
    rfl
  have hbelow : n.children.map Cursor.focus = below := by
    rw [Cursor.map_focus_children, h, Tree.children_node]
  rw [declarationShape, hpayload, memberNames_eq, ← Cursor.map_focus_children, hbelow, ← hbelow,
    forestBases, List.filter_map, List.flatMap_map]
  simp only [← targetNames_eq]
  rfl

theorem forestBases_append (ts us : List Lowered) :
    forestBases (ts ++ us) = forestBases ts ++ forestBases us := by
  simp [forestBases]

theorem forestBases_flatMap {α : Type} (xs : List α) (f : α → List Lowered) :
    forestBases (xs.flatMap f) = xs.flatMap fun x => forestBases (f x) := by
  simp [forestBases, List.filter_flatMap, List.flatMap_assoc]

theorem forestMembers_append (ts us : List Lowered) :
    forestMembers (ts ++ us) = forestMembers ts ++ forestMembers us := by
  simp [forestMembers]

theorem forestMembers_flatMap {α : Type} (xs : List α) (f : α → List Lowered) :
    forestMembers (xs.flatMap f) = xs.flatMap fun x => forestMembers (f x) := by
  simp [forestMembers, List.filterMap_flatMap]

/-- Elements that are no heritage clauses add no bases. -/
theorem forestBases_eq_nil {ts : List Lowered} (h : ∀ t ∈ ts, t.label.kind ≠ .heritageClause) :
    forestBases ts = [] := by
  rw [forestBases, List.flatMap_eq_nil_iff]
  intro t ht
  obtain ⟨ht, hpayload⟩ := List.mem_filter.mp ht
  refine absurd ?_ (h t ht)
  rw [Element.kind, of_decide_eq_true hpayload]
  rfl

theorem forestMembers_eq_nil {ts : List Lowered} (h : ∀ t ∈ ts, t.label.kind.isTypePart = false) :
    forestMembers ts = [] := by
  rw [forestMembers, List.filterMap_eq_nil_iff]
  exact fun t ht => elementMember?_eq_none (h t ht)

/-! ### The elements below an interface -/

/-- Role of a child of an interface. -/
def interfaceRole (k : Token) : Role :=
  if k.fills "name" then .name
  else
    match k.rule with
    | .extendsTypeClause => .typeClause .extending
    | .interfaceBody => .interfaceBody
    | .objectType => .interfaceBody
    | _ => .plain []

section Lowered

variable {source : String} {c d : Concrete}

theorem lower_interface (h : c.label.rule = .interfaceDeclaration) (keywords : List Element) :
    lower source (.plain keywords) c =
      [.node
        ⟨.interfaceDeclaration (declaredName source (c.children.map Tree.label)), c.label.span⟩
        (keywords.map leaf ++
          c.parts.flatMap fun d => lower source (interfaceRole d.label) d)] := by
  rw [lower_eq_build]
  simp only [plan, planPlain, h, planInterface, wrap, meaningful_lowerParts]
  rfl

theorem lower_interfaceBody (source : String) (d : Concrete) :
    lower source .interfaceBody d = d.parts.flatMap (lower source .member) := by
  rw [lower_eq_build]
  simp only [plan, meaningful_lowerParts]

/-- A type that is extended is lowered to a target whose first element is its name. -/
theorem exists_lower_heritageType (source : String) (h : d.isTarget = true) :
    ∃ span below, lower source .heritageType d =
      [target d.label (leaf ⟨.identifier (d.targetName source), span⟩ :: below)] := by
  rw [lower_eq_build]
  by_cases hgeneric : d.label.rule = .genericType
  · have hany : (d.filling? "name").any Concrete.isTypeName = true := by
      simpa [Concrete.isTarget, Concrete.isTypeName, hgeneric] using h
    obtain ⟨name, hname⟩ : ∃ name, d.filling? "name" = some name := by
      cases hname : d.filling? "name" with
      | none => simp [hname] at hany
      | some name => exact ⟨name, rfl⟩
    simp only [plan, planHeritageType, hgeneric, genericName?, Concrete.filling?_labels, hname,
      Option.map_some, Option.some_or, Option.toList_some, List.singleton_append,
      Concrete.targetName, if_true, Option.getD_some]
    exact ⟨_, _, rfl⟩
  · have hplan : planHeritageType source d.label (d.children.map Tree.label) =
        .constant [target d.label [identifier source d.label]] := by
      unfold planHeritageType
      split
      · exact absurd ‹_› hgeneric
      · rfl
    simp only [plan, hplan, Concrete.targetName, if_neg hgeneric]
    exact ⟨_, _, rfl⟩

theorem treeTargets_lower_heritageType (source : String) (e : Element) (ds : List Concrete)
    (h : ∀ d ∈ ds, d.isTarget = true) :
    treeTargets (.node e (ds.flatMap (lower source .heritageType))) =
      ds.map (Concrete.targetName source) := by
  induction ds with
  | nil => rfl
  | cons d ds ih =>
      obtain ⟨span, below, hlower⟩ := exists_lower_heritageType source (h d List.mem_cons_self)
      have hrest := ih fun e he => h e (List.mem_cons_of_mem _ he)
      rw [List.flatMap_cons, hlower, List.map_cons, ← hrest]
      rfl

/-- A child of an interface is a clause of extended types, a body, or else it is lowered as a
statement or an expression. -/
theorem lower_interfaceRole (source : String)
    (hname : d.label.fills "name" = true → d.label.rule = .typeIdentifier) :
    (d.isExtends = true ∧ d.isBody = false ∧
      lower source (interfaceRole d.label) d = lower source (.typeClause .extending) d) ∨
    (d.isExtends = false ∧ d.isBody = true ∧
      lower source (interfaceRole d.label) d = lower source .interfaceBody d) ∨
    (d.isExtends = false ∧ d.isBody = false ∧
      ∀ x ∈ lower source (interfaceRole d.label) d, x.label.kind.isStatement = true) := by
  -- The role of the name is given before the rule is looked at.
  by_cases hfills : d.label.fills "name" = true
  · refine .inr (.inr ⟨?_, ?_, fun x hx => ?_⟩)
    · simp [Concrete.isExtends, hname hfills]
    · simp [Concrete.isBody, hname hfills]
    · rw [interfaceRole, if_pos hfills, lower_name] at hx
      rw [List.mem_singleton.mp hx]
      rfl
  · simp only [interfaceRole, if_neg hfills, Concrete.isExtends, Concrete.isBody]
    split
    case h_1 hrule => exact .inl (by simp [hrule])
    case h_2 hrule => exact .inr (.inl (by simp [hrule]))
    case h_3 hrule => exact .inr (.inl (by simp [hrule]))
    case h_4 hclause hbody hobject =>
      refine .inr (.inr ⟨decide_eq_false hclause, ?_, isStatement_of_mem_lower_plain source d []⟩)
      exact Bool.or_eq_false_iff.mpr ⟨decide_eq_false hbody, decide_eq_false hobject⟩

end Lowered

theorem flatMap_filter_eq {α β : Type} (p : α → Bool) (f : α → List β) (xs : List α) :
    (xs.filter p).flatMap f = xs.flatMap fun x => if p x then f x else [] := by
  induction xs with
  | nil => rfl
  | cons x xs ih =>
      cases hx : p x with
      | false => simp [hx, ih]
      | true => simp [hx, ih]

namespace IsInterface

variable {source : String} {c d : Concrete}

/-- The bases that a child of an interface adds. -/
theorem forestBases_part (source : String) (h : IsInterface c) (hd : d ∈ c.parts) :
    forestBases (lower source (interfaceRole d.label) d) =
      if d.isExtends then d.parts.map (Concrete.targetName source) else [] := by
  rcases lower_interfaceRole source (h.name d hd) with
    ⟨hextends, -, hlower⟩ | ⟨hextends, -, hlower⟩ | ⟨hextends, -, hstatement⟩
  · have htargets : ∀ e ∈ d.parts, e.isTarget = true := fun e he =>
      h.targets e (List.mem_flatMap.mpr ⟨d, List.mem_filter.mpr ⟨hd, hextends⟩, he⟩)
    rw [hlower, hextends, lower_typeClause, if_pos rfl,
      ← treeTargets_lower_heritageType source _ d.parts htargets]
    exact List.append_nil _
  · rw [hlower, hextends, lower_interfaceBody]
    refine forestBases_eq_nil fun x hx => ?_
    obtain ⟨e, _, hx⟩ := List.mem_flatMap.mp hx
    exact kind_of_mem_lower_member hx
  · rw [hextends]
    refine forestBases_eq_nil fun x hx hkind => ?_
    have hclause := hstatement x hx
    rw [hkind] at hclause
    cases hclause

/-- The members that a child of an interface adds. -/
theorem forestMembers_part (source : String) (h : IsInterface c) (hd : d ∈ c.parts) :
    forestMembers (lower source (interfaceRole d.label) d) =
      if d.isBody then d.parts.filterMap (signatureName? source) else [] := by
  rcases lower_interfaceRole source (h.name d hd) with
    ⟨-, hbody, hlower⟩ | ⟨-, hbody, hlower⟩ | ⟨-, hbody, hstatement⟩
  · rw [hlower, hbody, lower_typeClause]
    rfl
  · rw [hlower, hbody, lower_interfaceBody]
    exact filterMap_parts_member source d
  · rw [hbody]
    refine forestMembers_eq_nil fun x hx => ?_
    have hkind := hstatement x hx
    revert hkind
    cases x.label.kind <;> decide

/-- What an interface says is what is written in its extends clauses and in its body. -/
theorem declarationShape_eq (h : IsInterface c) {kids : List Token} {n : Node}
    (hn : lower source (.plain (exportKeywords kids)) c = [n.focus]) :
    declarationShape n =
      ⟨c.extended.map (Concrete.targetName source),
        c.bodyParts.filterMap (signatureName? source)⟩ := by
  rw [lower_interface h.rule, List.singleton_inj] at hn
  have hkeywords : ∀ x ∈ (exportKeywords kids).map leaf, x.label.kind.isExport = true := by
    intro x hx
    obtain ⟨k, hk, rfl⟩ := List.mem_map.mp hx
    exact exportKeywords_isExport hk
  have hbases : forestBases ((exportKeywords kids).map leaf) = [] :=
    forestBases_eq_nil fun x hx hkind => by
      have hexport := hkeywords x hx
      rw [hkind] at hexport
      cases hexport
  have hmembers : forestMembers ((exportKeywords kids).map leaf) = [] :=
    forestMembers_eq_nil fun x hx => by
      have hexport := hkeywords x hx
      revert hexport
      cases x.label.kind <;> decide
  rw [declarationShape_of_focus hn.symm, forestBases_append, forestMembers_append, hbases, hmembers,
    List.nil_append, List.nil_append, forestBases_flatMap, forestMembers_flatMap,
    Concrete.extended, Concrete.bodyParts, List.map_flatMap, List.filterMap_flatMap,
    flatMap_filter_eq, flatMap_filter_eq]
  congr 1
  · exact List.flatMap_congr fun d hd => h.forestBases_part source hd
  · exact List.flatMap_congr fun d hd => h.forestMembers_part source hd

end IsInterface

/-! ### The interfaces of a module -/

/-- What becomes an interface is one, and the keywords in front of it are those of an export. -/
theorem Lowering.Becomes.interface {source : String} {root c : Concrete} {t : Lowered}
    (h : Becomes source root c t) (ht : t.label.kind = .interfaceDeclaration) :
    c.label.rule = .interfaceDeclaration ∧
      ∃ kids, lower source (.plain (exportKeywords kids)) c = [t] := by
  obtain ⟨d, _, role, hread, hlower, hkind⟩ := h
  rw [ht] at hkind
  have hrule : Kind.interfaceDeclaration ∈ c.label.rule.kinds →
      c.label.rule = .interfaceDeclaration := by
    cases c.label.rule <;> decide
  have hexporting : role.Exporting := hread.exporting ⟨[], rfl⟩
  cases role
  case plain keywords =>
    obtain ⟨kids, rfl⟩ := hexporting
    exact ⟨hrule hkind, kids, hlower⟩
  case member =>
    -- A declaration among the members has no name as a member.
    have hmember : signatureName? source c = none := by
      simp [signatureName?, hrule hkind]
    exact ⟨hrule hkind, [], (lower_member_of_none hmember).symm.trans hlower⟩
  all_goals
    revert hkind
    simp [Role.kinds]

/-- Every interface of a module comes from one that is written in its source, and says what is
written there. -/
theorem declarationShape_interface (source : String) (root : Concrete) {n : Node}
    (hn : n ∈ (lowerRoot source root).cursors) (hkind : n.kind = .interfaceDeclaration) :
    (∃ c, Tree.Occurs c root ∧ c.label.rule = .interfaceDeclaration ∧
      Becomes source root c n.focus) ∧
      ∀ c, Becomes source root c n.focus → IsInterface c →
        declarationShape n =
          ⟨c.extended.map (Concrete.targetName source),
            c.bodyParts.filterMap (signatureName? source)⟩ := by
  constructor
  · have hlabel : n.focus.label.kind = .interfaceDeclaration := hkind
    obtain ⟨c, hc⟩ := exists_becomes (Tree.occurs_of_mem_cursors hn) (by rw [hlabel]; rfl)
      (by rw [hlabel]; rfl) (by rw [hlabel]; exact Kind.noConfusion)
    exact ⟨c, hc.occurs, (hc.interface hkind).1, hc⟩
  · intro c hc hinterface
    obtain ⟨-, kids, hlower⟩ := hc.interface hkind
    exact hinterface.declarationShape_eq hlower

namespace Dialog

open Sample (rule token)

def source : String :=
  "export interface D<T> extends A, n.B, C<T> " ++
    "\x7b 'x-y': \x7b z: 1 \x7d; m(): T; [k: string]: T \x7d"

def typeName (start stop : Nat) (fields : List String) : Concrete :=
  rule "type_identifier" start stop fields []

def property (start middle stop : Nat) (name type : Concrete) : Concrete :=
  rule "property_signature" start stop [] [name, rule "type_annotation" middle stop ["type"] [type]]

def heritage : Concrete :=
  rule "extends_type_clause" 22 42 []
    [ token "extends" 22 29, typeName 30 31 ["type"], token "," 31 32,
      rule "nested_type_identifier" 33 36 ["type"]
        [rule "identifier" 33 34 ["module"] [], token "." 34 35, typeName 35 36 ["name"]],
      token "," 36 37,
      rule "generic_type" 38 42 ["type"]
        [ typeName 38 39 ["name"],
          rule "type_arguments" 39 42 ["type_arguments"] [typeName 40 41 []] ] ]

def body : Concrete :=
  rule "interface_body" 43 86 ["body"]
    [ property 45 50 60 (rule "string" 45 50 ["name"] [])
        (rule "object_type" 52 60 []
          [property 54 55 58 (rule "property_identifier" 54 55 ["name"] [])
            (rule "literal_type" 57 58 [] [])]),
      rule "method_signature" 62 68 []
        [ rule "property_identifier" 62 63 ["name"] [],
          rule "formal_parameters" 63 65 ["parameters"] [],
          rule "type_annotation" 65 68 ["return_type"] [typeName 67 68 []] ],
      rule "index_signature" 70 84 []
        [ rule "identifier" 71 72 ["name"] [],
          rule "predefined_type" 74 80 ["index_type"] [],
          rule "type_annotation" 81 84 ["type"] [typeName 83 84 []] ] ]

def declaration : Concrete :=
  rule "interface_declaration" 7 86 ["declaration"]
    [ typeName 17 18 ["name"],
      rule "type_parameters" 18 21 ["type_parameters"]
        [rule "type_parameter" 19 20 [] [typeName 19 20 ["name"]]],
      heritage, body ]

def statement : Concrete :=
  rule "export_statement" 0 86 [] [token "export" 0 6, declaration]

def tree : Concrete := rule "program" 0 86 [] [statement]

def node : Node where
  focus := .node ⟨.interfaceDeclaration "D", ⟨7, 86⟩⟩
    (leaf ⟨.exportKeyword, ⟨0, 6⟩⟩ ::
      declaration.parts.flatMap fun d => lower source (interfaceRole d.label) d)
  above := [⟨[], ⟨.sourceFile, ⟨0, 86⟩⟩, []⟩]

theorem lower_declaration :
    lower source (.plain (exportKeywords (statement.children.map Tree.label))) declaration =
      [node.focus] := by
  have hname : declaredName source (declaration.children.map Tree.label) = "D" := by decide +kernel
  rw [lower_interface (by decide +kernel), hname]
  rfl

theorem node_mem_cursors : node ∈ (lowerRoot source tree).cursors :=
  Tree.mem_cursors_of_mem_children (Tree.ofRoot_mem_cursors _) List.mem_cons_self

theorem becomes_declaration : Becomes source tree declaration node.focus :=
  ⟨statement, List.mem_cons_self, _, .inside (List.mem_cons_of_mem _ List.mem_cons_self) .here,
    lower_declaration, by decide +kernel⟩

theorem isInterface_declaration : IsInterface declaration where
  rule := by decide +kernel
  name := by decide +kernel
  targets := by decide +kernel

end Dialog

/-- Neither the type parameter nor a type argument, the member of the nested object type or the
index signature is taken. -/
theorem declarationShape_interface_dialog :
    Dialog.node ∈ (lowerRoot Dialog.source Dialog.tree).cursors ∧
      Dialog.node.kind = .interfaceDeclaration ∧
      Becomes Dialog.source Dialog.tree Dialog.declaration Dialog.node.focus ∧
      IsInterface Dialog.declaration ∧
      declarationShape Dialog.node = ⟨["A", "n.B", "C"], ["x-y", "m"]⟩ := by
  refine ⟨Dialog.node_mem_cursors, rfl, Dialog.becomes_declaration,
    Dialog.isInterface_declaration, ?_⟩
  obtain ⟨-, hshape⟩ :=
    declarationShape_interface Dialog.source Dialog.tree Dialog.node_mem_cursors rfl
  rw [hshape _ Dialog.becomes_declaration Dialog.isInterface_declaration]
  decide +kernel

end PropSurface
