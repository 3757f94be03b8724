import Mathlib.Tactic.Common
import PropSurface.Element.Lowering
import PropSurface.Proofs.Tree.Rows

/-!
# What lowering makes of a node

A lowered node is put together from the lowered forms of its children.  This module says which
children come in and in which order, and what statements and expressions become.

**Definitions.**
* `Concrete.parts`: the children that carry meaning; `Concrete.text`: the text of a node.

**Results.**
* `Lowering.meaningful_lowerParts`, `Lowering.filling_lowerParts`, `Lowering.standing_lowerParts`:
  the children that come in.
* `Lowering.isStatement_of_mem_lower_plain`: what a statement or an expression is lowered to, which
  is never a type or a member of a type (`Lowering.kind_of_mem_lower_plain`).
-/

namespace PropSurface

namespace Concrete

/-- The children that carry meaning, in order. -/
def parts (c : Concrete) : List Concrete := c.children.filter (·.label.isMeaningful)

/-- The text of a node. -/
def text (source : String) (c : Concrete) : String := Source.slice source c.label.span

/-- The first child that fills a role. -/
def filling? (c : Concrete) (field : String) : Option Concrete :=
  c.children.find? (·.label.fills field)

/-- The first child that stands for a rule. -/
def standing? (c : Concrete) (rule : Rule) : Option Concrete :=
  c.children.find? fun d => decide (d.label.rule = rule)

theorem filling?_labels (c : Concrete) (field : String) :
    Token.filling? field (c.children.map Tree.label) = (c.filling? field).map Tree.label :=
  List.find?_map ..

theorem standing?_labels (c : Concrete) (rule : Rule) :
    Token.standing? rule (c.children.map Tree.label) = (c.standing? rule).map Tree.label :=
  List.find?_map ..

end Concrete

namespace Lowering

/-! ### Which children come in -/

/-- Every child is lowered on its own, in the role that it is given. -/
theorem lowerParts_eq_map (source : String) (roleOf : Token → Role) (cs : List Concrete) :
    lowerParts source roleOf cs =
      cs.map fun c => (c.label, lower source (roleOf c.label) c) := by
  induction cs with
  | nil => rfl
  | cons c cs ih => rw [lowerParts, ih, List.map_cons]

/-- A node becomes what its plan builds of its children. -/
theorem lower_eq_build (source : String) (role : Role) (c : Concrete) :
    lower source role c =
      (plan source role c.label (c.children.map Tree.label)).build
        (lowerParts source (plan source role c.label (c.children.map Tree.label)).roleOf
          c.children) := by
  cases c with
  | node t ts => rfl

/-- The children that carry meaning leave their elements one after the other. -/
theorem meaningful_lowerParts (source : String) (roleOf : Token → Role) (c : Concrete) :
    meaningful (lowerParts source roleOf c.children) =
      c.parts.flatMap fun d => lower source (roleOf d.label) d := by
  rw [meaningful, lowerParts_eq_map, List.filter_map, List.flatMap_map]
  rfl

/-- The first child that fills a role leaves its elements, and no other child does. -/
theorem filling_lowerParts (source : String) (roleOf : Token → Role) (c : Concrete)
    (field : String) :
    filling field (lowerParts source roleOf c.children) =
      ((c.filling? field).map fun d => lower source (roleOf d.label) d).getD [] := by
  rw [filling, lowerParts_eq_map, List.find?_map, Option.map_map]
  rfl

theorem standing_lowerParts (source : String) (roleOf : Token → Role) (c : Concrete)
    (rule : Rule) :
    standing rule (lowerParts source roleOf c.children) =
      ((c.standing? rule).map fun d => lower source (roleOf d.label) d).getD [] := by
  rw [standing, lowerParts_eq_map, List.find?_map, Option.map_map]
  rfl

theorem pairTargets_cons_of_arguments {part : Part} (h : part.1.rule = .typeArguments)
    (rest : List Part) :
    pairTargets (part :: rest) = (part :: (pairTargets rest).1, (pairTargets rest).2) :=
  if_pos h

theorem pairTargets_cons_of_expression {part : Part} (h : part.1.rule ≠ .typeArguments)
    (rest : List Part) :
    pairTargets (part :: rest) =
      ([], target part.1 (part.2 ++ (pairTargets rest).1.flatMap (·.2)) ::
        (pairTargets rest).2) :=
  if_neg h

/-- A source is lowered statement by statement. -/
theorem lowerRoot_eq (source : String) (root : Concrete) :
    lowerRoot source root =
      .node ⟨.sourceFile, root.label.span⟩ (root.parts.flatMap (lower source (.plain []))) := by
  rw [lowerRoot, meaningful_lowerParts]

end Lowering

/-! ### Keywords of exports -/

/-- Whether only export statements give rise to elements of a kind. -/
def Kind.isExport : Kind → Bool
  | .exportKeyword => true
  | .defaultKeyword => true
  | .exportAssignment => true
  | .exportDeclaration => true
  | .namedExports => true
  | .exportSpecifier => true
  | _ => false

/-- The keywords of an export statement are elements that only exports have. -/
theorem exportKeywords_isExport {kids : List Token} {e : Element}
    (h : e ∈ Lowering.exportKeywords kids) : e.kind.isExport = true := by
  rcases List.mem_append.mp h with h | h
  · obtain ⟨t, _, rfl⟩ := Option.map_eq_some_iff.mp (Option.mem_toList.mp h)
    rfl
  · obtain ⟨t, _, rfl⟩ := Option.map_eq_some_iff.mp (Option.mem_toList.mp h)
    rfl

/-! ### Roots of statements and expressions -/

/-- Whether a statement or an expression can become an element of a kind. -/
def Kind.isStatement : Kind → Bool
  | .exportAssignment => true
  | .exportDeclaration => true
  | .classDeclaration => true
  | .interfaceDeclaration => true
  | .typeAliasDeclaration => true
  | .identifier => true
  | .importDeclaration => true
  | .stringLiteral => true
  | .unknown => true
  | _ => false

/-- Whether elements of a kind stand for types or members of types. -/
def Kind.isTypePart : Kind → Bool
  | .typeReference => true
  | .typeLiteral => true
  | .intersectionType => true
  | .propertySignature => true
  | .methodSignature => true
  | _ => false

namespace Lowering

theorem kind_of_mem_wrap {payload : Payload} {t : Token} {first : List Lowered}
    {parts : List Part} {x : Lowered} (h : x ∈ wrap payload t first parts) :
    x.label.kind = payload.kind := by
  rw [List.mem_singleton.mp h]
  rfl

mutual

/-- What a statement or an expression is lowered to. -/
theorem isStatement_of_mem_lower_plain (source : String) :
    ∀ (c : Concrete) (keywords : List Element),
      ∀ x ∈ lower source (.plain keywords) c, x.label.kind.isStatement = true
  | .node t ts, keywords, x, hx => by
      cases hrule : t.rule <;> simp only [lower, plan, planPlain, hrule] at hx
      case exportStatement =>
        unfold planExport at hx
        split at hx
        · -- The declaration takes the place of the statement.
          rename_i field hform
          change x ∈ filling field (lowerParts source _ (Tree.node t ts).children) at hx
          rw [filling_lowerParts] at hx
          cases hfind : Concrete.filling? (.node t ts) field with
          | none =>
              rw [hfind] at hx
              cases hx
          | some d =>
              rw [hfind] at hx
              exact isStatement_of_mem_lower_plain_of_mem source ts d
                (List.mem_of_find?_eq_some hfind) _ x hx
        · rw [List.mem_singleton.mp hx]
          rfl
        · rw [kind_of_mem_wrap hx]
          rfl
        · rw [List.mem_singleton.mp hx]
          rfl
        · rw [kind_of_mem_wrap hx]
          rfl
      case string =>
        rw [List.mem_singleton.mp hx]
        rfl
      case identifier =>
        rw [List.mem_singleton.mp hx]
        rfl
      case propertyIdentifier =>
        rw [List.mem_singleton.mp hx]
        rfl
      case typeIdentifier =>
        rw [List.mem_singleton.mp hx]
        rfl
      case otherIdentifier =>
        rw [List.mem_singleton.mp hx]
        rfl
      all_goals
        rw [kind_of_mem_wrap hx]
        rfl

theorem isStatement_of_mem_lower_plain_of_mem (source : String) :
    ∀ cs : List Concrete, ∀ c ∈ cs, ∀ (keywords : List Element),
      ∀ x ∈ lower source (.plain keywords) c, x.label.kind.isStatement = true
  | c :: cs, d, hd, keywords, x, hx => by
      rcases List.mem_cons.mp hd with hd | hd
      · rw [hd] at hx
        exact isStatement_of_mem_lower_plain source c keywords x hx
      · exact isStatement_of_mem_lower_plain_of_mem source cs d hd keywords x hx

end

/-- A statement or an expression is never lowered to a type or a member of a type. -/
theorem kind_of_mem_lower_plain (source : String) (c : Concrete) (keywords : List Element)
    (x : Lowered) (hx : x ∈ lower source (.plain keywords) c) :
    x.label.kind.isTypePart = false := by
  have hkind := isStatement_of_mem_lower_plain source c keywords x hx
  revert hkind
  cases x.label.kind <;> decide

end Lowering

end PropSurface
