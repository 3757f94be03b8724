import PropSurface.Concrete.Rule
import PropSurface.Element

/-!
# Lowering

From the concrete tree of a source to a tree of elements.

**Input.**  A concrete tree and its source.

**Algorithm.**  A concrete node is read in a `Role` that its surroundings give it: a
statement, a member, a type, a heritage target and so on.  For a node in a role,
`plan` says in which role each child is read and how the lowered children are put
together.  `lower` follows the plan, child by child.

**Shape of the result.**
* The keywords of an exported declaration come first among its elements, ahead of its
  name.
* A heritage clause holds one `heritageTarget` per target; the type arguments of a
  target are below it.
* Members of an interface stand directly below it; wrappers such as parentheses and
  type annotations leave no element; nested intersections are one flat list.
* Comments and class decorators leave no element; a node that is none of these is
  kept as `unknown`.

The lowered form of a node depends on nothing but the node, its role and the source.
-/

namespace PropSurface

abbrev Lowered := Tree Element

/-- A child with its lowered form. -/
abbrev Part := Token × List Lowered

/-- How a concrete node is read, as its surroundings decide. -/
inductive Role where
  /-- A statement or expression; the keywords in front of it, if it is exported. -/
  | plain (keywords : List Element)
  | importClause
  | namedImports
  | exportClause
  | importSpecifier
  | exportSpecifier
  | classHeritage
  /-- Targets written as expressions, each followed by its type arguments. -/
  | extendsClause
  /-- Targets written as types. -/
  | typeClause (heritage : Heritage)
  | heritageType
  | instantiation
  | interfaceBody
  | member
  | typeArguments
  | type
  /-- An operand of an intersection. -/
  | operand
  | name
  /-- Leaves no element. -/
  | ignored

/-- What becomes of a node: the role of each child, and the elements made of the
lowered children. -/
structure Plan where
  roleOf : Token → Role
  build : List Part → List Lowered

/-- The node leaves the given elements, whatever its children are. -/
def Plan.constant (elements : List Lowered) : Plan :=
  ⟨fun _ => .ignored, fun _ => elements⟩

namespace Lowering

/-- An element without children. -/
def leaf (e : Element) : Lowered := .node e []

/-- Identifier with the text of a node. -/
def identifier (source : String) (t : Token) : Lowered :=
  leaf ⟨.identifier (Source.slice source t.span), t.span⟩

/-- Text of a node without the quotes around it. -/
def unquoted (source : String) (t : Token) : String :=
  Source.unquote (Source.slice source t.span)

/-- String literal with the unquoted text of a node. -/
def stringLiteral (source : String) (t : Token) : Lowered :=
  leaf ⟨.stringLiteral (unquoted source t), t.span⟩

/-- Lowered forms of the children that carry meaning, in order. -/
def meaningful (parts : List Part) : List Lowered :=
  (parts.filter (·.1.isMeaningful)).flatMap (·.2)

/-- Lowered form of the first child that fills a role of the rule. -/
def filling (field : String) (parts : List Part) : List Lowered :=
  ((parts.find? (·.1.fills field)).map (·.2)).getD []

/-- Lowered form of the first child that stands for a rule. -/
def standing (rule : Rule) (parts : List Part) : List Lowered :=
  ((parts.find? (fun part => decide (part.1.rule = rule))).map (·.2)).getD []

/-- The node becomes one element above `first` and its meaningful children. -/
def wrap (payload : Payload) (t : Token) (first : List Lowered) (parts : List Part) :
    List Lowered :=
  [.node ⟨payload, t.span⟩ (first ++ meaningful parts)]

/-- A node of no known rule: kept with its kind, below it the keywords and all
children, read as `role`. -/
def planUnknown (t : Token) (keywords : List Element) (role : Role) : Plan :=
  ⟨fun _ => role, wrap (.unknown t.kind) t (keywords.map leaf)⟩

/-- An import or export specifier: its names are its only children. -/
def planSpecifier (source : String) (make : String → Option String → Payload)
    (t : Token) (kids : List Token) : Plan :=
  match Token.filling? "name" kids with
  | none => planUnknown t [] (.plain [])
  | some name =>
      let rename := Token.filling? "alias" kids
      .constant
        [.node ⟨make (unquoted source name) (rename.map (unquoted source)), t.span⟩
          (identifier source name :: (rename.map (identifier source)).toList)]

/-- Keywords that stand in front of an exported declaration. -/
def exportKeywords (kids : List Token) : List Element :=
  ((Token.standing? .exportToken kids).map (⟨.exportKeyword, ·.span⟩)).toList ++
    ((Token.standing? .defaultToken kids).map (⟨.defaultKeyword, ·.span⟩)).toList

/-- The five forms of an export statement. -/
inductive ExportForm where
  /-- A declaration, or the value of a default export if that is a class: the child
  that fills the field takes the keywords along. -/
  | declaration (field : String)
  /-- Any other value of a default export. -/
  | value
  /-- An assignment of the whole export. -/
  | assignment
  /-- A list of names. -/
  | clause
  | other
deriving DecidableEq, Repr

/-- The form of an export statement with the given children. -/
def exportForm (kids : List Token) : ExportForm :=
  match Token.filling? "declaration" kids, Token.filling? "value" kids with
  | some _, _ => .declaration "declaration"
  | none, some value => if value.rule = .classLike then .declaration "value" else .value
  | none, none =>
      if (Token.standing? .equalsToken kids).isSome then .assignment
      else if (Token.standing? .exportClause kids).isSome then .clause
      else .other

def planExport (source : String) (t : Token) (kids : List Token) : Plan :=
  match exportForm kids with
  | .declaration field => ⟨fun _ => .plain (exportKeywords kids), filling field⟩
  | .value =>
      ⟨fun _ => .plain [],
        fun parts => [.node ⟨.exportAssignment, t.span⟩ (filling "value" parts)]⟩
  | .assignment => ⟨fun _ => .plain [], wrap .exportAssignment t []⟩
  | .clause =>
      ⟨fun _ => .exportClause,
        fun parts =>
          [.node ⟨.exportDeclaration, t.span⟩
            (standing .exportClause parts ++
              ((Token.filling? "source" kids).map (stringLiteral source)).toList)]⟩
  | .other => planUnknown t [] (.plain [])

/-- A class: decorators are dropped, so that the keywords stay next to the name. -/
def planClass (source : String) (keywords : List Element) (t : Token)
    (kids : List Token) : Plan :=
  let name := (Token.filling? "name" kids).map (Source.slice source ·.span)
  ⟨fun k =>
      if k.rule = .decorator then .ignored
      else if k.rule = .classHeritage then .classHeritage
      else if k.fills "name" then .name
      else .plain [],
    wrap (.classDeclaration name) t (keywords.map leaf)⟩

/-- Text of the child that names a declaration; empty if there is none. -/
def declaredName (source : String) (kids : List Token) : String :=
  ((Token.filling? "name" kids).map (Source.slice source ·.span)).getD ""

def planInterface (source : String) (keywords : List Element) (t : Token)
    (kids : List Token) : Plan :=
  ⟨fun k =>
      if k.fills "name" then .name
      else
        match k.rule with
        | .extendsTypeClause => .typeClause .extending
        | .interfaceBody => .interfaceBody
        | .objectType => .interfaceBody
        | _ => .plain [],
    wrap (.interfaceDeclaration (declaredName source kids)) t (keywords.map leaf)⟩

def planAlias (source : String) (keywords : List Element) (t : Token)
    (kids : List Token) : Plan :=
  ⟨fun k =>
      if k.fills "name" then .name
      else if k.fills "value" then .type
      else .plain [],
    wrap (.typeAliasDeclaration (declaredName source kids)) t (keywords.map leaf)⟩

def planPlain (source : String) (keywords : List Element) (t : Token)
    (kids : List Token) : Plan :=
  match t.rule with
  | .importStatement =>
      ⟨fun k => if k.rule = .importClause then .importClause else .plain [],
        wrap .importDeclaration t []⟩
  | .exportStatement => planExport source t kids
  | .classLike => planClass source keywords t kids
  | .interfaceDeclaration => planInterface source keywords t kids
  | .typeAliasDeclaration => planAlias source keywords t kids
  | .identifier => .constant [identifier source t]
  | .propertyIdentifier => .constant [identifier source t]
  | .typeIdentifier => .constant [identifier source t]
  | .otherIdentifier => .constant [identifier source t]
  | .string => .constant [stringLiteral source t]
  | _ => planUnknown t keywords (.plain [])

/-- Heritage target with the given elements below it. -/
def target (t : Token) (forest : List Lowered) : Lowered :=
  .node ⟨.heritageTarget, t.span⟩ forest

/-- Split the children of an extends clause into the type arguments in front of the
first expression, and the targets: each expression with the arguments after it. -/
def pairTargets : List Part → List Part × List Lowered
  | [] => ([], [])
  | (t, forest) :: rest =>
      let (arguments, targets) := pairTargets rest
      if t.rule = .typeArguments then ((t, forest) :: arguments, targets)
      else ([], target t (forest ++ arguments.flatMap (·.2)) :: targets)

/-- Targets of an extends clause; arguments without an expression in front of them
are targets of their own. -/
def extendsTargets (parts : List Part) : List Lowered :=
  let (arguments, targets) := pairTargets (parts.filter (·.1.isMeaningful))
  arguments.map (fun part => target part.1 part.2) ++ targets

/-- A clause whose targets are expressions. -/
def planExtends (t : Token) : Plan :=
  ⟨fun k =>
      match k.rule with
      | .typeArguments => .typeArguments
      | .instantiation => .instantiation
      | _ => .plain [],
    fun parts => [.node ⟨.heritageClause .extending, t.span⟩ (extendsTargets parts)]⟩

/-- The heritage of a class: its clauses, or one bare list of targets. -/
def planHeritage (t : Token) (kids : List Token) : Plan :=
  if (kids.filter (·.isMeaningful)).any
      (fun k => k.rule = .extendsClause || k.rule = .implementsClause) then
    ⟨fun k =>
        match k.rule with
        | .extendsClause => .extendsClause
        | .implementsClause => .typeClause .implementing
        | _ => .plain [],
      meaningful⟩
  else planExtends t

/-- The child that names a generic type. -/
def genericName? (kids : List Token) : Option Token :=
  (Token.filling? "name" kids).or (kids.find? (·.isMeaningful))

/-- Role of the children of a generic type. -/
def argumentsOnly (k : Token) : Role :=
  if k.fills "type_arguments" then .typeArguments else .ignored

/-- A heritage target written as a type. -/
def planHeritageType (source : String) (t : Token) (kids : List Token) : Plan :=
  match t.rule with
  | .genericType =>
      ⟨argumentsOnly,
        fun parts =>
          [target t (((genericName? kids).map (identifier source)).toList ++
            filling "type_arguments" parts)]⟩
  | _ => .constant [target t [identifier source t]]

def planType (source : String) (t : Token) (kids : List Token) : Plan :=
  match t.rule with
  | .typeIdentifier =>
      .constant [.node ⟨.typeReference (Source.slice source t.span), t.span⟩
        [identifier source t]]
  | .nestedTypeIdentifier =>
      .constant [.node ⟨.typeReference (Source.slice source t.span), t.span⟩
        [identifier source t]]
  | .genericType =>
      let name := genericName? kids
      let text := (name.map (Source.slice source ·.span)).getD ""
      ⟨argumentsOnly,
        fun parts =>
          [.node ⟨.typeReference text, t.span⟩
            ((name.map (identifier source)).toList ++ filling "type_arguments" parts)]⟩
  | .objectType => ⟨fun _ => .member, wrap .typeLiteral t []⟩
  | .intersectionType => ⟨fun _ => .operand, wrap .intersectionType t []⟩
  | .annotatedType => ⟨fun _ => .type, meaningful⟩
  | .parenthesizedType => ⟨fun _ => .type, meaningful⟩
  | .identifier => .constant [identifier source t]
  | .propertyIdentifier => .constant [identifier source t]
  | .string => .constant [stringLiteral source t]
  | _ => planUnknown t [] .type

/-- A member of an interface or object type. -/
def planMember (source : String) (t : Token) (kids : List Token) : Plan :=
  match t.rule, Token.filling? "name" kids with
  | .propertySignature, some name =>
      ⟨fun k => if k.fills "type" then .type else .ignored,
        fun parts =>
          [.node ⟨.propertySignature (unquoted source name), t.span⟩
            (identifier source name :: filling "type" parts)]⟩
  | .methodSignature, some name =>
      .constant [.node ⟨.methodSignature (unquoted source name), t.span⟩
        [identifier source name]]
  | _, _ => planPlain source [] t kids

/-- The plan for a node with the given children in a role. -/
def plan (source : String) (role : Role) (t : Token) (kids : List Token) : Plan :=
  match role with
  | .plain keywords => planPlain source keywords t kids
  | .importClause =>
      ⟨fun k => if k.rule = .namedImports then .namedImports else .plain [],
        wrap .importClause t []⟩
  | .namedImports =>
      ⟨fun k => if k.rule = .importSpecifier then .importSpecifier else .ignored,
        wrap .namedImports t []⟩
  | .exportClause =>
      ⟨fun k => if k.rule = .exportSpecifier then .exportSpecifier else .ignored,
        wrap .namedExports t []⟩
  | .importSpecifier => planSpecifier source .importSpecifier t kids
  | .exportSpecifier => planSpecifier source .exportSpecifier t kids
  | .classHeritage => planHeritage t kids
  | .extendsClause => planExtends t
  | .typeClause heritage => ⟨fun _ => .heritageType, wrap (.heritageClause heritage) t []⟩
  | .heritageType => planHeritageType source t kids
  | .instantiation =>
      ⟨fun k => if k.rule = .typeArguments then .typeArguments else .plain [], meaningful⟩
  | .interfaceBody => ⟨fun _ => .member, meaningful⟩
  | .member => planMember source t kids
  | .typeArguments => ⟨fun _ => .type, meaningful⟩
  | .type => planType source t kids
  | .operand =>
      if t.rule = .intersectionType then ⟨fun _ => .operand, meaningful⟩
      else planType source t kids
  | .name => .constant [identifier source t]
  | .ignored => .constant []

mutual

/-- Elements of a concrete node that is read in a role. -/
def lower (source : String) (role : Role) : Concrete → List Lowered
  | .node t ts =>
      (plan source role t (ts.map Tree.label)).build
        (lowerParts source (plan source role t (ts.map Tree.label)).roleOf ts)

/-- Elements of the children of a node, each with the child it comes from. -/
def lowerParts (source : String) (roleOf : Token → Role) : List Concrete → List Part
  | [] => []
  | t :: ts => (t.label, lower source (roleOf t.label) t) :: lowerParts source roleOf ts

end

/-- The elements of a whole source. -/
def lowerRoot (source : String) (root : Concrete) : Lowered :=
  .node ⟨.sourceFile, root.label.span⟩
    (meaningful (lowerParts source (fun _ => .plain []) root.children))

end Lowering

end PropSurface
