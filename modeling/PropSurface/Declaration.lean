import PropSurface.ParsedModule
import PropSurface.Query

/-!
# Type declarations

An interface or a type alias, read as a list of base types and a list of own members.

* An interface has the targets of its extends clauses as bases, and the properties and
  methods right below it as members.
* An alias of a reference has that type as its base; an alias of an object type has its
  members; an intersection has those of its operands, in order.  Any other alias has
  neither.
-/

namespace PropSurface

/-- What a declaration says: the types it builds on, and its own members. -/
structure TypeShape where
  bases : List String
  own : List String
deriving DecidableEq, Repr

namespace TypeShape

/-- A type that says nothing. -/
def empty : TypeShape := ⟨[], []⟩

/-- Both shapes, one after the other. -/
def append (a b : TypeShape) : TypeShape := ⟨a.bases ++ b.bases, a.own ++ b.own⟩

/-- All shapes, in order. -/
def concat (shapes : List TypeShape) : TypeShape := shapes.foldr append empty

end TypeShape

/-- Whether a node declares a type. -/
def Node.isTypeDeclaration (n : Node) : Bool :=
  n.is .interfaceDeclaration || n.is .typeAliasDeclaration

/-- The first declaration of a type in level order. -/
def declaration? (root : Node) (name : String) : Option Node :=
  root.query?
    [ { relation := .descendant, kind := none,
        holds := fun n => n.isTypeDeclaration && n.isNamed name } ]

/-- Name of a property or method. -/
def memberName? (n : Node) : Option String :=
  match n.label.payload with
  | .propertySignature name => some name
  | .methodSignature name => some name
  | _ => none

/-- Names of the properties and methods right below a node. -/
def memberNames (n : Node) : List String := n.children.filterMap memberName?

/-- Whether a node is an extends clause. -/
def isExtendsClause (n : Node) : Bool :=
  decide (n.label.payload = .heritageClause .extending)

/-- Name of a heritage target: its first identifier. -/
def targetName? (target : Node) : Option String :=
  (target.search? (Node.is .identifier) (some 1)).bind Node.name?

/-- Names of the targets of a heritage clause. -/
def targetNames (clause : Node) : List String :=
  (clause.children.filter (Node.is .heritageTarget)).filterMap targetName?

/-- Shape of a type that is written as a reference or an object type. -/
def simpleShape (n : Node) : TypeShape :=
  match n.label.payload with
  | .typeReference name => ⟨[name], []⟩
  | .typeLiteral => ⟨[], memberNames n⟩
  | _ => .empty

/-- Shape of the value of an alias. -/
def valueShape (value : Node) : TypeShape :=
  match value.label.payload with
  | .intersectionType => .concat (value.children.map simpleShape)
  | _ => simpleShape value

/-- Whether a node can be the value of an alias that says something. -/
def isAliasValue (n : Node) : Bool :=
  n.is .typeLiteral || n.is .intersectionType || n.is .typeReference

/-- What a declaration says. -/
def declarationShape (declaration : Node) : TypeShape :=
  match declaration.label.payload with
  | .interfaceDeclaration _ =>
      ⟨(declaration.children.filter isExtendsClause).flatMap targetNames,
        memberNames declaration⟩
  | .typeAliasDeclaration _ =>
      ((declaration.children.find? isAliasValue).map valueShape).getD .empty
  | _ => .empty

/-- Names of all types declared in a module, with repetitions. -/
def ParsedModule.declaredTypes (m : ParsedModule) : List String :=
  (m.root.cursors.filter Node.isTypeDeclaration).filterMap Node.name?

end PropSurface
