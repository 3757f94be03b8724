import PropSurface.Source

/-!
# Elements

The nodes of a lowered module: what export, heritage and type resolution look at, in
a closed list of kinds.  Everything else a grammar produces is kept as `unknown`, so
that searches still pass through it.

**Contents.**
* `Kind`: the kinds, with their names.
* `Payload`: a kind with what belongs to it; `Payload.name?` is the name that an
  element declares or refers to.
* `Element`: a payload and the span it was read from.
-/

namespace PropSurface

inductive Kind where
  | sourceFile
  | exportKeyword
  | defaultKeyword
  | exportAssignment
  | exportDeclaration
  | namedExports
  | exportSpecifier
  | classDeclaration
  | interfaceDeclaration
  | typeAliasDeclaration
  | heritageClause
  | heritageTarget
  | typeReference
  | typeLiteral
  | intersectionType
  | propertySignature
  | methodSignature
  | identifier
  | importDeclaration
  | importClause
  | namedImports
  | importSpecifier
  | stringLiteral
  | unknown
deriving DecidableEq, Repr

namespace Kind

def all : List Kind :=
  [ sourceFile, exportKeyword, defaultKeyword, exportAssignment, exportDeclaration,
    namedExports, exportSpecifier, classDeclaration, interfaceDeclaration,
    typeAliasDeclaration, heritageClause, heritageTarget, typeReference, typeLiteral,
    intersectionType, propertySignature, methodSignature, identifier,
    importDeclaration, importClause, namedImports, importSpecifier, stringLiteral,
    unknown ]

def name : Kind → String
  | sourceFile => "SourceFile"
  | exportKeyword => "ExportKeyword"
  | defaultKeyword => "DefaultKeyword"
  | exportAssignment => "ExportAssignment"
  | exportDeclaration => "ExportDeclaration"
  | namedExports => "NamedExports"
  | exportSpecifier => "ExportSpecifier"
  | classDeclaration => "ClassDeclaration"
  | interfaceDeclaration => "InterfaceDeclaration"
  | typeAliasDeclaration => "TypeAliasDeclaration"
  | heritageClause => "HeritageClause"
  | heritageTarget => "ExpressionWithTypeArguments"
  | typeReference => "TypeReference"
  | typeLiteral => "TypeLiteral"
  | intersectionType => "IntersectionType"
  | propertySignature => "PropertySignature"
  | methodSignature => "MethodSignature"
  | identifier => "Identifier"
  | importDeclaration => "ImportDeclaration"
  | importClause => "ImportClause"
  | namedImports => "NamedImports"
  | importSpecifier => "ImportSpecifier"
  | stringLiteral => "StringLiteral"
  | unknown => "Unknown"

/-- The kind of the given name. -/
def ofName? (s : String) : Option Kind := all.find? (·.name == s)

end Kind

/-- The keyword of a heritage clause. -/
inductive Heritage where
  | extending
  | implementing
deriving DecidableEq, Repr

/-- The keyword as it is written. -/
def Heritage.keyword : Heritage → String
  | extending => "extends"
  | implementing => "implements"

/-- What an element is. -/
inductive Payload where
  | sourceFile
  | exportKeyword
  | defaultKeyword
  /-- A default export of an expression. -/
  | exportAssignment
  /-- A list of exported names, perhaps passed on from another module. -/
  | exportDeclaration
  | namedExports
  | exportSpecifier (name : String) (rename : Option String)
  | classDeclaration (name : Option String)
  | interfaceDeclaration (name : String)
  | typeAliasDeclaration (name : String)
  | heritageClause (heritage : Heritage)
  /-- One target of a heritage clause, with its type arguments. -/
  | heritageTarget
  | typeReference (name : String)
  | typeLiteral
  | intersectionType
  | propertySignature (name : String)
  | methodSignature (name : String)
  | identifier (name : String)
  | importDeclaration
  | importClause
  | namedImports
  | importSpecifier (name : String) (rename : Option String)
  | stringLiteral (value : String)
  | unknown (rawKind : String)
deriving DecidableEq, Repr

namespace Payload

def kind : Payload → Kind
  | sourceFile => .sourceFile
  | exportKeyword => .exportKeyword
  | defaultKeyword => .defaultKeyword
  | exportAssignment => .exportAssignment
  | exportDeclaration => .exportDeclaration
  | namedExports => .namedExports
  | exportSpecifier _ _ => .exportSpecifier
  | classDeclaration _ => .classDeclaration
  | interfaceDeclaration _ => .interfaceDeclaration
  | typeAliasDeclaration _ => .typeAliasDeclaration
  | heritageClause _ => .heritageClause
  | heritageTarget => .heritageTarget
  | typeReference _ => .typeReference
  | typeLiteral => .typeLiteral
  | intersectionType => .intersectionType
  | propertySignature _ => .propertySignature
  | methodSignature _ => .methodSignature
  | identifier _ => .identifier
  | importDeclaration => .importDeclaration
  | importClause => .importClause
  | namedImports => .namedImports
  | importSpecifier _ _ => .importSpecifier
  | stringLiteral _ => .stringLiteral
  | unknown _ => .unknown

/-- The name an element declares or refers to.  A specifier goes by the name it has
in its own module, which is the new name if it renames. -/
def name? : Payload → Option String
  | classDeclaration name => name
  | interfaceDeclaration name => some name
  | typeAliasDeclaration name => some name
  | typeReference name => some name
  | propertySignature name => some name
  | methodSignature name => some name
  | identifier name => some name
  | exportSpecifier name rename => some (rename.getD name)
  | importSpecifier name rename => some (rename.getD name)
  | _ => none

end Payload

/-- A payload and the bytes it was read from. -/
structure Element where
  payload : Payload
  span : Span
deriving DecidableEq, Repr

namespace Element

def kind (e : Element) : Kind := e.payload.kind

/-- The name an element declares or refers to. -/
def name? (e : Element) : Option String := e.payload.name?

end Element

end PropSurface
