import PropSurface.Concrete

/-!
# Rules of the grammar

The kinds of concrete nodes that the lowering tells apart, as a closed list.  All
other kinds are `other`; they are kept, by name, as unknown elements.
-/

namespace PropSurface

/-- A grammar rule or fixed token with a meaning of its own. -/
inductive Rule where
  | importStatement
  | importClause
  | namedImports
  | importSpecifier
  | exportStatement
  | exportClause
  | exportSpecifier
  | exportToken
  | defaultToken
  | equalsToken
  | classLike
  | decorator
  | classHeritage
  | extendsClause
  | implementsClause
  | extendsTypeClause
  | instantiation
  | interfaceDeclaration
  | interfaceBody
  | typeAliasDeclaration
  | propertySignature
  | methodSignature
  | typeArguments
  | genericType
  | objectType
  | intersectionType
  | annotatedType
  | parenthesizedType
  | typeIdentifier
  | nestedTypeIdentifier
  | identifier
  | propertyIdentifier
  | otherIdentifier
  | string
  | other
deriving DecidableEq, Repr

namespace Rule

/-- Node kinds and the rules they stand for. -/
def table : List (String × Rule) :=
  [ ("import_statement", importStatement),
    ("import_clause", importClause),
    ("named_imports", namedImports),
    ("import_specifier", importSpecifier),
    ("export_statement", exportStatement),
    ("export_clause", exportClause),
    ("export_specifier", exportSpecifier),
    ("export", exportToken),
    ("default", defaultToken),
    ("=", equalsToken),
    ("class_declaration", classLike),
    ("abstract_class_declaration", classLike),
    ("class", classLike),
    ("decorator", decorator),
    ("class_heritage", classHeritage),
    ("extends_clause", extendsClause),
    ("implements_clause", implementsClause),
    ("extends_type_clause", extendsTypeClause),
    ("instantiation_expression", instantiation),
    ("interface_declaration", interfaceDeclaration),
    ("interface_body", interfaceBody),
    ("type_alias_declaration", typeAliasDeclaration),
    ("property_signature", propertySignature),
    ("method_signature", methodSignature),
    ("type_arguments", typeArguments),
    ("generic_type", genericType),
    ("object_type", objectType),
    ("intersection_type", intersectionType),
    ("type_annotation", annotatedType),
    ("parenthesized_type", parenthesizedType),
    ("type_identifier", typeIdentifier),
    ("nested_type_identifier", nestedTypeIdentifier),
    ("identifier", identifier),
    ("property_identifier", propertyIdentifier),
    ("private_property_identifier", otherIdentifier),
    ("shorthand_property_identifier", otherIdentifier),
    ("string", string) ]

/-- The rule that a node kind stands for. -/
def ofKind (kind : String) : Rule := (table.lookup kind).getD other

end Rule

/-- The rule a node stands for. -/
def Token.rule (t : Token) : Rule := Rule.ofKind t.kind

/-- The first node of a list that fills a role. -/
def Token.filling? (role : String) (ts : List Token) : Option Token :=
  ts.find? (·.fills role)

/-- The first node of a list that stands for a rule. -/
def Token.standing? (rule : Rule) (ts : List Token) : Option Token :=
  ts.find? (fun t => decide (t.rule = rule))

end PropSurface
