import PropSurface.ParsedModule
import PropSurface.Query

/-!
# Bindings

Where a name that is visible in a module, or exported by it, comes from.

**Imports.**  A named import binds the name it is renamed to; a default import binds the
name in front of the list.  Named imports are looked at first.  A namespace import binds
no single name.

**Exports.**  The default export of a module is bound to a name of that module, or
passed on from another module.  `forwarded?` follows an exported name to the import or
the list of names that takes it from another module.
-/

namespace PropSurface

/-- The name under which a module exports its default. -/
def defaultName : String := "default"

/-- A name of another module: the name exported there and the specifier of that
module. -/
structure Origin where
  imported : String
  source : String
deriving DecidableEq, Repr

/-- Whether a specifier names a module of the project: only those that start with a dot
segment do. -/
def isRelative (specifier : String) : Bool :=
  specifier == "." || specifier == ".." ||
    "./".toList.isPrefixOf specifier.toList || "../".toList.isPrefixOf specifier.toList

namespace Node

/-- Value of the first string among the children. -/
def stringChild? (n : Node) : Option String :=
  (n.search? (Node.is .stringLiteral) (some 1)).bind fun s =>
    match s.label.payload with
    | .stringLiteral value => some value
    | _ => none

/-- Specifier of the import statement around a node. -/
def importSource? (n : Node) : Option String :=
  (n.ancestor? (Node.is .importDeclaration)).bind stringChild?

end Node

/-- The first specifier of a named import that binds `name`. -/
def namedImport? (root : Node) (name : String) : Option Node :=
  root.query?
    [ .descendant .namedImports,
      { QueryStep.child .importSpecifier with holds := Node.isNamed name } ]

/-- The first default import that binds `name`. -/
def defaultImport? (root : Node) (name : String) : Option Node :=
  root.query?
    [ .descendant .importClause,
      { QueryStep.child .identifier with holds := Node.isNamed name } ]

/-- The import that binds `name` in a module. -/
def importOrigin? (root : Node) (name : String) : Option Origin :=
  match namedImport? root name with
  | some specifier =>
      match specifier.label.payload with
      | .importSpecifier imported _ => specifier.importSource?.map (⟨imported, ·⟩)
      | _ => none
  | none =>
      (defaultImport? root name).bind fun identifier =>
        identifier.importSource?.map (⟨defaultName, ·⟩)

/-- How the default export of a module is bound. -/
inductive DefaultExport where
  /-- To a name declared or imported in the module. -/
  | named (name : String)
  /-- To a name of another module. -/
  | forwarded (origin : Origin)
deriving DecidableEq, Repr

/-- The first specifier that exports `name`. -/
def exportSpecifier? (root : Node) (name : String) : Option Node :=
  root.query?
    [ .descendant .exportDeclaration,
      .child .namedExports,
      { QueryStep.child .exportSpecifier with holds := Node.isNamed name } ]

/-- The name an export specifier takes from its module, with the specifier of the module
it is passed on from. -/
def exportedName? (specifier : Node) : Option (String × Option String) :=
  match specifier.label.payload with
  | .exportSpecifier name _ =>
      (specifier.ancestor? (Node.is .exportDeclaration)).map fun declaration =>
        (name, declaration.stringChild?)
  | _ => none

/-- The name that a default export of a plain name gives. -/
def assignedName? (root : Node) : Option Node :=
  root.query? [.descendant .exportAssignment, .child .identifier]

/-- The default export of a module. -/
def defaultExport? (root : Node) : Option DefaultExport :=
  match assignedName? root with
  | some value => value.name?.map .named
  | none =>
      ((exportSpecifier? root defaultName).bind exportedName?).map fun
        | (name, some source) => .forwarded ⟨name, source⟩
        | (name, none) => .named name

/-- Where a module takes the name it exports as `exported`, if from another module. -/
def forwarded? (root : Node) (exported : String) : Option Origin :=
  if exported = defaultName then
    match defaultExport? root with
    | none => none
    | some (.forwarded origin) => some origin
    | some (.named name) => importOrigin? root name
  else
    match exportSpecifier? root exported with
    | none => importOrigin? root exported
    | some specifier =>
        match exportedName? specifier with
        | none => none
        | some (name, some source) => some ⟨name, source⟩
        | some (name, none) => importOrigin? root name

/-- The root node of a module. -/
def ParsedModule.rootNode (m : ParsedModule) : Node := .ofRoot m.root

end PropSurface
