import PropSurface.Resolution

/-!
# Extraction of props

The props of a component module are the properties of the type that its default-exported
class passes to the class it extends.

**Where the class is.**
1. In the module, and exported by name.
2. In the module, as the default export itself.
3. In the module that the default export is imported or passed on from, one hop away.

The prop type is the first type reference, in level order, below a target of the extends
clause.
-/

namespace PropSurface

/-- Name of a prop type, and the module in which it is to be resolved. -/
structure PropType where
  module : ParsedModule
  name : String

/-- The class of the given name. -/
def class? (root : Node) (name : String) : Option Node :=
  root.search? (fun n => n.is .classDeclaration && n.isNamed name) none

/-- The prop type of a class. -/
def classPropType? (cls : Node) : Option String :=
  (cls.query?
    [ { QueryStep.child .heritageClause with holds := isExtendsClause },
      .child .heritageTarget,
      .descendant .typeReference ]).bind Node.name?

/-- The prop type of the class that the default export names. -/
def namedPropType? (root : Node) : Option String :=
  match defaultExport? root with
  | some (.named name) => (class? root name).bind classPropType?
  | _ => none

/-- The prop type of the class that is the default export itself. -/
def inlinePropType? (root : Node) : Option String :=
  (root.query?
    [ .descendant .exportKeyword,
      .next .defaultKeyword,
      .next .identifier,
      .next .heritageClause,
      .child .heritageTarget,
      .descendant .typeReference ]).bind Node.name?

/-- The prop type of a default-exported class of the module itself. -/
def localPropType? (root : Node) : Option String :=
  (namedPropType? root).or (inlinePropType? root)

/-- The prop type of what a module exports under a name. -/
def exportedPropType? (root : Node) (name : String) : Option String :=
  if name = defaultName then localPropType? root
  else (class? root name).bind classPropType?

/-- The prop type of a default export that comes from another module. -/
def forwardedPropType (env : Environment) (m : ParsedModule) :
    Resolve (Option PropType) :=
  match (forwarded? m.rootNode defaultName).filter (isRelative ·.source) with
  | none => pure none
  | some origin => do
      let target ← Resolve.loadImport env m origin.source
      match exportedPropType? target.rootNode origin.imported with
      | some name => pure (some ⟨target, name⟩)
      | none =>
          if (forwarded? target.rootNode origin.imported).isSome then
            throw (.unsupportedExportChain m.path)
          else pure none

/-- The prop type of the default export of a module. -/
def findPropType (env : Environment) (m : ParsedModule) : Resolve (Option PropType) :=
  match localPropType? m.rootNode with
  | some name => pure (some ⟨m, name⟩)
  | none => forwardedPropType env m

/-- The props of the component that the module at a path exports. -/
def extractProps (env : Environment) (entry : Path) : Resolve (List String) := do
  let m ← Resolve.load env entry
  match ← findPropType env m with
  | none => throw (.exportNotFound m.path)
  | some propType => resolveType env propType.module propType.name

end PropSurface
