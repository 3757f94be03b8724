import PropSurface.Binding
import PropSurface.Cache
import PropSurface.Declaration

/-!
# Type resolution

The property names of a type: those of its bases, in order and with repetitions, and
then its own.

**Algorithm.**  A name is looked up as a declaration of the module, and otherwise as a
declaration of the module it is imported from, one hop away.  While a declaration is
being expanded its key, that is its module and its name, is active; reaching an active
key again is a cycle.

**Termination.**  The recursion is bounded by the number of keys that the session can ever
reach.  The bound is never hit: every nested expansion makes a new one of these keys
active.
-/

namespace PropSurface

/-- A declared type: its module, by the components of the path, and its name. -/
structure TypeKey where
  module : List Component
  name : String
deriving DecidableEq, Repr

/-- A cache in use, with the keys of the types that are being expanded. -/
structure Session where
  cache : Cache
  active : List TypeKey

/-- A session that has done nothing yet. -/
def Session.fresh : Session := ⟨.empty, []⟩

/-- A computation that may fail; the session is kept in any case. -/
abbrev Resolve := ExceptT Failure (StateM Session)

namespace Resolve

/-- Load a module through the cache of the session. -/
def load (env : Environment) (p : Path) : Resolve ParsedModule :=
  ExceptT.mk fun s =>
    let (result, cache) := s.cache.load env p
    (result, { s with cache := cache })

/-- Load the module that a specifier names in a module. -/
def loadImport (env : Environment) (m : ParsedModule) (specifier : String) :
    Resolve ParsedModule :=
  load env (m.path.resolveSpecifier specifier)

/-- Run `body` while `key` is active, and make it inactive afterwards, also when `body`
fails.  If it is active already, the answer is `failure`. -/
def expanding {α : Type} (key : TypeKey) (failure : Failure) (body : Resolve α) :
    Resolve α :=
  ExceptT.mk fun s =>
    if key ∈ s.active then (.error failure, s)
    else
      let (result, s') := body.run { s with active := key :: s.active }
      (result, { s' with active := s'.active.erase key })

end Resolve

/-- A declaration in its module, with the name it was found under. -/
structure Site where
  module : ParsedModule
  name : String
  declaration : Node

namespace Site

def key (site : Site) : TypeKey := ⟨site.module.path.components, site.name⟩

/-- What the declaration says. -/
def shape (site : Site) : TypeShape := declarationShape site.declaration

end Site

/-- The declaration of a name in a module itself. -/
def ParsedModule.site? (m : ParsedModule) (name : String) : Option Site :=
  (declaration? m.rootNode name).map (⟨m, name, ·⟩)

/-- The module of the project and the name there that a name is imported from. -/
def ParsedModule.typeOrigin? (m : ParsedModule) (name : String) : Option Origin :=
  (importOrigin? m.rootNode name).filter fun origin =>
    origin.imported != defaultName && isRelative origin.source

/-- The declaration that a name means in a module. -/
def locate (env : Environment) (m : ParsedModule) (name : String) : Resolve Site :=
  match m.site? name with
  | some site => pure site
  | none =>
      match m.typeOrigin? name with
      | none => throw (.typeNotFound m.path name)
      | some origin => do
          let linked ← Resolve.loadImport env m origin.source
          match linked.site? origin.imported with
          | some site => pure site
          | none => throw (.typeNotFound m.path name)

/-- Property names of a type, through expansions nested at most `n` deep. -/
def resolveWithin (env : Environment) : Nat → ParsedModule → String → Resolve (List String)
  | 0, m, name => throw (.cyclicReference m.path name)
  | n + 1, m, name => do
      let site ← locate env m name
      Resolve.expanding site.key (.cyclicReference site.module.path site.name) do
        let inherited ← site.shape.bases.mapM (resolveWithin env n site.module)
        pure (inherited.flatten ++ site.shape.own)

/-- The keys of the types declared in a module, with repetitions. -/
def ParsedModule.typeKeys (m : ParsedModule) : List TypeKey :=
  m.declaredTypes.map (⟨m.path.components, ·⟩)

/-- The keys of all types that a session can reach from a module. -/
def reachableKeys (env : Environment) (s : Session) (m : ParsedModule) : List TypeKey :=
  (m :: s.cache.modules ++ env.files.readableModules env.concrete).flatMap
    ParsedModule.typeKeys

/-- Number of the keys that a session can reach from a module, with repetitions. -/
def keyCount (env : Environment) (s : Session) (m : ParsedModule) : Nat :=
  countTypes (m :: s.cache.modules) + env.typeCount.get

theorem length_reachableKeys (env : Environment) (s : Session) (m : ParsedModule) :
    (reachableKeys env s m).length = keyCount env s m := by
  simp [reachableKeys, keyCount, countTypes, env.typeCount_get, ParsedModule.typeKeys,
    List.length_flatMap, Nat.add_assoc]

/-- Property names of the type that a name means in a module. -/
def resolveType (env : Environment) (m : ParsedModule) (name : String) :
    Resolve (List String) := do
  let s ← get
  resolveWithin env (keyCount env s m + 1) m name

end PropSurface
