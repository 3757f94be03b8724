import PropSurface.Declaration
import PropSurface.FileSystem.Basic
import PropSurface.Grammar

/-!
# Environments

What loading and resolution depend on: the files, and the concrete tree that each grammar
gives to a text.

An environment also knows how many types its files declare.  The count is made when it is
first asked for, and once only; it bounds how deep type declarations can be nested in one
another without a cycle.
-/

namespace PropSurface

/-- The modules that can be read from the files: one for every file that holds text and fits
its grammar. -/
def FileSystem.readableModules (fs : FileSystem) (concrete : Grammar → String → Concrete) :
    List ParsedModule :=
  fs.entries.filterMap fun (place, entry) =>
    match entry with
    | .file bytes =>
        (String.fromUTF8? bytes).bind fun source =>
          let p := FileSystem.pathOf place
          (ParsedModule.parse p source (concrete (Grammar.ofPath p) source)).toOption
    | _ => none

/-- Number of types declared in a list of modules, with repetitions. -/
def countTypes (modules : List ParsedModule) : Nat :=
  (modules.flatMap ParsedModule.declaredTypes).length

/-- What loading depends on. -/
structure Environment where
  files : FileSystem
  concrete : Grammar → String → Concrete
  /-- Number of types declared in the files. -/
  typeCount : Thunk Nat := Thunk.mk fun _ => countTypes (files.readableModules concrete)
  typeCount_get : typeCount.get = countTypes (files.readableModules concrete) := by rfl

end PropSurface
