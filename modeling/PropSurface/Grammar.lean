import PropSurface.Path.Basic

/-!
# Grammars

Two grammars read sources: plain TypeScript, and TypeScript with markup, which also
reads scripts.  The extension of a file chooses between them; without a known
extension the plain grammar is used.
-/

namespace PropSurface

/-- The grammars a source can be read with. -/
inductive Grammar where
  | typescript
  | tsx
deriving DecidableEq, Repr

namespace Grammar

def all : List Grammar := [typescript, tsx]

def name : Grammar → String
  | typescript => "typescript"
  | tsx => "tsx"

/-- The grammar of the given name. -/
def ofName? (s : String) : Option Grammar := all.find? (·.name == s)

/-- What is said about a name that no grammar has. -/
def unsupportedMessage (s : String) : String :=
  "Unsupported language: '" ++ s ++ "'. Supported languages: " ++
    ", ".intercalate (all.map name)

/-- File extensions read by a grammar. -/
def extensions : Grammar → List String
  | typescript => ["ts", "mts", "cts"]
  | tsx => ["tsx", "js", "jsx", "mjs", "cjs"]

/-- The grammar that reads files with the given extension. -/
def ofExtension? (ext : String) : Option Grammar :=
  all.find? (·.extensions.contains ext)

/-- The grammar that reads the file at a path. -/
def ofPath (p : Path) : Grammar :=
  (p.extension?.bind ofExtension?).getD typescript

end Grammar

end PropSurface
