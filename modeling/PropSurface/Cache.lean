import PropSurface.Environment

/-!
# The module cache

**Input.**  An environment and the path of a module.

**Algorithm.**  A requested path is normalized and looked up, directly or through the
alias recorded for it.  If it is unknown, the first spelling of it that is a file is
taken, and its canonical path decides: a module that is already stored under that path
gets one more alias, and otherwise the file is read, parsed and stored.

**Invariants.**  Modules are stored under their own canonical paths, entries are never
replaced, every alias leads to a stored module, and a failed request changes neither.
-/

namespace PropSurface

/-- What is appended to a module path, in this order, to find its file. -/
def moduleSuffixes : List String :=
  ["", ".ts", ".tsx", ".d.ts", "/index.ts", "/index.tsx"]

/-- The first spelling of a module path that is a file. -/
def FileSystem.moduleFile? (fs : FileSystem) (p : Path) : Option Path :=
  (moduleSuffixes.map p.append).find? fs.isFile

/-- Modules in the order in which they were stored, aliases with the latest first, and
the paths handed to the parser, in order. -/
structure Cache where
  modules : List ParsedModule
  aliases : List (Path × Path)
  parsed : List Path

namespace Cache

/-- The cache at the start. -/
def empty : Cache := ⟨[], [], []⟩

/-- The module stored under a path. -/
def get? (c : Cache) (p : Path) : Option ParsedModule := c.modules.find? (·.path.same p)

/-- The canonical path recorded for a requested one. -/
def alias? (c : Cache) (p : Path) : Option Path :=
  (c.aliases.find? (·.1.same p)).map (·.2)

/-- The stored module that a normal path is known to name. -/
def known? (c : Cache) (requested : Path) : Option ParsedModule :=
  c.get? ((c.alias? requested).getD requested)

/-- Record that a requested path names what is stored under another. -/
def record (c : Cache) (requested resolved : Path) : Cache :=
  { c with aliases := (requested, resolved) :: c.aliases }

@[simp] theorem modules_record (c : Cache) (requested resolved : Path) :
    (c.record requested resolved).modules = c.modules := rfl

/-- Store a module that was requested under the given path. -/
def store (c : Cache) (requested : Path) (m : ParsedModule) : Cache :=
  let named := if requested.same m.path then c else c.record requested m.path
  { named with modules := named.modules ++ [m] }

/-- Storing adds one module at the end. -/
@[simp] theorem modules_store (c : Cache) (requested : Path) (m : ParsedModule) :
    (c.store requested m).modules = c.modules ++ [m] := by
  simp only [store]
  split <;> rfl

/-- Note that a path is handed to the parser. -/
def logParse (c : Cache) (p : Path) : Cache := { c with parsed := c.parsed ++ [p] }

@[simp] theorem modules_logParse (c : Cache) (p : Path) :
    (c.logParse p).modules = c.modules := rfl

@[simp] theorem aliases_logParse (c : Cache) (p : Path) :
    (c.logParse p).aliases = c.aliases := rfl

/-- Read, parse and store the file at a canonical path. -/
def adopt (env : Environment) (requested resolved : Path) (c : Cache) :
    Except Failure ParsedModule × Cache :=
  match env.files.readText? resolved with
  | none => (.error (.unreadable resolved), c)
  | some source =>
      let c := c.logParse resolved
      match ParsedModule.parse resolved source
          (env.concrete (Grammar.ofPath resolved) source) with
      | .error e => (.error e, c)
      | .ok m => (.ok m, c.store requested m)

/-- The module that a path names, from the cache or from the files. -/
def load (env : Environment) (p : Path) (c : Cache) :
    Except Failure ParsedModule × Cache :=
  let requested := p.normalize
  match c.known? requested with
  | some m => (.ok m, c)
  | none =>
      match env.files.moduleFile? requested with
      | none => (.error (.fileNotFound requested), c)
      | some found =>
          let resolved := (env.files.canonicalize? found).getD found
          match c.get? resolved with
          | some m => (.ok m, c.record requested resolved)
          | none => adopt env requested resolved c

end Cache

end PropSurface
