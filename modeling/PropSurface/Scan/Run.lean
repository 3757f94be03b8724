import PropSurface.Extraction
import PropSurface.Glob.Search
import PropSurface.Path.Within
import PropSurface.Scan.Config
import PropSurface.Scan.Report

/-!
# Scanning a project

**Input.**  An environment and a configuration.

**Algorithm.**  The entries are the files that the pattern finds below the root, in the
order of their paths.  They are dealt out to workers, share after share; every worker goes
through its share with a cache of its own.  The report has one line per entry, in the order
of the entries.

A failing entry is reported and the scan goes on; only a pattern that is not well formed
ends it.
-/

namespace PropSurface

/-- A path outside of the directory it should be in. -/
structure OutsideError where
  path : Path
  root : Path
deriving DecidableEq, Repr

def OutsideError.message (e : OutsideError) : String :=
  "File path '" ++ e.path.text ++ "' is not within scan root '" ++ e.root.text ++ "'"

/-- A path relative to a root.  Both are taken canonically if both exist, and as written
otherwise. -/
def FileSystem.relative (fs : FileSystem) (p root : Path) : Except OutsideError String :=
  let (p, root) :=
    match fs.canonicalize? p, fs.canonicalize? root with
    | some p, some root => (p, root)
    | _, _ => (p, root)
  match Path.within? root p with
  | some rest => .ok rest.text
  | none => .error ⟨p, root⟩

/-- A pattern that is not well formed. -/
structure PatternError where
  pattern : String
deriving DecidableEq, Repr

def PatternError.message (e : PatternError) : String :=
  "Invalid scan pattern '" ++ e.pattern ++ "'"

namespace ScanConfig

/-- Text without the slashes and backslashes at its end. -/
def trimSeparators (s : String) : String :=
  String.ofList (s.toList.reverse.dropWhile (fun c => c == '/' || c == '\\')).reverse

/-- The pattern of the entries, with the root in front. -/
def fullPattern (config : ScanConfig) : String :=
  Glob.escape (trimSeparators config.root.text) ++ "/" ++ config.pattern

/-- The entry modules, in order. -/
def entries (config : ScanConfig) (fs : FileSystem) : Except PatternError (List Path) :=
  match Glob.plan? ⟨config.fullPattern⟩ with
  | none => .error ⟨config.fullPattern⟩
  | some plan => .ok (((plan.search fs).filter fs.isFile).mergeSort Path.le)

end ScanConfig

namespace Scan

/-- Path of an entry in the report: relative to the root where possible. -/
def reportPath (fs : FileSystem) (root entry : Path) : String :=
  match fs.relative entry root with
  | .ok s => s
  | .error _ => entry.text

/-- The outcome that a result stands for. -/
def outcomeOf : Except Failure (List String) → Outcome
  | .ok props => .resolved props
  | .error e => .failed e.kind e.message

/-- Report on one entry, with the cache of the worker. -/
def scanEntry (env : Environment) (root : Path) (cache : Cache) (entry : Path) :
    FileReport × Cache :=
  let (result, session) := (extractProps env entry).run ⟨cache, []⟩
  (⟨reportPath env.files root entry, outcomeOf result⟩, session.cache)

/-- Report on a share of the entries, one after the other. -/
def scanShare (env : Environment) (root : Path) : Cache → List Path → List FileReport
  | _, [] => []
  | cache, entry :: rest =>
      let (report, cache) := scanEntry env root cache entry
      report :: scanShare env root cache rest

/-- Cut a list into pieces of the given length; `n` bounds the number of pieces. -/
def pieces {α : Type} (length : Nat) : Nat → List α → List (List α)
  | 0, _ => []
  | n + 1, xs => if xs.isEmpty then [] else xs.take length :: pieces length n (xs.drop length)

/-- Deal entries out to workers; fewer than two workers are one. -/
def shares {α : Type} (jobs : Nat) (xs : List α) : List (List α) :=
  if jobs ≤ 1 then [xs]
  else pieces ((xs.length + jobs - 1) / jobs) xs.length xs

/-- Report on every entry. -/
def run (env : Environment) (config : ScanConfig) : Except PatternError ScanReport :=
  (config.entries env.files).map fun entries =>
    ⟨(shares config.jobs entries).flatMap (scanShare env config.root .empty)⟩

end Scan

end PropSurface
