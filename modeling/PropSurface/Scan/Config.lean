import PropSurface.FileSystem.Basic
import PropSurface.Json.Reader

/-!
# Scan configuration

A configuration says where to scan, which modules are entries and how many workers to
use.  It is read from a file in the directory that is scanned, if there is one.

**Format.**  An object with the optional members `root`, `pattern` and `jobs`, each at
most once and of the right type; other members are passed over.  An array gives the
same values in this order, and may be short.  The root is taken from the directory of
the file.
-/

namespace PropSurface

/-- What a scan does. -/
structure ScanConfig where
  root : Path
  pattern : String
  jobs : Nat
deriving DecidableEq, Repr

/-- Why no configuration can be had from a file. -/
inductive ConfigError where
  | unreadable (file : Path)
  | invalid (file : Path)
deriving DecidableEq, Repr

def ConfigError.message : ConfigError → String
  | unreadable file => "Failed to read " ++ file.text
  | invalid file => "Invalid configuration in " ++ file.text

namespace ScanConfig

def fileName : String := "propscan.json"

/-- What is scanned without a configuration. -/
def standard : ScanConfig := ⟨⟨"."⟩, "components/*/index.ts*", 1⟩

/-- The largest number of workers that can be asked for: 64 bits hold it. -/
def maxJobs : Nat := 18446744073709551615

/-- A number of workers, from its digits. -/
def jobsOfDigits? (cs : List Char) : Option Nat :=
  if cs ≠ [] ∧ cs.all Char.isDigit ∧ JsonValue.digitsValue cs ≤ maxJobs then
    some (JsonValue.digitsValue cs)
  else none

/-- A text member. -/
def textOf? : JsonValue → Option String
  | .text content => content
  | _ => none

/-- A number of workers. -/
def jobsOf? : JsonValue → Option Nat
  | .number literal => jobsOfDigits? literal.toList
  | _ => none

/-- The values a file gives. -/
structure Given where
  root : Option String := none
  pattern : Option String := none
  jobs : Option Nat := none

/-- Take one member of an object into account. -/
def Given.member? (given : Given) (key : String) (value : JsonValue) : Option Given :=
  if key = "root" then
    if given.root.isSome then none
    else (textOf? value).map fun s => { given with root := some s }
  else if key = "pattern" then
    if given.pattern.isSome then none
    else (textOf? value).map fun s => { given with pattern := some s }
  else if key = "jobs" then
    if given.jobs.isSome then none
    else (jobsOf? value).map fun n => { given with jobs := some n }
  else some given

/-- Take the members of an object into account, one after the other. -/
def Given.members? (given : Given) : List (Option String × JsonValue) → Option Given
  | [] => some given
  | (none, _) :: _ => none
  | (some key, value) :: rest => (given.member? key value).bind (·.members? rest)

/-- The values that an array gives, by position. -/
def Given.ofItems? : List JsonValue → Option Given
  | [] => some {}
  | [root] => do pure { root := some (← textOf? root) }
  | [root, pattern] => do
      pure { root := some (← textOf? root), pattern := some (← textOf? pattern) }
  | [root, pattern, jobs] => do
      pure
        { root := some (← textOf? root), pattern := some (← textOf? pattern),
          jobs := some (← jobsOf? jobs) }
  | _ => none

/-- The values that a text gives. -/
def Given.ofText? (s : String) : Option Given :=
  match JsonValue.read? s with
  | some (.object members) => Given.members? {} members
  | some (.array items) => Given.ofItems? items
  | _ => none

/-- The configuration with the given values, and standard ones elsewhere. -/
def ofGiven (given : Given) : ScanConfig :=
  ⟨(given.root.map Path.mk).getD standard.root, given.pattern.getD standard.pattern,
    given.jobs.getD standard.jobs⟩

/-- What the configuration file says, or the standard without one. -/
def readFile (fs : FileSystem) (file : Path) : Except ConfigError ScanConfig :=
  if fs.isFile file then
    match fs.readText? file with
    | none => .error (.unreadable file)
    | some content =>
        match Given.ofText? content with
        | none => .error (.invalid file)
        | some given => .ok (ofGiven given)
  else .ok standard

/-- The configuration of a directory. -/
def load (fs : FileSystem) (dir : Path) : Except ConfigError ScanConfig :=
  (readFile fs (dir.join ⟨fileName⟩)).map fun config =>
    { config with root := (dir.join config.root).normalize }

end ScanConfig

end PropSurface
