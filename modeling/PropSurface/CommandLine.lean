import PropSurface.Scan.Run

/-!
# The command line

**Input.**  The arguments: an optional root, the options `--pattern`, `--jobs`, `--json`
and `--log-level`, and the requests for the version or for help.  An option may be given
once, its value after an equals sign or as the next argument; after two dashes all
arguments are positional.  Arguments are read from left to right, and the first error or
request decides.

**Result.**  An exit code and the text for standard output.
-/

namespace PropSurface
namespace CommandLine

def logLevels : List String := ["trace", "debug", "info", "warn", "error"]

/-- What has been asked for. -/
structure Options where
  root : Option Path := none
  pattern : Option String := none
  jobs : Option Nat := none
  json : Bool := false
  logLevel : Option String := none

/-- What the arguments say. -/
inductive Request where
  | scan (options : Options)
  | version
  | help
  /-- Arguments that cannot be understood. -/
  | misuse

/-- An option with a value. -/
inductive ValueOption where
  | pattern
  | jobs
  | logLevel

def ValueOption.ofName? (name : String) : Option ValueOption :=
  if name = "pattern" then some .pattern
  else if name = "jobs" then some .jobs
  else if name = "log-level" then some .logLevel
  else none

/-- A number of workers; a plus sign may stand in front. -/
def jobsOfText? (s : String) : Option Nat :=
  match s.toList with
  | '+' :: digits => ScanConfig.jobsOfDigits? digits
  | digits => ScanConfig.jobsOfDigits? digits

/-- Take the value of an option; `none` if it is given twice or does not fit. -/
def Options.setValue? (o : Options) (option : ValueOption) (value : String) :
    Option Options :=
  match option with
  | .pattern => if o.pattern.isSome then none else some { o with pattern := some value }
  | .jobs =>
      if o.jobs.isSome then none
      else (jobsOfText? value).map fun n => { o with jobs := some n }
  | .logLevel =>
      if o.logLevel.isSome ∨ value ∉ logLevels then none
      else some { o with logLevel := some value }

/-- Take a positional argument; `none` for a second or an empty one. -/
def Options.setRoot? (o : Options) (value : String) : Option Options :=
  if o.root.isSome ∨ value = "" then none else some { o with root := some ⟨value⟩ }

/-- How an argument looks. -/
inductive Argument where
  | positional (text : String)
  /-- Two dashes alone. -/
  | escape
  | long (name : String) (value : Option String)
  | short (flags : List Char)

/-- Split at the first equals sign. -/
def splitValue (cs : List Char) : String × Option String :=
  match cs.dropWhile (· != '=') with
  | [] => (String.ofList cs, none)
  | _ :: value => (String.ofList (cs.takeWhile (· != '=')), some (String.ofList value))

/-- How an argument looks, before the two dashes. -/
def Argument.ofText (s : String) : Argument :=
  match s.toList with
  | ['-', '-'] => .escape
  | '-' :: '-' :: rest => .long (splitValue rest).1 (splitValue rest).2
  | '-' :: c :: rest => .short (c :: rest)
  | _ => .positional s

/-- What an argument of short flags says: the first flag decides. -/
def ofShort : List Char → Request
  | 'V' :: _ => .version
  | 'h' :: _ => .help
  | _ => .misuse

def readPositional (o : Options) : List String → Request
  | [] => .scan o
  | s :: rest =>
      match o.setRoot? s with
      | some o => readPositional o rest
      | none => .misuse

def readFrom (o : Options) : List String → Request
  | [] => .scan o
  | s :: rest =>
      match Argument.ofText s with
      | .escape => readPositional o rest
      | .short flags => ofShort flags
      | .positional text =>
          match o.setRoot? text with
          | some o => readFrom o rest
          | none => .misuse
      | .long name (some value) =>
          match (ValueOption.ofName? name).bind (o.setValue? · value) with
          | some o => readFrom o rest
          | none => .misuse
      | .long name none =>
          match ValueOption.ofName? name, rest with
          | some option, next :: rest =>
              match Argument.ofText next with
              | .positional value =>
                  match o.setValue? option value with
                  | some o => readFrom o rest
                  | none => .misuse
              | _ => .misuse
          | some _, [] => .misuse
          | none, rest =>
              if name = "json" then
                if o.json then .misuse else readFrom { o with json := true } rest
              else if name = "version" then .version
              else if name = "help" then .help
              else .misuse

/-- Read the arguments of a call. -/
def read (arguments : List String) : Request := readFrom {} arguments

/-- An exit code and the text for standard output. -/
structure Answer where
  code : Nat
  output : String
deriving DecidableEq, Repr

def versionText : String := "propscan 0.1.0\n"

def helpText : String :=
  "List the props of component entry modules\n\n" ++
  "Usage: propscan [OPTIONS] [ROOT]\n\n" ++
  "Arguments:\n" ++
  "  [ROOT]  Project root (default: current directory)\n\n" ++
  "Options:\n" ++
  "      --pattern <PATTERN>      Glob selecting entry modules, relative to the root\n" ++
  "      --jobs <JOBS>            Worker threads (1 scans sequentially)\n" ++
  "      --json                   Print the full report as JSON\n" ++
  "      --log-level <LOG_LEVEL>  Log verbosity " ++
  "[default: warn] [possible values: trace, debug, info, warn, error]\n" ++
  "  -h, --help                   Print help\n" ++
  "  -V, --version                Print version\n"

/-- The configuration that the options ask for. -/
def configure (fs : FileSystem) (o : Options) : Except ConfigError ScanConfig :=
  (ScanConfig.load fs (o.root.getD ⟨"."⟩)).map fun config =>
    { config with pattern := o.pattern.getD config.pattern, jobs := o.jobs.getD config.jobs }

/-- Scan and write the report. -/
def scan (env : Environment) (o : Options) : Answer :=
  match configure env.files o with
  | .error _ => ⟨1, ""⟩
  | .ok config =>
      match Scan.run env config with
      | .error _ => ⟨1, ""⟩
      | .ok report =>
          ⟨0, if o.json then report.toJson.pretty 0 ++ "\n" else report.toText⟩

def run (env : Environment) (arguments : List String) : Answer :=
  match read arguments with
  | .scan o => scan env o
  | .version => ⟨0, versionText⟩
  | .help => ⟨0, helpText⟩
  | .misuse => ⟨2, ""⟩

end CommandLine
end PropSurface
