import PropSurface.Failure
import PropSurface.Json.Value

/-!
# Scan reports

What a scan says about each entry module, and the two ways to write it: as lines of text,
and as JSON.
-/

namespace PropSurface

/-- What became of one entry. -/
inductive Outcome where
  | resolved (props : List String)
  | failed (kind : FailureKind) (message : String)
deriving DecidableEq, Repr

/-- One entry with its outcome. -/
structure FileReport where
  /-- Path of the entry below the scanned root. -/
  path : String
  outcome : Outcome
deriving DecidableEq, Repr

/-- Whether the props of the entry were found. -/
def FileReport.isResolved (r : FileReport) : Bool :=
  match r.outcome with
  | .resolved _ => true
  | .failed _ _ => false

/-- What a scan says, entry by entry. -/
structure ScanReport where
  files : List FileReport
deriving DecidableEq, Repr

namespace ScanReport

/-- Number of entries whose props were found. -/
def resolvedCount (r : ScanReport) : Nat := r.files.countP FileReport.isResolved

/-- Number of the other entries. -/
def failedCount (r : ScanReport) : Nat := r.files.length - r.resolvedCount

/-- The second line about an entry. -/
def outcomeLine : Outcome → String
  | .resolved props => "  " ++ ", ".intercalate props
  | .failed kind message => "  [" ++ kind.tag ++ "] " ++ message

def toText (r : ScanReport) : String :=
  String.join (r.files.map fun f => f.path ++ "\n" ++ outcomeLine f.outcome ++ "\n") ++
    Nat.repr r.resolvedCount ++ " resolved, " ++ Nat.repr r.failedCount ++ " failed\n"

/-- A member of an object with a text value. -/
def textMember (key value : String) : Option String × JsonValue :=
  (some key, .text (some value))

/-- Members that describe an outcome. -/
def outcomeMembers : Outcome → List (Option String × JsonValue)
  | .resolved props =>
      [ textMember "status" "resolved",
        (some "props", .array (props.map fun p => .text (some p))) ]
  | .failed kind message =>
      [ textMember "status" "failed",
        textMember "kind" kind.tag,
        textMember "message" message ]

/-- The report as a JSON value. -/
def toJson (r : ScanReport) : JsonValue :=
  .object
    [ (some "files", .array (r.files.map fun f =>
        .object (textMember "path" f.path :: outcomeMembers f.outcome))) ]

end ScanReport

end PropSurface
