import PropSurface.Path.Basic

/-!
# Failures

Why the props of an entry module cannot be told.  A failure is a cause with the place
it arose; `Failure.message` words it and `Failure.kind` gives the tag that reports
carry.
-/

namespace PropSurface

/-- The tag of a failure in a report. -/
inductive FailureKind where
  | fileNotFound
  | exportNotFound
  | typeNotFound
  | unsupportedExportChain
  | parseError
  | cyclicReference
  | unreadable
deriving DecidableEq, Repr

def FailureKind.tag : FailureKind → String
  | fileNotFound => "file_not_found"
  | exportNotFound => "export_not_found"
  | typeNotFound => "type_not_found"
  | unsupportedExportChain => "unsupported_export_chain"
  | parseError => "parse_error"
  | cyclicReference => "cyclic_reference"
  | unreadable => "io"

/-- A cause for which the props of a module cannot be told. -/
inductive Failure where
  /-- No spelling of the requested module is a file. -/
  | fileNotFound (path : Path)
  /-- The module exports no component in a known way. -/
  | exportNotFound (path : Path)
  /-- The type is neither declared in the module nor one import away. -/
  | typeNotFound (path : Path) (name : String)
  /-- The default export is passed on by more than one module. -/
  | unsupportedExportChain (path : Path)
  /-- The source does not fit the grammar. -/
  | parseError (path : Path) (line column : Nat)
  /-- A type is reached again while it is being expanded. -/
  | cyclicReference (path : Path) (name : String)
  /-- The file exists and does not hold text. -/
  | unreadable (path : Path)
deriving DecidableEq, Repr

namespace Failure

def kind : Failure → FailureKind
  | fileNotFound _ => .fileNotFound
  | exportNotFound _ => .exportNotFound
  | typeNotFound _ _ => .typeNotFound
  | unsupportedExportChain _ => .unsupportedExportChain
  | parseError _ _ _ => .parseError
  | cyclicReference _ _ => .cyclicReference
  | unreadable _ => .unreadable

def message : Failure → String
  | fileNotFound p => "file not found: " ++ p.text
  | exportNotFound p => "no recognized component export in " ++ p.text
  | typeNotFound p name => "type definition `" ++ name ++ "` not found from " ++ p.text
  | unsupportedExportChain p =>
      "re-export chain from " ++ p.text ++ " is longer than one hop"
  | parseError p line column =>
      "failed to parse " ++ p.text ++ " at " ++ Nat.repr line ++ ":" ++ Nat.repr column
  | cyclicReference p name => "cyclic type reference `" ++ name ++ "` in " ++ p.text
  | unreadable p => "failed to read " ++ p.text

end Failure

end PropSurface
