import PropSurface.FileSystem.Basic
import PropSurface.Glob.Pattern

/-!
# Searching with glob patterns

**Input.**  A file system and a pattern with one pattern per path component.

**Algorithm.**  The components become steps.  From every path found so far, a step leads
to the next ones: a plain component to that very entry, a pattern to the entries of the
directory that fit it, two stars to the entries at any depth that fit the component after
them.  Entries come in the order of their names, a directory before what is in it.

Paths are built by joining names to where the search starts, so dots that are written in
the pattern stay in the answer, except for a dot in front of a relative one.
-/

namespace PropSurface
namespace Glob

/-- A step of a search. -/
inductive Step where
  | plain (name : String)
  | fitting (pattern : List Atom)
  /-- At any depth. -/
  | deep (pattern : List Atom)
  /-- All directories at any depth. -/
  | directories
deriving DecidableEq, Repr

/-- The step that a component pattern stands for. -/
def Step.ofPattern (pattern : List Atom) : Step :=
  match plainText? pattern with
  | some cs => .plain (String.ofList cs)
  | none => .fitting pattern

/-- Steps of a list of component patterns; `deep` after two stars. -/
def stepsFrom (deep : Bool) : List (List Atom) → List Step
  | [] => if deep then [.directories] else []
  | p :: rest =>
      if p = [.recursive] then stepsFrom true rest
      else (if deep then Step.deep p else Step.ofPattern p) :: stepsFrom false rest

/-- Drop the empty text after a final slash. -/
def dropTerminator (ss : List String) : List String :=
  if ss.getLast? = some "" then ss.dropLast else ss

structure Plan where
  start : Path
  steps : List Step
  /-- Whether only directories are wanted, as a slash at the end says. -/
  wantsDirectory : Bool

/-- Compile a pattern; `none` if one of its components is not well formed. -/
def plan? (pattern : Path) : Option Plan :=
  let segments := if pattern.isAbsolute then pattern.segments.drop 1 else pattern.segments
  let start : Path := if pattern.isAbsolute then ⟨"/"⟩ else ⟨"."⟩
  ((dropTerminator segments).mapM compile?).map fun patterns =>
    ⟨start, stepsFrom false patterns, pattern.text.toList.getLast? == some '/'⟩

/-- The path of a name found at a path. -/
def childPath (p : Path) (name : String) : Path :=
  if p.same ⟨"."⟩ then ⟨name⟩ else p.join ⟨name⟩

/-- Names in the directory a path leads to. -/
def namesAt (fs : FileSystem) (p : Path) : List String :=
  match fs.resolve? p with
  | some place => if fs.hasDirectory place then fs.list place else []
  | none => []

/-- Names with their paths, at all depths up to a bound, a directory before what is in
it. -/
def everythingBelow (fs : FileSystem) : Nat → Path → List (String × Path)
  | 0, _ => []
  | n + 1, p =>
      (namesAt fs p).flatMap fun name =>
        (name, childPath p name) :: everythingBelow fs n (childPath p name)

/-- More levels than a path can lead down through: each link is followed by fewer names
than there are entries. -/
def maxDepth (fs : FileSystem) : Nat :=
  (FileSystem.maxLinks + 1) * (fs.entries.length + 1)

/-- The dot entries, which only a pattern that starts with a dot can mean. -/
def dotEntries (pattern : List Atom) : List String :=
  if pattern.head? = some (.char '.') then ["..", "."].filter (fits pattern) else []

/-- The paths that a step leads to. -/
def Step.follow (fs : FileSystem) (p : Path) : Step → List Path
  | plain name =>
      let next := childPath p name
      if name = "." ∨ name = ".." then (if fs.isDirectory p then [next] else [])
      else if (fs.resolve? next).isSome || fs.isPresent next then [next] else []
  | fitting pattern =>
      if fs.isDirectory p then
        (dotEntries pattern).map (fun name => p.join ⟨name⟩) ++
          ((namesAt fs p).filter (fits pattern)).map (childPath p)
      else []
  | deep pattern =>
      ((everythingBelow fs (maxDepth fs) p).filter (fun e => fits pattern e.1)).map (·.2)
  | directories =>
      ((everythingBelow fs (maxDepth fs) p).map (·.2)).filter fs.isDirectory

/-- The paths that a pattern finds. -/
def Plan.search (plan : Plan) (fs : FileSystem) : List Path :=
  if plan.steps.isEmpty then []
  else
    (plan.steps.foldl (fun paths step => paths.flatMap (step.follow fs ·)) [plan.start]).filter
      (fun p => !plan.wantsDirectory || fs.isDirectory p)

end Glob
end PropSurface
