/-!
# Paths

A path keeps its text exactly as it was built, because it is printed that way.  What
it means is read off its components: repeated slashes, inner dots and a trailing
slash are insignificant, and two paths name the same place in the same way exactly
when their components agree.

**Contents.**
* `Component`, `Path.components`: the meaning of a path.
* `Path.join`, `Path.parent?`, `Path.fileName?`, `Path.extension?`: the usual
  operations on text.
* `Path.ofComponents`: the shortest text with the given components.
* `Path.le`: the order of paths, component by component.
-/

namespace PropSurface

/-- One step of a path. -/
inductive Component where
  | root
  | current
  | parent
  | name (text : String)
deriving DecidableEq, Repr

/-- A path, kept as it was written. -/
structure Path where
  text : String
deriving DecidableEq, Repr

/-- Cut a text at every slash. -/
def splitSlashes : List Char → List (List Char)
  | [] => [[]]
  | c :: cs =>
      if c = '/' then [] :: splitSlashes cs
      else
        match splitSlashes cs with
        | [] => [[c]]
        | s :: ss => (c :: s) :: ss

namespace Component

/-- The component a segment stands for inside a path, if it is significant. -/
def ofSegment? (s : String) : Option Component :=
  if s = "" ∨ s = "." then none
  else if s = ".." then some .parent
  else some (.name s)

/-- The component the first segment of a relative path stands for: here a dot is
significant. -/
def ofLeading? (s : String) : Option Component :=
  if s = "." then some .current else ofSegment? s

/-- Text of a component inside a path. -/
def text : Component → String
  | root => ""
  | current => "."
  | parent => ".."
  | name s => s

/-- Rank of the kinds of components: root, current directory, parent, names. -/
def rank : Component → Nat
  | root => 0
  | current => 1
  | parent => 2
  | name _ => 3

/-- Order of components: by kind, names by their text. -/
def compare (a b : Component) : Ordering :=
  match a, b with
  | name s, name t => Ord.compare s t
  | a, b => Ord.compare a.rank b.rank

end Component

namespace Path

/-- Whether the path starts at the root. -/
def isAbsolute (p : Path) : Bool := p.text.toList.head? == some '/'

/-- The text between the slashes, insignificant parts included. -/
def segments (p : Path) : List String :=
  (splitSlashes p.text.toList).map String.ofList

/-- The segments, each with the component it stands for if it is significant.  The
empty segment in front of a leading slash is the root. -/
def marked (p : Path) : List (String × Option Component) :=
  match p.segments with
  | [] => []
  | s :: ss =>
      let first := if p.isAbsolute then some .root else Component.ofLeading? s
      (s, first) :: ss.map (fun t => (t, Component.ofSegment? t))

/-- What the path means, step by step. -/
def components (p : Path) : List Component := p.marked.filterMap (·.2)

/-- Whether two paths have the same components. -/
def same (p q : Path) : Bool := p.components == q.components

theorem same_iff {p q : Path} : p.same q = true ↔ p.components = q.components := by
  simp [same]

@[simp] theorem same_refl (p : Path) : p.same p = true := by simp [same]

theorem same_comm (p q : Path) : p.same q = q.same p := by
  simp only [same, Bool.beq_comm]

/-- Text of a component list. -/
def ofComponents (cs : List Component) : Path :=
  if cs = [.root] then ⟨"/"⟩ else ⟨"/".intercalate (cs.map Component.text)⟩

/-- Follow `q` from `p`: an absolute `q` stands for itself. -/
def join (p q : Path) : Path :=
  if q.isAbsolute then q
  else if p.text = "" ∨ p.text.toList.getLast? = some '/' then ⟨p.text ++ q.text⟩
  else ⟨p.text ++ "/" ++ q.text⟩

/-- The path without its last component; neither the root nor the empty path has a
parent. -/
def parent? (p : Path) : Option Path :=
  match p.components.getLast? with
  | none => none
  | some .root => none
  | some _ => some (ofComponents p.components.dropLast)

/-- The last component, if it is a name. -/
def fileName? (p : Path) : Option String :=
  match p.components.getLast? with
  | some (.name s) => some s
  | _ => none

/-- The part of the file name after its last dot, unless that dot comes first. -/
def extension? (p : Path) : Option String :=
  match p.fileName? with
  | none => none
  | some s =>
      let back := s.toList.reverse
      let after := back.takeWhile (· != '.')
      match back.dropWhile (· != '.') with
      | _ :: _ :: _ => some (String.ofList after.reverse)
      | _ => none

/-- Append text to the path as it is written. -/
def append (p : Path) (suffix : String) : Path := ⟨p.text ++ suffix⟩

/-- Lexicographic order of component lists. -/
def compareComponents : List Component → List Component → Ordering
  | [], [] => .eq
  | [], _ :: _ => .lt
  | _ :: _, [] => .gt
  | a :: as, b :: bs =>
      match a.compare b with
      | .eq => compareComponents as bs
      | o => o

/-- Whether `p` comes before `q` or has the same components. -/
def le (p q : Path) : Bool := compareComponents p.components q.components != .gt

end Path

end PropSurface
