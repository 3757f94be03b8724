import PropSurface.Path.Normal

/-!
# File systems

A file system is a finite table from places to entries.  A place is the list of names
from it up to the root; the root itself is always a directory.

**Looking things up.**  A path is followed from the root, a relative one after it is joined
to the path at which the file system starts.  This goes segment by segment, and each segment
is taken from a directory: an empty segment or a dot stays there, two dots go up, a name
goes down.  A link is replaced by the path it holds; following more than `maxLinks` of
them fails.  So a slash or a dot after a file leads nowhere, and a name followed by two
dots has to be a directory.

**Limits.**  A path of more than `maxPathBytes` leads nowhere, whatever it spells; only
`canonicalize?` follows it all the same, because it looks up one name after the other.
Nothing has a name of more than `maxNameBytes`.

**Questions.**  Whether a path leads to a file or a directory, where it leads to once all
links are followed, and which text the file there holds.
-/

namespace PropSurface

/-- What stands at a place. -/
inductive Entry where
  | file (bytes : ByteArray)
  | directory
  | link (target : Path)

/-- Names from a place up to the root: its own name comes first. -/
abbrev Place := List String

/-- Entries by place, and the path from which relative paths start. -/
structure FileSystem where
  entries : List (Place × Entry)
  start : Path

namespace FileSystem

/-- Links that are followed for one path at most. -/
def maxLinks : Nat := 40

/-- Bytes in the text of a path at most. -/
def maxPathBytes : Nat := 4095

/-- Bytes in a name at most. -/
def maxNameBytes : Nat := 255

/-- Whether the text of a path is too long to be looked up at once. -/
def isTooLong (p : Path) : Bool := decide (maxPathBytes < p.text.utf8ByteSize)

/-- Whether something new can have a name: it is short enough and holds no zero byte. -/
def isName (s : String) : Bool :=
  decide (s.utf8ByteSize ≤ maxNameBytes) && !s.toList.contains '\x00'

/-- What stands at a place; the root is a directory. -/
def entry? (fs : FileSystem) (place : Place) : Option Entry :=
  if place = [] then some .directory else fs.entries.lookup place

@[simp] theorem entry?_nil (fs : FileSystem) : fs.entry? [] = some .directory := if_pos rfl

theorem entry?_of_ne_nil {fs : FileSystem} {place : Place} (h : place ≠ []) :
    fs.entry? place = fs.entries.lookup place := if_neg h

/-- What stands at a place other than the root is one of the entries. -/
theorem mem_entries_of_eq_some {fs : FileSystem} {place : Place} {e : Entry} (hne : place ≠ [])
    (h : fs.entry? place = some e) : (place, e) ∈ fs.entries := by
  rw [entry?_of_ne_nil hne] at h
  obtain ⟨before, after, hentries, -⟩ := List.lookup_eq_some_iff.mp h
  rw [hentries]
  exact List.mem_append_right _ List.mem_cons_self

/-- Whether a directory stands at a place. -/
def hasDirectory (fs : FileSystem) (place : Place) : Bool :=
  match fs.entry? place with
  | some .directory => true
  | _ => false

/-- Segments of a path, to be followed from the root. -/
def route (fs : FileSystem) (p : Path) : List String := (fs.start.join p).segments

/-- Where the target of a link in a directory starts, and the segments to follow from
there. -/
def origin (p : Path) (here : Place) : Place × List String :=
  if p.isAbsolute then ([], p.segments.drop 1) else (here, p.segments)

/-- Follow segments from a place; `follow` takes over at a link, and `absent` decides
about a last name at which nothing stands. -/
def walkWith (fs : FileSystem) (absent : Place → Option Place)
    (follow : Place → List String → Option Place) : List String → Place → Option Place
  | [], here => some here
  | s :: rest, here =>
      if fs.hasDirectory here then
        if s = "" ∨ s = "." then fs.walkWith absent follow rest here
        else if s = ".." then fs.walkWith absent follow rest here.tail
        else
          match fs.entry? (s :: here) with
          | none => if rest = [] then absent (s :: here) else none
          | some (.link target) =>
              let (place, segments) := origin target here
              follow place (segments ++ rest)
          | some _ => fs.walkWith absent follow rest (s :: here)
      else none

/-- Follow segments from a place through at most the given number of links. -/
def walk (fs : FileSystem) (absent : Place → Option Place) :
    Nat → List String → Place → Option Place
  | 0 => fs.walkWith absent (fun _ _ => none)
  | links + 1 => fs.walkWith absent (fun place segments => fs.walk absent links segments place)

/-- The place that the segments of a path lead to, all links followed.  The empty path
leads nowhere. -/
def follow? (fs : FileSystem) (p : Path) : Option Place :=
  if p.text = "" then none else fs.walk (fun _ => none) maxLinks (fs.route p) []

/-- The place a path leads to: as `follow?`, but a path that is too long leads nowhere. -/
def resolve? (fs : FileSystem) (p : Path) : Option Place :=
  if isTooLong p then none else fs.follow? p

/-- A place at which something new may stand, as far as its name goes. -/
def vacancy? : Place → Option Place
  | [] => none
  | s :: above => if isName s then some (s :: above) else none

/-- The place a path leads to, or at which something new would stand if it were put
there: all links followed, and only the last name may be missing. -/
def target? (fs : FileSystem) (p : Path) : Option Place :=
  if p.text = "" ∨ isTooLong p then none else fs.walk vacancy? maxLinks (fs.route p) []

/-- What a path leads to. -/
def find? (fs : FileSystem) (p : Path) : Option Entry := (fs.resolve? p).bind fs.entry?

/-- Whether a path leads to a file. -/
def isFile (fs : FileSystem) (p : Path) : Bool :=
  match fs.find? p with
  | some (.file _) => true
  | _ => false

/-- Whether a path leads to a directory. -/
def isDirectory (fs : FileSystem) (p : Path) : Bool :=
  match fs.find? p with
  | some .directory => true
  | _ => false

/-- The absolute path of a place. -/
def pathOf (place : Place) : Path := Path.ofComponents (.root :: place.reverse.map .name)

/-- The absolute path, free of links and dots, of what a path leads to. -/
def canonicalize? (fs : FileSystem) (p : Path) : Option Path := (fs.follow? p).map pathOf

/-- Text of the file a path leads to; `none` also when the bytes are no text. -/
def readText? (fs : FileSystem) (p : Path) : Option String :=
  match fs.find? p with
  | some (.file bytes) => String.fromUTF8? bytes
  | _ => none

/-- The place that a path names itself, with the link at its end, if it is one, not
followed.  A path that ends in a slash or in dots leads to a directory. -/
def nameplace? (fs : FileSystem) (p : Path) : Option Place :=
  match p.segments.getLast? with
  | none => none
  | some s =>
      if s = "" ∨ s = "." ∨ s = ".." then fs.resolve? p
      else if isTooLong p then none
      else
        match fs.walk (fun _ => none) maxLinks (fs.route p).dropLast [] with
        | some here => if fs.hasDirectory here then vacancy? (s :: here) else none
        | none => none

/-- Whether anything, be it a link that leads nowhere, stands where a path points. -/
def isPresent (fs : FileSystem) (p : Path) : Bool :=
  ((fs.nameplace? p).bind fs.entry?).isSome

/-- Whether name `a` comes no later than name `b`. -/
def nameLe (a b : String) : Bool := compare a b != .gt

/-- Names in a directory, in order. -/
def list (fs : FileSystem) (place : Place) : List String :=
  (fs.entries.filterMap (fun e =>
    match e.1 with
    | s :: above => if above = place then some s else none
    | [] => none)).mergeSort nameLe

end FileSystem

end PropSurface
