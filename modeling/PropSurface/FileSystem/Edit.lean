import PropSurface.FileSystem.Basic
import PropSurface.Path.Within

/-!
# Changing a file system

* `makeDirectories` makes the directories on the way to a path, and the one there.
* `write` puts a file where a path leads to, and makes the directories on the way.
* `addLink` puts a link at a path, and makes the directories on the way.
* `remove` takes away what stands at a path with everything below it; a link is taken away
  itself, and what it leads to stays.

Links on the way are followed.  What cannot be made, because something else stands there,
the way is blocked by a file, or a path or name is beyond the limits, is left out, and the
rest stays as it was.
-/

namespace PropSurface
namespace FileSystem

/-- Put an entry at a place, instead of what was there. -/
def put (fs : FileSystem) (place : Place) (entry : Entry) : FileSystem :=
  { fs with entries := fs.entries.filter (fun e => decide (e.1 ≠ place)) ++ [(place, entry)] }

/-- Put an entry at a path where nothing stands, and in a directory. -/
def putNew (fs : FileSystem) (p : Path) (entry : Entry) : FileSystem :=
  match fs.nameplace? p with
  | none => fs
  | some place => if (fs.entry? place).isSome then fs else fs.put place entry

/-- Whether a path can be made: it is not too long and holds no zero byte. -/
def isMakeable (p : Path) : Bool := !isTooLong p && !p.text.toList.contains '\x00'

/-- The paths that `p` passes through, from the shortest on, `p` itself the last. -/
def lineage (p : Path) : List Path :=
  (List.range p.components.length).map fun n => .ofComponents (p.components.take (n + 1))

/-- Make all directories on the way to a path, and the one there.  One that cannot be made
blocks the way to the next ones, so they are not made either. -/
def makeDirectories (fs : FileSystem) (p : Path) : FileSystem :=
  if isMakeable p then (lineage p).foldl (fun fs q => fs.putNew q .directory) fs else fs

/-- Make all directories on the way to a path. -/
def makeParents (fs : FileSystem) (p : Path) : FileSystem := fs.makeDirectories p.above

/-- Write a file, making the directories on the way.  A directory is not replaced. -/
def write (fs : FileSystem) (p : Path) (bytes : ByteArray) : FileSystem :=
  let fs := fs.makeParents p
  match fs.target? p with
  | none => fs
  | some place => if fs.hasDirectory place then fs else fs.put place (.file bytes)

/-- Put a link at a path where nothing stands, making the directories on the way. -/
def addLink (fs : FileSystem) (p target : Path) : FileSystem :=
  let fs := fs.makeParents p
  if isMakeable target then fs.putNew p (.link target) else fs

/-- Take away what stands at a place and below it. -/
def erase (fs : FileSystem) (place : Place) : FileSystem :=
  { fs with entries := fs.entries.filter (fun e => !place.isSuffixOf e.1) }

/-- Take away what stands below a place. -/
def clear (fs : FileSystem) (place : Place) : FileSystem :=
  { fs with entries := fs.entries.filter (fun e => decide (e.1 = place) || !place.isSuffixOf e.1) }

/-- The path without the slashes at its end, of which the root keeps one. -/
def trimSlashes (p : Path) : Path :=
  match (p.text.toList.reverse.dropWhile (· == '/')).reverse with
  | [] => if p.isAbsolute then ⟨"/"⟩ else p
  | cs => ⟨String.ofList cs⟩

/-- The place that a path calls by its own name: the path does not end in dots, and a
slash comes only after a directory, not after a link to one. -/
def ownPlace? (fs : FileSystem) (p : Path) : Option Place :=
  let named := trimSlashes p
  if named.segments.getLast? = some "." ∨ named.segments.getLast? = some ".." then none
  else (fs.nameplace? named).filter fun place => decide (named = p) || fs.hasDirectory place

/-- Remove what stands at a path with everything below it, and say whether that succeeded.
A directory that is not called by its own name is emptied and stays, which counts as success
only if the path went with it. -/
def remove (fs : FileSystem) (p : Path) : Bool × FileSystem :=
  if isTooLong p then (false, fs)
  else
    match fs.ownPlace? p with
    | some place => if (fs.entry? place).isSome then (true, fs.erase place) else (false, fs)
    | none =>
        match fs.resolve? p with
        | some place => (((fs.clear place).resolve? p).isNone, fs.clear place)
        | none => (false, fs)

/-- Only the root, and the directories down to the given absolute path, from which relative
paths start. -/
def empty (start : Path) : FileSystem :=
  (FileSystem.mk [] start.normalize).makeDirectories start.normalize

end FileSystem
end PropSurface
