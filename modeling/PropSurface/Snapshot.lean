import PropSurface.Cache
import PropSurface.FileSystem.Edit
import PropSurface.Json.Reader

/-!
# Snapshots of a project

An environment written down as one JSON object.

**Format.**
* `start`: the path of the directory from which relative paths start.
* `files`: an object from absolute paths to files.  A file has a `text` and, if it is a
  source, its `trees`: an object with one tree per grammar name, or with the tree `any` if
  all grammars agree.
* `links`: an object from absolute paths to the paths they lead to.

A tree is the list of its nodes in preorder, each as a list of depth, kind, first byte,
byte after the last, flags and, if it fills a role in its parent's rule, that role.  The
flags are a sum of 1 for a named node, 2 for an error, 4 for a missing token and 8 for an
error at or below the node.
-/

namespace PropSurface

namespace JsonValue

/-- The value of a member of an object. -/
def member? (key : String) : JsonValue → Option JsonValue
  | object members => members.lookup (some key)
  | _ => none

/-- The members of an object that have a proper name. -/
def namedMembers : JsonValue → List (String × JsonValue)
  | object members => members.filterMap fun (key, value) => key.map (·, value)
  | _ => []

def items : JsonValue → List JsonValue
  | array items => items
  | _ => []

def text? : JsonValue → Option String
  | text content => content
  | _ => none

/-- The value of a number without sign, fraction and exponent. -/
def nat? : JsonValue → Option Nat
  | number literal =>
      if literal.toList.all Char.isDigit then some (digitsValue literal.toList) else none
  | _ => none

end JsonValue

namespace Snapshot

/-- A node with its depth. -/
def row? (row : JsonValue) : Option (Nat × Token) :=
  match row.items with
  | depth :: kind :: start :: stop :: flags :: roles => do
      let flags ← flags.nat?
      pure (← depth.nat?,
        { kind := ← kind.text?
          span := ⟨← start.nat?, ← stop.nat?⟩
          named := flags.testBit 0
          isError := flags.testBit 1
          isMissing := flags.testBit 2
          hasError := flags.testBit 3
          fields := roles.filterMap JsonValue.text? })
  | _ => none

/-- The tree of a text that has none. -/
def blankTree : Concrete := .node ⟨"program", ⟨0, 0⟩, true, false, false, false, []⟩ []

/-- A tree from its rows. -/
def tree? (rows : JsonValue) : Option Concrete := (rows.items.mapM row?).bind Tree.ofRows?

/-- The tree that a grammar gives to a source. -/
def treeFor (trees : JsonValue) (grammar : Grammar) : Concrete :=
  (((trees.member? "any").or (trees.member? grammar.name)).bind tree?).getD blankTree

/-- Texts with their trees. -/
def sources (files : List (String × JsonValue)) : List (String × JsonValue) :=
  files.filterMap fun (_, file) => do
    pure (← (← file.member? "text").text?, ← file.member? "trees")

/-- The file system with the given files and links. -/
def fileSystem (start : Path) (files links : List (String × JsonValue)) : FileSystem :=
  let empty := FileSystem.empty start
  let filled := files.foldl
    (fun fs (p, file) =>
      fs.write ⟨p⟩ (((file.member? "text").bind JsonValue.text?).getD "").toUTF8) empty
  links.foldl (fun fs (p, target) => fs.addLink ⟨p⟩ ⟨target.text?.getD ""⟩) filled

/-- The environment that a JSON value describes. -/
def environment (value : JsonValue) : Environment :=
  let files := ((value.member? "files").map JsonValue.namedMembers).getD []
  let links := ((value.member? "links").map JsonValue.namedMembers).getD []
  let start := ((value.member? "start").bind JsonValue.text?).getD "/"
  { files := fileSystem ⟨start⟩ files links
    concrete := fun grammar source =>
      (((sources files).lookup source).map (treeFor · grammar)).getD blankTree }

/-- The environment that a text describes. -/
def read? (s : String) : Option Environment := (JsonValue.read? s).map environment

end Snapshot

end PropSurface
