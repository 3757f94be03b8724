import PropSurface.Path.Basic

/-!
# Normal paths

Resolving dots in a path without looking at any file.

**Algorithm.**  The components are pushed on a stack.  A dot is skipped; two dots
take a name off the stack, are dropped right above the root, and are kept at the
start of a relative path.  An empty stack is the current directory.
-/

namespace PropSurface
namespace Path

/-- Push one component on a stack of normal components, top first. -/
def pushNormal (stack : List Component) (c : Component) : List Component :=
  match c, stack with
  | .root, _ => [.root]
  | .current, stack => stack
  | .parent, .name _ :: rest => rest
  | .parent, .root :: rest => .root :: rest
  | .parent, stack => .parent :: stack
  | .name s, stack => .name s :: stack

/-- Components of the normal form; empty for the current directory. -/
def normalComponents (cs : List Component) : List Component :=
  (cs.foldl pushNormal []).reverse

/-- The path with its dots resolved. -/
def normalize (p : Path) : Path :=
  match normalComponents p.components with
  | [] => ⟨"."⟩
  | cs => ofComponents cs

/-- The path that a module specifier names, seen from the importing file. -/
def resolveSpecifier (importer : Path) (specifier : String) : Path :=
  normalize ((importer.parent?.getD ⟨""⟩).join ⟨specifier⟩)

end Path
end PropSurface
