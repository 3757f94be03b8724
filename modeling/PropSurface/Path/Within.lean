import PropSurface.Path.Basic

/-!
# Paths within a directory

`Path.within? base p` is the part of `p` below `base`, as it is written in `p`.  The
two are compared by components, so `base` may be spelled differently; the answer
keeps the inner slashes and dots of `p`, and loses the insignificant ones at its
ends.  `Path.above` is the part in front of the last component, kept in the same way.
-/

namespace PropSurface
namespace Path

/-- Drop segments up to and including the `n`-th significant one. -/
def dropSignificant :
    Nat → List (String × Option Component) → List (String × Option Component)
  | 0, ss => ss
  | _ + 1, [] => []
  | n + 1, (_, none) :: ss => dropSignificant (n + 1) ss
  | n + 1, (_, some _) :: ss => dropSignificant n ss

/-- Drop insignificant segments from the end. -/
def trimEnd (ss : List (String × Option Component)) :
    List (String × Option Component) :=
  (ss.reverse.dropWhile (·.2.isNone)).reverse

/-- Text of a list of segments. -/
def joinSegments : List (String × Option Component) → String
  | [(_, some .root)] => "/"
  | ss => "/".intercalate (ss.map (·.1))

/-- The part of a path in front of its last component, as it is written. -/
def above (p : Path) : Path := ⟨joinSegments (trimEnd (trimEnd p.marked).dropLast)⟩

/-- The part of `p` below `base`; `none` when `p` is not below it. -/
def within? (base p : Path) : Option Path :=
  if base.components.isPrefixOf p.components then
    match base.components.length with
    | 0 => some ⟨joinSegments (trimEnd p.marked)⟩
    | n + 1 =>
        let rest := (dropSignificant (n + 1) p.marked).dropWhile (·.2.isNone)
        some ⟨joinSegments (trimEnd rest)⟩
  else none

end Path
end PropSurface
