import PropSurface.Source
import PropSurface.Tree

/-!
# Concrete trees

The tree that a grammar gives to a source: every token and every rule of the text,
comments included, with flags for the places that could not be read.

**Contents.**
* `Token`: what is known of one node; `Concrete`: a tree of them.
* `named`: the children that carry meaning, that is the named ones without comments.
* `firstBad?`: the first place that could not be read, looked for only where the
  flags say that there is one.
-/

namespace PropSurface

/-- One node of a concrete tree. -/
structure Token where
  kind : String
  span : Span
  /-- Whether the node stands for a rule of the grammar rather than a fixed text. -/
  named : Bool
  /-- Text that fits no rule. -/
  isError : Bool
  /-- A token that the rule needs and the text lacks. -/
  isMissing : Bool
  /-- Whether this node or one below it could not be read. -/
  hasError : Bool
  /-- Roles this node fills in its parent's rule.  Asked for a role, the parent answers with one
  child, so no two children of a node fill the same one. -/
  fields : List String
deriving DecidableEq, Repr

/-- A node of this kind is a comment. -/
def commentKind : String := "comment"

namespace Token

/-- Whether the node fills role `f` of its parent. -/
def fills (t : Token) (f : String) : Bool := t.fields.contains f

/-- Whether the node carries meaning: a named node that is no comment. -/
def isMeaningful (t : Token) : Bool := t.named && t.kind != commentKind

/-- Whether the text could not be read at this very node. -/
def isBad (t : Token) : Bool := t.isError || t.isMissing

end Token

/-- The tree that a grammar gives to a source. -/
abbrev Concrete := Tree Token

namespace Concrete

mutual

/-- First node, in preorder, that could not be read.  Subtrees whose flag promises
none are passed over. -/
def firstBad? : Concrete → Option Token
  | .node t ts =>
      if t.isBad then some t
      else if t.hasError then firstBadAmong? ts
      else none

/-- First node of a forest that could not be read. -/
def firstBadAmong? : List Concrete → Option Token
  | [] => none
  | t :: ts =>
      match firstBad? t with
      | some bad => some bad
      | none => firstBadAmong? ts

end

end Concrete

end PropSurface
