import PropSurface.Concrete

/-!
# Sample trees

Short ways to write the concrete tree of a small source.  The worked cases of the theory are
written in them.

**Contents.**
* `Sample.rule`, `Sample.token`: a node for a rule and a node for a fixed text, without a fault.
* `Sample.declaration`, `Sample.base`, `Sample.member`: parts of an interface in which every name
  is one letter.
-/

namespace PropSurface
namespace Sample

/-- A named node without fault. -/
def rule (kind : String) (start stop : Nat) (fields : List String) (below : List Concrete) :
    Concrete :=
  .node ⟨kind, ⟨start, stop⟩, true, false, false, false, fields⟩ below

/-- A fixed token. -/
def token (kind : String) (start stop : Nat) : Concrete :=
  .node ⟨kind, ⟨start, stop⟩, false, false, false, false, []⟩ []

/-- An interface, with its name and the given parts after that. -/
def declaration (start stop : Nat) (parts : List Concrete) : Concrete :=
  rule "interface_declaration" start stop []
    (rule "type_identifier" (start + 10) (start + 11) ["name"] [] :: parts)

/-- A base of an interface. -/
def base (start : Nat) : Concrete := rule "type_identifier" start (start + 1) ["type"] []

/-- A property without a type. -/
def member (start : Nat) : Concrete :=
  rule "property_signature" start (start + 1) []
    [rule "property_identifier" start (start + 1) ["name"] []]

end Sample
end PropSurface
