import PropSurface.Declaration
import PropSurface.Proofs.Element.Parts

/-!
# Members of object types and interfaces

A property or method signature that has a name becomes a member of this name.  Anything else that
stands among the members is read as a statement or an expression, and becomes no member.

**Definitions.**
* `signatureName?`: the name of a member as it is written; `elementMember?`: the name of an element
  that is a member.

**Results.**
* `filterMap_lower_member`: the members that a node among the members becomes.
* `filterMap_parts_member`: the members that all of them become, in order.
-/

namespace PropSurface

open Lowering

/-- The name of a member of an object type: the text of its name, without quotes. -/
def signatureName? (source : String) (d : Concrete) : Option String :=
  if d.label.rule = .propertySignature ∨ d.label.rule = .methodSignature then
    (d.filling? "name").map (unquoted source ·.label)
  else none

/-- The name of an element that is a member. -/
def elementMember? (e : Element) : Option String :=
  match e.payload with
  | .propertySignature name => some name
  | .methodSignature name => some name
  | _ => none

theorem memberNames_eq (n : Node) :
    memberNames n = n.focus.children.filterMap fun u => elementMember? u.label := by
  rw [memberNames, ← Cursor.map_focus_children, List.filterMap_map]
  rfl

section Lowered

variable {source : String} {d : Concrete}

theorem exists_lower_member_of_some {name : String} (h : signatureName? source d = some name) :
    ∃ payload below, lower source .member d = [.node ⟨payload, d.label.span⟩ below] ∧
      (payload = .propertySignature name ∨ payload = .methodSignature name) := by
  unfold signatureName? at h
  split_ifs at h with hrule
  obtain ⟨k, hk, rfl⟩ := Option.map_eq_some_iff.mp h
  rw [lower_eq_build]
  rcases hrule with hrule | hrule
  · simp only [plan, planMember, hrule, Concrete.filling?_labels, hk, Option.map_some]
    exact ⟨_, _, rfl, .inl rfl⟩
  · simp only [plan, planMember, hrule, Concrete.filling?_labels, hk, Option.map_some]
    exact ⟨_, _, rfl, .inr rfl⟩

/-- What has no name as a member is read as a statement or an expression. -/
theorem lower_member_of_none (h : signatureName? source d = none) :
    lower source .member d = lower source (.plain []) d := by
  have hplan : planMember source d.label (d.children.map Tree.label) =
      planPlain source [] d.label (d.children.map Tree.label) := by
    unfold planMember
    rw [Concrete.filling?_labels]
    unfold signatureName? at h
    split
    · next hrule hname =>
        obtain ⟨k, hk, -⟩ := Option.map_eq_some_iff.mp hname
        simp [hrule, hk] at h
    · next hrule hname =>
        obtain ⟨k, hk, -⟩ := Option.map_eq_some_iff.mp hname
        simp [hrule, hk] at h
    · rfl
  rw [lower_eq_build, lower_eq_build]
  simp only [plan, hplan]

theorem elementMember?_eq_none {e : Element} (h : e.kind.isTypePart = false) :
    elementMember? e = none := by
  rcases e with ⟨payload, span⟩
  cases payload <;> first | rfl | cases h

/-- A member is lowered to one of its name, and anything else to no member. -/
theorem filterMap_lower_member (source : String) (d : Concrete) :
    (lower source .member d).filterMap (fun u => elementMember? u.label) =
      (signatureName? source d).toList := by
  cases hname : signatureName? source d with
  | none =>
      rw [lower_member_of_none hname, Option.toList_none, List.filterMap_eq_nil_iff]
      intro x hx
      exact elementMember?_eq_none (kind_of_mem_lower_plain source d [] x hx)
  | some name =>
      obtain ⟨payload, below, hlower, rfl | rfl⟩ := exists_lower_member_of_some hname
      · rw [hlower]
        rfl
      · rw [hlower]
        rfl

theorem filterMap_parts_member (source : String) (d : Concrete) :
    (d.parts.flatMap (lower source .member)).filterMap (fun u => elementMember? u.label) =
      d.parts.filterMap (signatureName? source) := by
  rw [List.filterMap_flatMap, List.filterMap_eq_flatMap_toList]
  simp only [filterMap_lower_member]

/-- Nothing among the members becomes a heritage clause. -/
theorem kind_of_mem_lower_member {x : Lowered} (hx : x ∈ lower source .member d) :
    x.label.kind ≠ .heritageClause := by
  cases hname : signatureName? source d with
  | none =>
      rw [lower_member_of_none hname] at hx
      intro hkind
      have hstatement := isStatement_of_mem_lower_plain source d [] x hx
      rw [hkind] at hstatement
      cases hstatement
  | some name =>
      obtain ⟨payload, below, hlower, rfl | rfl⟩ := exists_lower_member_of_some hname
      · rw [hlower] at hx
        rw [List.mem_singleton.mp hx]
        exact Kind.noConfusion
      · rw [hlower] at hx
        rw [List.mem_singleton.mp hx]
        exact Kind.noConfusion

end Lowered

end PropSurface
