import PropSurface.Proofs.Element.ClassHeader

/-!
# Elements of import and export statements

The statements that bring names in and out of a module, and the elements that they leave.

**Results.**
* `Lowering.lower_exportDeclaration`, `Lowering.lower_exportValue`, `Lowering.lower_exportList`:
  an exported declaration, a default export of a value, and a list of names.
* `Lowering.lower_import`: an import statement.
* `Lowering.lower_specifier`: one name of a list.
-/

namespace PropSurface
namespace Lowering

variable {source : String} {c : Concrete} {keywords : List Element}

/-! ### Exports -/

theorem exportForm_labels (c : Concrete) :
    exportForm (c.children.map Tree.label) =
      match c.filling? "declaration", c.filling? "value" with
      | some _, _ => .declaration "declaration"
      | none, some value => if value.label.rule = .classLike then .declaration "value" else .value
      | none, none =>
          if (c.standing? .equalsToken).isSome then .assignment
          else if (c.standing? .exportClause).isSome then .clause
          else .other := by
  simp only [exportForm, Concrete.filling?_labels, Concrete.standing?_labels, Option.isSome_map]
  cases c.filling? "declaration" <;> cases c.filling? "value" <;> rfl

theorem lower_export (h : c.label.rule = .exportStatement) :
    lower source (.plain keywords) c =
      (planExport source c.label (c.children.map Tree.label)).build
        (lowerParts source (planExport source c.label (c.children.map Tree.label)).roleOf
          c.children) := by
  rw [lower_eq_build]
  simp only [plan, planPlain, h]

/-- An exported declaration, or an exported class value, takes the place of the statement. -/
theorem lower_exportDeclaration (h : c.label.rule = .exportStatement) {d : Concrete}
    (hd : c.filling? "declaration" = some d ∨
      c.filling? "declaration" = none ∧ c.filling? "value" = some d ∧
        d.label.rule = .classLike) :
    lower source (.plain keywords) c =
      lower source (.plain (exportKeywords (c.children.map Tree.label))) d := by
  rw [lower_export h]
  rcases hd with hd | ⟨hnone, hd, hrule⟩
  · simp only [planExport, exportForm_labels, hd, filling_lowerParts, Option.map_some,
      Option.getD_some]
  · simp only [planExport, exportForm_labels, hnone, hd, hrule, if_true, filling_lowerParts,
      Option.map_some, Option.getD_some]

/-- A default export of a value that is no class. -/
theorem lower_exportValue (h : c.label.rule = .exportStatement)
    (hdeclaration : c.filling? "declaration" = none) {d : Concrete}
    (hvalue : c.filling? "value" = some d) (hrule : d.label.rule ≠ .classLike) :
    lower source (.plain keywords) c =
      [.node ⟨.exportAssignment, c.label.span⟩ (lower source (.plain []) d)] := by
  rw [lower_export h]
  simp only [planExport, exportForm_labels, hdeclaration, hvalue, hrule, if_false,
    filling_lowerParts, Option.map_some, Option.getD_some]

theorem lower_exportClause :
    lower source .exportClause c =
      [.node ⟨.namedExports, c.label.span⟩ (c.parts.flatMap fun d => lower source
        (if d.label.rule = .exportSpecifier then .exportSpecifier else .ignored) d)] := by
  rw [lower_eq_build]
  simp only [plan, wrap, List.nil_append, meaningful_lowerParts]

/-- A list of exported names, perhaps passed on from another module. -/
theorem lower_exportList (h : c.label.rule = .exportStatement)
    (hdeclaration : c.filling? "declaration" = none) (hvalue : c.filling? "value" = none)
    (hequals : c.standing? .equalsToken = none) {d : Concrete}
    (hlist : c.standing? .exportClause = some d) :
    lower source (.plain keywords) c =
      [.node ⟨.exportDeclaration, c.label.span⟩
        (lower source .exportClause d ++
          ((c.filling? "source").map fun s => stringLiteral source s.label).toList)] := by
  rw [lower_export h]
  simp only [planExport, exportForm_labels, hdeclaration, hvalue, hequals, hlist,
    Option.isSome_none, Option.isSome_some, if_true, Bool.false_eq_true, if_false,
    standing_lowerParts, Option.map_some, Option.getD_some, Concrete.filling?_labels,
    Option.map_map]
  rfl

/-! ### Imports -/

theorem lower_import (h : c.label.rule = .importStatement) :
    lower source (.plain keywords) c =
      [.node ⟨.importDeclaration, c.label.span⟩ (c.parts.flatMap fun d =>
        lower source (if d.label.rule = .importClause then .importClause else .plain []) d)] := by
  rw [lower_eq_build]
  simp only [plan, planPlain, h, wrap, List.nil_append, meaningful_lowerParts]

theorem lower_importClause :
    lower source .importClause c =
      [.node ⟨.importClause, c.label.span⟩ (c.parts.flatMap fun d =>
        lower source (if d.label.rule = .namedImports then .namedImports else .plain []) d)] := by
  rw [lower_eq_build]
  simp only [plan, wrap, List.nil_append, meaningful_lowerParts]

theorem lower_namedImports :
    lower source .namedImports c =
      [.node ⟨.namedImports, c.label.span⟩ (c.parts.flatMap fun d => lower source
        (if d.label.rule = .importSpecifier then .importSpecifier else .ignored) d)] := by
  rw [lower_eq_build]
  simp only [plan, wrap, List.nil_append, meaningful_lowerParts]

/-! ### Names -/

/-- The elements of one name of a list: it is a leaf but for the names it is made of. -/
theorem lower_specifier {make : String → Option String → Payload} {role : Role}
    (hrole : ∀ t kids, plan source role t kids = planSpecifier source make t kids)
    {name : Concrete} (hname : c.filling? "name" = some name) :
    lower source role c =
      [.node ⟨make (unquoted source name.label)
          ((c.filling? "alias").map fun d => unquoted source d.label), c.label.span⟩
        (identifier source name.label ::
          ((c.filling? "alias").map fun d => identifier source d.label).toList)] := by
  rw [lower_eq_build]
  simp only [hrole, planSpecifier, Concrete.filling?_labels, hname, Option.map_some,
    Plan.constant, Option.map_map]
  rfl

theorem lower_plain_identifier (h : c.label.rule = .identifier) :
    lower source (.plain keywords) c = [identifier source c.label] := by
  rw [lower_eq_build]
  simp only [plan, planPlain, h]
  rfl

theorem lower_plain_string (h : c.label.rule = .string) :
    lower source (.plain keywords) c = [stringLiteral source c.label] := by
  rw [lower_eq_build]
  simp only [plan, planPlain, h]
  rfl

end Lowering
end PropSurface
