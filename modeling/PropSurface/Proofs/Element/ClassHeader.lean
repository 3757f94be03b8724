import PropSurface.Proofs.Element.Parts

/-!
# Class headers

A class declaration as the grammar has it: a name, perhaps type parameters, perhaps a heritage
of an extends clause and an implements clause, and a body.  Decorators, comments and fixed tokens
may stand anywhere between them.

**Definitions.**
* `ClassHeader`, `IsClass`: the parts of a class declaration, and what it takes to have them.
* `ClassHeader.clauses`: the lowered clauses of the heritage.

**Results.**
* `IsClass.lower_eq`: the element of a class, with all that stands right below it.
* `Lowering.lower_extendsClause_pair`: the element of an extends clause with one target.
-/

namespace PropSurface

/-- The parts of a class declaration. -/
structure ClassHeader where
  name : Concrete
  parameters : Option Concrete
  heritage : Option Concrete
  /-- The extends clause of the heritage. -/
  extending : Option Concrete
  /-- The implements clause of the heritage. -/
  implementing : Option Concrete
  body : Concrete

/-- A class declaration with the given parts, in this order. -/
structure IsClass (c : Concrete) (h : ClassHeader) : Prop where
  rule : c.label.rule = .classLike
  parts : c.parts.filter (fun d => decide (d.label.rule ≠ .decorator)) =
    h.name :: (h.parameters.toList ++ h.heritage.toList ++ [h.body])
  name_eq : c.filling? "name" = some h.name
  name_only : ∀ d ∈ h.parameters.toList ++ [h.body], d.label.fills "name" = false
  name_rule : h.name.label.rule = .typeIdentifier
  parameters_kind : ∀ d ∈ h.parameters, d.label.kind = "type_parameters"
  body_kind : h.body.label.kind = "class_body"
  heritage_rule : ∀ d ∈ h.heritage, d.label.rule = .classHeritage
  /-- A heritage has at least one of its two clauses. -/
  heritage_isSome : h.heritage.isSome = (h.extending.isSome || h.implementing.isSome)
  heritage_parts : ∀ d ∈ h.heritage, d.parts = h.extending.toList ++ h.implementing.toList
  extending_rule : ∀ d ∈ h.extending, d.label.rule = .extendsClause
  implementing_rule : ∀ d ∈ h.implementing, d.label.rule = .implementsClause

/-- The lowered clauses of the heritage, in order. -/
def ClassHeader.clauses (h : ClassHeader) (source : String) : List Lowered :=
  h.extending.toList.flatMap (Lowering.lower source .extendsClause) ++
    h.implementing.toList.flatMap (Lowering.lower source (.typeClause .implementing))

namespace Lowering

variable {source : String} {c : Concrete}

/-! ### Single nodes -/

theorem lower_name (source : String) (c : Concrete) :
    lower source .name c = [identifier source c.label] := by
  rw [lower_eq_build]
  rfl

theorem lower_ignored (source : String) (c : Concrete) : lower source .ignored c = [] := by
  rw [lower_eq_build]
  rfl

/-- A node of no known rule is kept, above its meaningful children. -/
theorem lower_plain_other (h : c.label.rule = .other) (keywords : List Element) :
    lower source (.plain keywords) c =
      [.node ⟨.unknown c.label.kind, c.label.span⟩
        (keywords.map leaf ++ c.parts.flatMap (lower source (.plain [])))] := by
  rw [lower_eq_build]
  simp only [plan, planPlain, h, planUnknown, wrap, meaningful_lowerParts]

theorem lower_typeClause (heritage : Heritage) :
    lower source (.typeClause heritage) c =
      [.node ⟨.heritageClause heritage, c.label.span⟩
        (c.parts.flatMap (lower source .heritageType))] := by
  rw [lower_eq_build]
  simp only [plan, wrap, List.nil_append, meaningful_lowerParts]

theorem lower_typeArguments :
    lower source .typeArguments c = c.parts.flatMap (lower source .type) := by
  rw [lower_eq_build]
  simp only [plan, meaningful_lowerParts]

/-! ### Extends clauses -/

/-- The role in which the expression of a heritage target is read. -/
def expressionRole (t : Token) : Role :=
  if t.rule = .instantiation then .instantiation else .plain []

/-- Role of a child of an extends clause. -/
theorem planExtends_roleOf (t k : Token) :
    (planExtends t).roleOf k =
      if k.rule = .typeArguments then .typeArguments else expressionRole k := by
  simp only [planExtends, expressionRole]
  cases k.rule <;> rfl

theorem lower_extendsClause (source : String) (c : Concrete) :
    lower source .extendsClause c =
      [.node ⟨.heritageClause .extending, c.label.span⟩
        (extendsTargets (lowerParts source (planExtends c.label).roleOf c.children))] := by
  rw [lower_eq_build]
  rfl

/-- An extends clause with one expression and its type arguments has one target, and all of
these stand right below it. -/
theorem lower_extendsClause_pair {base arguments : Concrete}
    (hparts : c.parts = [base, arguments]) (hbase : base.label.rule ≠ .typeArguments)
    (harguments : arguments.label.rule = .typeArguments) :
    lower source .extendsClause c =
      [.node ⟨.heritageClause .extending, c.label.span⟩
        [target base.label
          (lower source (expressionRole base.label) base ++
            arguments.parts.flatMap (lower source .type))]] := by
  have hfilter : (lowerParts source (planExtends c.label).roleOf c.children).filter
      (·.1.isMeaningful) =
        [(base.label, lower source (expressionRole base.label) base),
          (arguments.label, lower source .typeArguments arguments)] := by
    have hmap : (lowerParts source (planExtends c.label).roleOf c.children).filter
        (·.1.isMeaningful) =
          c.parts.map fun d =>
            (d.label, lower source ((planExtends c.label).roleOf d.label) d) := by
      rw [lowerParts_eq_map, List.filter_map]
      rfl
    rw [hmap, hparts]
    simp only [List.map_cons, List.map_nil, planExtends_roleOf, if_neg hbase, harguments, if_true]
  rw [lower_extendsClause, extendsTargets, hfilter, pairTargets_cons_of_expression hbase,
    pairTargets_cons_of_arguments harguments, lower_typeArguments]
  simp [pairTargets]

end Lowering

/-! ### Classes -/

namespace IsClass

open Lowering

variable {source : String} {c : Concrete} {h : ClassHeader}

/-- Decorators leave nothing, so that only the other children of a class count. -/
theorem flatMap_lower_without_decorators (source : String) {roleOf : Token → Role}
    (hignored : ∀ k : Token, k.rule = .decorator → roleOf k = .ignored) (ds : List Concrete) :
    ds.flatMap (fun d => lower source (roleOf d.label) d) =
      (ds.filter fun d => decide (d.label.rule ≠ .decorator)).flatMap
        fun d => lower source (roleOf d.label) d := by
  induction ds with
  | nil => rfl
  | cons d ds ih =>
      by_cases hd : d.label.rule = .decorator
      · rw [List.flatMap_cons, hignored _ hd, lower_ignored, List.nil_append, ih,
          List.filter_cons_of_neg (by simp [hd])]
      · rw [List.flatMap_cons, ih, List.filter_cons_of_pos (by simp [hd]), List.flatMap_cons]

/-- The type parameters and the body of a class are of no rule of their own. -/
theorem rule_eq_other (hc : IsClass c h) {d : Concrete}
    (hd : d ∈ h.parameters.toList ++ [h.body]) : d.label.rule = .other := by
  rcases List.mem_append.mp hd with hd | hd
  · rw [Token.rule, hc.parameters_kind d (Option.mem_toList.mp hd)]
    rfl
  · rw [List.mem_singleton.mp hd, Token.rule, hc.body_kind]
    rfl

/-- A heritage that is there is lowered to its clauses. -/
theorem lower_classHeritage (hc : IsClass c h) {d : Concrete} (hd : h.heritage = some d)
    (source : String) : lower source .classHeritage d = h.clauses source := by
  have hsome := hc.heritage_isSome
  have hparts : d.parts = h.extending.toList ++ h.implementing.toList := hc.heritage_parts d hd
  have hclauses : ((d.children.map Tree.label).filter (·.isMeaningful)).any
      (fun k => k.rule = .extendsClause || k.rule = .implementsClause) = true := by
    have hlabels : (d.children.map Tree.label).filter (·.isMeaningful) =
        d.parts.map Tree.label := List.filter_map
    rw [hlabels, hparts]
    cases hextending : h.extending with
    | some x => simp [hc.extending_rule x hextending]
    | none =>
        cases himplementing : h.implementing with
        | some y => simp [hc.implementing_rule y himplementing]
        | none => simp [hd, hextending, himplementing] at hsome
  rw [lower_eq_build]
  simp only [plan, planHeritage, hclauses, if_true, meaningful_lowerParts, hparts,
    List.flatMap_append]
  refine congrArg₂ (· ++ ·) ?_ ?_
  · cases hextending : h.extending with
    | none => rfl
    | some x => simp [hc.extending_rule x hextending]
  · cases himplementing : h.implementing with
    | none => rfl
    | some y => simp [hc.implementing_rule y himplementing]

/-- Without a heritage there is no clause, so the clauses are what the heritage is lowered to. -/
theorem lower_heritage (hc : IsClass c h) (source : String) :
    h.heritage.toList.flatMap (lower source .classHeritage) = h.clauses source := by
  cases hheritage : h.heritage with
  | none =>
      have hsome := hc.heritage_isSome
      rw [hheritage, Option.isSome_none, eq_comm, Bool.or_eq_false_iff,
        Option.isSome_eq_false_iff, Option.isSome_eq_false_iff, Option.isNone_iff_eq_none,
        Option.isNone_iff_eq_none] at hsome
      simp [ClassHeader.clauses, hsome.1, hsome.2]
  | some d => simp [hc.lower_classHeritage hheritage source]

/-- The parts of a class that come after its name. -/
theorem lower_after_name (hc : IsClass c h) (source : String) (keywords : List Element) :
    (h.parameters.toList ++ h.heritage.toList ++ [h.body]).flatMap (fun d => lower source
        ((planClass source keywords c.label (c.children.map Tree.label)).roleOf d.label) d) =
      h.parameters.toList.flatMap (lower source (.plain [])) ++ h.clauses source ++
        lower source (.plain []) h.body := by
  have hplain : ∀ d ∈ h.parameters.toList ++ [h.body],
      (planClass source keywords c.label (c.children.map Tree.label)).roleOf d.label =
        .plain [] := by
    intro d hd
    simp [planClass, hc.rule_eq_other hd, hc.name_only d hd]
  rw [List.flatMap_append, List.flatMap_append, List.flatMap_singleton, hplain h.body (by simp)]
  refine congrArg (· ++ _) (congrArg₂ (· ++ ·) ?_ ?_)
  · cases hparameters : h.parameters with
    | none => rfl
    | some d => simp [hplain d (by simp [hparameters])]
  · rw [← hc.lower_heritage source]
    cases hheritage : h.heritage with
    | none => rfl
    | some d => simp [planClass, hc.heritage_rule d hheritage]

/-- A class becomes one element.  Right below it are the keywords, the name, the type parameters,
the clauses of the heritage and the body. -/
theorem lower_eq (hc : IsClass c h) (source : String) (keywords : List Element) :
    lower source (.plain keywords) c =
      [.node ⟨.classDeclaration (some (h.name.text source)), c.label.span⟩
        (keywords.map leaf ++ identifier source h.name.label ::
          (h.parameters.toList.flatMap (lower source (.plain [])) ++ h.clauses source ++
            lower source (.plain []) h.body))] := by
  have hbuild : (planClass source keywords c.label (c.children.map Tree.label)).build =
      wrap (.classDeclaration (some (h.name.text source))) c.label (keywords.map leaf) := by
    rw [planClass, Concrete.filling?_labels, hc.name_eq]
    rfl
  have hidentifier : (planClass source keywords c.label (c.children.map Tree.label)).roleOf
      h.name.label = .name := by
    have hfills : h.name.label.fills "name" = true := by simpa using List.find?_some hc.name_eq
    simp [planClass, hc.name_rule, hfills]
  have hbelow := meaningful_lowerParts source
    (planClass source keywords c.label (c.children.map Tree.label)).roleOf c
  rw [flatMap_lower_without_decorators source (fun k hk => by simp [planClass, hk]), hc.parts,
    List.flatMap_cons, hidentifier, lower_name, hc.lower_after_name] at hbelow
  rw [lower_eq_build]
  simp only [plan, planPlain, hc.rule]
  rw [hbuild, wrap, hbelow]
  rfl

end IsClass

end PropSurface
