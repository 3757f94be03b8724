import PropSurface.Proofs.Element.ClassHeader

/-!
# Moving a text

The same text at another place has the same elements, at that place.

**Definitions.**
* `Tree.map`: a tree with other labels.
* `Token.move`, `Element.move`, `Role.move`: what is read at other places, by a map of places.
* `SameText`: a node has the same text after the move.

**Results.**
* `Lowering.plan_moved`: the plan for a moved node is the moved plan.
* `Lowering.lower_move`: the elements of a moved node are the moved elements.
-/

namespace PropSurface

universe u v

namespace Tree

variable {α : Type u} {β : Type v}

mutual

/-- The tree with `f` applied to its labels. -/
def map (f : α → β) : Tree α → Tree β
  | node a ts => node (f a) (mapForest f ts)

/-- The forest with `f` applied to its labels. -/
def mapForest (f : α → β) : List (Tree α) → List (Tree β)
  | [] => []
  | t :: ts => map f t :: mapForest f ts

end

theorem mapForest_eq_map (f : α → β) (ts : List (Tree α)) : mapForest f ts = ts.map (map f) := by
  induction ts with
  | nil => rfl
  | cons t ts ih => rw [mapForest, ih, List.map_cons]

@[simp] theorem map_node (f : α → β) (a : α) (ts : List (Tree α)) :
    map f (node a ts) = node (f a) (ts.map (map f)) := by
  rw [map, mapForest_eq_map]

@[simp] theorem label_map (f : α → β) (t : Tree α) : (t.map f).label = f t.label := by
  cases t with
  | node a ts => rfl

@[simp] theorem children_map (f : α → β) (t : Tree α) :
    (t.map f).children = t.children.map (map f) := by
  cases t with
  | node a ts => simp

mutual

@[simp] theorem size_map (f : α → β) : ∀ t : Tree α, (t.map f).size = t.size
  | node a ts => by rw [map, size, size, forestSize_mapForest f ts]

theorem forestSize_mapForest (f : α → β) :
    ∀ ts : List (Tree α), forestSize (mapForest f ts) = forestSize ts
  | [] => rfl
  | t :: ts => by
      rw [mapForest, forestSize, forestSize, size_map f t, forestSize_mapForest f ts]

end

mutual

/-- The labels of a relabelled tree, in preorder, are those of the tree, relabelled. -/
theorem preorder_map (f : α → β) : ∀ t : Tree α, (t.map f).preorder = t.preorder.map f
  | node a ts => by rw [map, preorder, preorder, List.map_cons, forestPreorder_mapForest f ts]

theorem forestPreorder_mapForest (f : α → β) :
    ∀ ts : List (Tree α), forestPreorder (mapForest f ts) = (forestPreorder ts).map f
  | [] => rfl
  | t :: ts => by
      rw [mapForest, forestPreorder, forestPreorder, List.map_append, preorder_map f t,
        forestPreorder_mapForest f ts]

end

/-- The rows of a relabelled forest are those of the forest, relabelled. -/
theorem row_map (f : α → β) (k : Nat) (ts : List (Tree α)) :
    row k (ts.map (map f)) = (row k ts).map (map f) := by
  induction k generalizing ts with
  | zero => rfl
  | succ k ih =>
      rw [row_succ, row_succ, ← ih, List.flatMap_map, List.map_flatMap]
      simp only [children_map]

/-- Relabelling keeps the level order of the subtrees. -/
theorem levelOrder_map (f : α → β) (t : Tree α) :
    (t.map f).levelOrder = t.levelOrder.map (map f) := by
  rw [levelOrder, levelOrder, size_map, children_map, List.map_flatMap]
  simp only [row_map]

end Tree

/-! ### Places -/

section Move

variable (g : Span → Span)

/-- The same node at the place that `g` gives. -/
def Token.move (t : Token) : Token := { t with span := g t.span }

/-- The same element at the place that `g` gives. -/
def Element.move (e : Element) : Element := { e with span := g e.span }

/-- The same role, with its keywords moved. -/
def Role.move : Role → Role
  | .plain keywords => .plain (keywords.map (Element.move g))
  | role => role

/-- A moved child with its moved elements. -/
def Part.move (part : Part) : Part := (part.1.move g, part.2.map (Tree.map (Element.move g)))

variable {g}

@[simp] theorem Token.rule_move (t : Token) : (t.move g).rule = t.rule := rfl

@[simp] theorem Token.kind_move (t : Token) : (t.move g).kind = t.kind := rfl

@[simp] theorem Token.span_move (t : Token) : (t.move g).span = g t.span := rfl

@[simp] theorem Token.fills_move (t : Token) (field : String) :
    (t.move g).fills field = t.fills field := rfl

@[simp] theorem Token.isMeaningful_move (t : Token) :
    (t.move g).isMeaningful = t.isMeaningful := rfl

@[simp] theorem Token.filling?_move (field : String) (kids : List Token) :
    Token.filling? field (kids.map (Token.move g)) =
      (Token.filling? field kids).map (Token.move g) := List.find?_map ..

@[simp] theorem Token.standing?_move (rule : Rule) (kids : List Token) :
    Token.standing? rule (kids.map (Token.move g)) =
      (Token.standing? rule kids).map (Token.move g) := List.find?_map ..

/-- A node has the same text at the place that `g` gives, in another source. -/
def SameText (g : Span → Span) (source source' : String) (t : Token) : Prop :=
  Source.slice source' (g t.span) = Source.slice source t.span

instance (g : Span → Span) (source source' : String) (t : Token) :
    Decidable (SameText g source source' t) :=
  inferInstanceAs (Decidable (_ = _))

/-- A plan that does for moved children what another one does for the children. -/
structure Plan.Moved (g : Span → Span) (p p' : Plan) : Prop where
  roleOf : ∀ t, p'.roleOf (t.move g) = (p.roleOf t).move g
  build : ∀ parts : List Part,
    p'.build (parts.map (Part.move g)) = (p.build parts).map (Tree.map (Element.move g))

end Move

namespace Lowering

variable {g : Span → Span} {source source' : String} {parts : List Part} {t : Token}
  {kids : List Token}

/-! ### Pieces -/

@[simp] theorem map_leaf (e : Element) :
    (leaf e).map (Element.move g) = leaf (e.move g) := by
  simp [leaf]

/-- A node with the same text leaves the same identifier, at its new place. -/
theorem identifier_move (h : SameText g source source' t) :
    identifier source' (t.move g) = (identifier source t).map (Element.move g) := by
  simp only [identifier, map_leaf, Token.span_move, h.symm]
  rfl

theorem unquoted_move (h : SameText g source source' t) :
    unquoted source' (t.move g) = unquoted source t := by
  rw [unquoted, unquoted, Token.span_move, h]

theorem stringLiteral_move (h : SameText g source source' t) :
    stringLiteral source' (t.move g) = (stringLiteral source t).map (Element.move g) := by
  simp only [stringLiteral, map_leaf, unquoted_move h, Token.span_move]
  rfl

/-- Moved children leave moved elements, in the same order. -/
theorem meaningful_move (parts : List Part) :
    meaningful (parts.map (Part.move g)) =
      (meaningful parts).map (Tree.map (Element.move g)) := by
  rw [meaningful, meaningful, List.filter_map, List.flatMap_map, List.map_flatMap]
  rfl

theorem filling_move (field : String) (parts : List Part) :
    filling field (parts.map (Part.move g)) =
      (filling field parts).map (Tree.map (Element.move g)) := by
  have hfind : (parts.map (Part.move g)).find? (·.1.fills field) =
      (parts.find? (·.1.fills field)).map (Part.move g) := List.find?_map ..
  rw [filling, filling, hfind]
  cases parts.find? (·.1.fills field) <;> rfl

theorem standing_move (rule : Rule) (parts : List Part) :
    standing rule (parts.map (Part.move g)) =
      (standing rule parts).map (Tree.map (Element.move g)) := by
  have hfind : (parts.map (Part.move g)).find? (fun part => decide (part.1.rule = rule)) =
      (parts.find? (fun part => decide (part.1.rule = rule))).map (Part.move g) :=
    List.find?_map ..
  rw [standing, standing, hfind]
  cases parts.find? (fun part => decide (part.1.rule = rule)) <;> rfl

theorem exportKeywords_move (kids : List Token) :
    exportKeywords (kids.map (Token.move g)) = (exportKeywords kids).map (Element.move g) := by
  simp only [exportKeywords, Token.standing?_move, List.map_append]
  cases Token.standing? .exportToken kids <;> cases Token.standing? .defaultToken kids <;> rfl

/-- The form of an export statement does not depend on places. -/
theorem exportForm_move (kids : List Token) :
    exportForm (kids.map (Token.move g)) = exportForm kids := by
  simp only [exportForm, Token.filling?_move, Token.standing?_move, Option.isSome_map]
  cases Token.filling? "declaration" kids <;> cases Token.filling? "value" kids <;> rfl

theorem genericName?_move (kids : List Token) :
    genericName? (kids.map (Token.move g)) = (genericName? kids).map (Token.move g) := by
  have hfind : (kids.map (Token.move g)).find? (·.isMeaningful) =
      (kids.find? (·.isMeaningful)).map (Token.move g) := List.find?_map ..
  rw [genericName?, genericName?, Token.filling?_move, hfind]
  cases Token.filling? "name" kids <;> rfl

theorem argumentsOnly_move (k : Token) : argumentsOnly (k.move g) = (argumentsOnly k).move g := by
  rw [argumentsOnly, argumentsOnly, Token.fills_move]
  split <;> rfl

/-- Type arguments belong to the same targets wherever they stand. -/
theorem pairTargets_move (parts : List Part) :
    pairTargets (parts.map (Part.move g)) =
      ((pairTargets parts).1.map (Part.move g),
        (pairTargets parts).2.map (Tree.map (Element.move g))) := by
  induction parts with
  | nil => rfl
  | cons part parts ih =>
      rw [List.map_cons]
      by_cases hrule : part.1.rule = .typeArguments
      · have hmoved : (Part.move g part).1.rule = .typeArguments := hrule
        rw [pairTargets_cons_of_arguments hrule, pairTargets_cons_of_arguments hmoved, ih]
        rfl
      · have hmoved : (Part.move g part).1.rule ≠ .typeArguments := hrule
        rw [pairTargets_cons_of_expression hrule, pairTargets_cons_of_expression hmoved, ih]
        simp only [List.map_cons, List.map_nil, target, Tree.map_node, List.map_append,
          List.map_flatMap, List.flatMap_map]
        rfl

theorem extendsTargets_move (parts : List Part) :
    extendsTargets (parts.map (Part.move g)) =
      (extendsTargets parts).map (Tree.map (Element.move g)) := by
  have hfilter : (parts.map (Part.move g)).filter (·.1.isMeaningful) =
      (parts.filter (·.1.isMeaningful)).map (Part.move g) := List.filter_map
  simp only [extendsTargets, hfilter, pairTargets_move, List.map_append, List.map_map]
  refine congrArg (· ++ _) (List.map_congr_left fun part _ => ?_)
  simp only [Function.comp_apply, target, Tree.map_node]
  rfl

/-! ### Plans -/

/-- Roles that do not depend on the place of a child, and bring no keywords along. -/
theorem moved_roles {roleOf : Token → Role} (hplace : ∀ k : Token, roleOf (k.move g) = roleOf k)
    (hrole : ∀ k, (roleOf k).move g = roleOf k) (k : Token) :
    roleOf (k.move g) = (roleOf k).move g :=
  (hplace k).trans (hrole k).symm

theorem moved_constant {elements elements' : List Lowered}
    (h : elements' = elements.map (Tree.map (Element.move g))) :
    Plan.Moved g (.constant elements) (.constant elements') :=
  ⟨fun _ => rfl, fun _ => h⟩

theorem moved_meaningful {roleOf : Token → Role}
    (hplace : ∀ k : Token, roleOf (k.move g) = roleOf k)
    (hrole : ∀ k, (roleOf k).move g = roleOf k) :
    Plan.Moved g ⟨roleOf, meaningful⟩ ⟨roleOf, meaningful⟩ :=
  ⟨moved_roles hplace hrole, meaningful_move⟩

/-- One element above `first` and the children that carry meaning. -/
theorem moved_wrap {roleOf roleOf' : Token → Role}
    (hroles : ∀ k, roleOf' (k.move g) = (roleOf k).move g) (payload : Payload) (t : Token)
    {first first' : List Lowered} (hfirst : first' = first.map (Tree.map (Element.move g))) :
    Plan.Moved g ⟨roleOf, wrap payload t first⟩ ⟨roleOf', wrap payload (t.move g) first'⟩ where
  roleOf := hroles
  build parts := by
    simp only [wrap, meaningful_move, hfirst, List.map_cons, List.map_nil, Tree.map_node,
      List.map_append]
    rfl

/-- One element above `first` and the child that fills a role. -/
theorem moved_node_filling (first first' : List Lowered)
    (hfirst : first' = first.map (Tree.map (Element.move g))) {roleOf roleOf' : Token → Role}
    (hroles : ∀ k, roleOf' (k.move g) = (roleOf k).move g) (payload : Payload) (t : Token)
    (field : String) :
    Plan.Moved g
      ⟨roleOf, fun parts => [.node ⟨payload, t.span⟩ (first ++ filling field parts)]⟩
      ⟨roleOf', fun parts =>
        [.node ⟨payload, (t.move g).span⟩ (first' ++ filling field parts)]⟩ where
  roleOf := hroles
  build parts := by
    simp only [filling_move, hfirst, List.map_cons, List.map_nil, Tree.map_node, List.map_append]
    rfl

theorem keywords_move (keywords : List Element) :
    (keywords.map (Element.move g)).map leaf =
      (keywords.map leaf).map (Tree.map (Element.move g)) := by
  simp [Function.comp_def]

theorem moved_planUnknown (t : Token) (keywords : List Element) (role : Role) :
    Plan.Moved g (planUnknown t keywords role)
      (planUnknown (t.move g) (keywords.map (Element.move g)) (role.move g)) :=
  moved_wrap (fun _ => rfl) (.unknown t.kind) t (keywords_move keywords)

theorem identifiers_move {name : Option Token} (h : ∀ k ∈ name, SameText g source source' k) :
    ((name.map (Token.move g)).map (identifier source')).toList =
      (name.map (identifier source)).toList.map (Tree.map (Element.move g)) := by
  cases name with
  | none => rfl
  | some k => simp [identifier_move (h k rfl)]

theorem slices_move {name : Option Token} (h : ∀ k ∈ name, SameText g source source' k) :
    (name.map (Token.move g)).map (Source.slice source' ·.span) =
      name.map (Source.slice source ·.span) := by
  cases name with
  | none => rfl
  | some k => exact congrArg some (h k rfl)

theorem sameText_filling? (hkids : ∀ k ∈ kids, SameText g source source' k) (field : String) :
    ∀ k ∈ Token.filling? field kids, SameText g source source' k :=
  fun k hk => hkids k (List.mem_of_find?_eq_some hk)

theorem sameText_genericName? (hkids : ∀ k ∈ kids, SameText g source source' k) :
    ∀ k ∈ genericName? kids, SameText g source source' k := by
  intro k hk
  rcases Option.or_eq_some_iff.mp hk with hk | ⟨_, hk⟩
  · exact sameText_filling? hkids _ k hk
  · exact hkids k (List.mem_of_find?_eq_some hk)

/-- A declaration keeps its name when it is moved with its text. -/
theorem declaredName_move (hkids : ∀ k ∈ kids, SameText g source source' k) :
    declaredName source' (kids.map (Token.move g)) = declaredName source kids := by
  rw [declaredName, declaredName, Token.filling?_move, slices_move (sameText_filling? hkids _)]

theorem moved_planSpecifier (make : String → Option String → Payload) (t : Token)
    (hkids : ∀ k ∈ kids, SameText g source source' k) :
    Plan.Moved g (planSpecifier source make t kids)
      (planSpecifier source' make (t.move g) (kids.map (Token.move g))) := by
  have hname := sameText_filling? hkids "name"
  have hrename := sameText_filling? hkids "alias"
  simp only [planSpecifier, Token.filling?_move]
  cases hfind : Token.filling? "name" kids with
  | none => exact moved_planUnknown t [] (.plain [])
  | some name =>
      have hunquoted : ((Token.filling? "alias" kids).map (Token.move g)).map (unquoted source') =
          (Token.filling? "alias" kids).map (unquoted source) := by
        cases hrenamed : Token.filling? "alias" kids with
        | none => rfl
        | some k => exact congrArg some (unquoted_move (hrename k hrenamed))
      refine moved_constant ?_
      simp only [List.map_cons, List.map_nil, Tree.map_node, hunquoted,
        unquoted_move (hname name hfind), identifier_move (hname name hfind),
        identifiers_move hrename]
      rfl

/-- An export statement keeps its form, and hands on its own keywords at their new places. -/
theorem moved_planExport (hkids : ∀ k ∈ kids, SameText g source source' k) :
    Plan.Moved g (planExport source t kids)
      (planExport source' (t.move g) (kids.map (Token.move g))) := by
  simp only [planExport, exportForm_move]
  cases exportForm kids with
  | declaration field =>
      exact ⟨fun _ => congrArg Role.plain (exportKeywords_move kids), filling_move field⟩
  | value => exact moved_node_filling [] [] rfl (fun _ => rfl) .exportAssignment t "value"
  | assignment => exact moved_wrap (fun _ => rfl) .exportAssignment t rfl
  | clause =>
      have hsource : ((Token.filling? "source" kids).map (Token.move g)).map
          (stringLiteral source') =
            ((Token.filling? "source" kids).map (stringLiteral source)).map
              (Tree.map (Element.move g)) := by
        cases hfind : Token.filling? "source" kids with
        | none => rfl
        | some k => exact congrArg some (stringLiteral_move (sameText_filling? hkids _ k hfind))
      refine ⟨fun _ => rfl, fun parts => ?_⟩
      simp only [Token.filling?_move, hsource, standing_move, Option.toList_map, List.map_cons,
        List.map_nil, Tree.map_node, List.map_append]
      rfl
  | other => exact moved_planUnknown t [] (.plain [])

/-- Statements and expressions are planned by their rule, and named by texts that stay the same. -/
theorem moved_planPlain (keywords : List Element) (ht : SameText g source source' t)
    (hkids : ∀ k ∈ kids, SameText g source source' k) :
    Plan.Moved g (planPlain source keywords t kids)
      (planPlain source' (keywords.map (Element.move g)) (t.move g)
        (kids.map (Token.move g))) := by
  have hidentifier : Plan.Moved g (.constant [identifier source t])
      (.constant [identifier source' (t.move g)]) := moved_constant (by simp [identifier_move ht])
  have hunknown := moved_planUnknown (g := g) t keywords (.plain [])
  cases hrule : t.rule <;> simp only [planPlain, Token.rule_move, hrule]
  case exportStatement => exact moved_planExport hkids
  case importStatement =>
    refine moved_wrap (moved_roles (fun _ => rfl) fun k => ?_) .importDeclaration t rfl
    split_ifs <;> rfl
  case classLike =>
    simp only [planClass, Token.filling?_move, slices_move (sameText_filling? hkids _)]
    refine moved_wrap (moved_roles (fun _ => rfl) fun k => ?_) _ t (keywords_move keywords)
    split_ifs <;> rfl
  case interfaceDeclaration =>
    simp only [planInterface, declaredName_move hkids]
    refine moved_wrap (moved_roles (fun _ => rfl) fun k => ?_) _ t (keywords_move keywords)
    split_ifs
    · rfl
    · cases k.rule <;> rfl
  case typeAliasDeclaration =>
    simp only [planAlias, declaredName_move hkids]
    refine moved_wrap (moved_roles (fun _ => rfl) fun k => ?_) _ t (keywords_move keywords)
    split_ifs <;> rfl
  case identifier => exact hidentifier
  case propertyIdentifier => exact hidentifier
  case typeIdentifier => exact hidentifier
  case otherIdentifier => exact hidentifier
  case string => exact moved_constant (by simp [stringLiteral_move ht])
  all_goals exact hunknown

theorem moved_planType (ht : SameText g source source' t)
    (hkids : ∀ k ∈ kids, SameText g source source' k) :
    Plan.Moved g (planType source t kids)
      (planType source' (t.move g) (kids.map (Token.move g))) := by
  have hreference : Plan.Moved g
      (.constant [.node ⟨.typeReference (Source.slice source t.span), t.span⟩
        [identifier source t]])
      (.constant [.node ⟨.typeReference (Source.slice source' (g t.span)), g t.span⟩
        [identifier source' (t.move g)]]) := by
    refine moved_constant ?_
    rw [ht, identifier_move ht]
    simp only [List.map_cons, List.map_nil, Tree.map_node]
    rfl
  have hidentifier : Plan.Moved g (.constant [identifier source t])
      (.constant [identifier source' (t.move g)]) := moved_constant (by simp [identifier_move ht])
  have hunknown := moved_planUnknown (g := g) t [] .type
  cases hrule : t.rule <;> simp only [planType, Token.rule_move, hrule]
  case typeIdentifier => exact hreference
  case nestedTypeIdentifier => exact hreference
  case genericType =>
    simp only [genericName?_move, slices_move (sameText_genericName? hkids)]
    exact moved_node_filling _ _ (identifiers_move (sameText_genericName? hkids))
      argumentsOnly_move _ t "type_arguments"
  case objectType => exact moved_wrap (fun _ => rfl) .typeLiteral t rfl
  case intersectionType => exact moved_wrap (fun _ => rfl) .intersectionType t rfl
  case annotatedType => exact moved_meaningful (fun _ => rfl) fun _ => rfl
  case parenthesizedType => exact moved_meaningful (fun _ => rfl) fun _ => rfl
  case identifier => exact hidentifier
  case propertyIdentifier => exact hidentifier
  case string => exact moved_constant (by simp [stringLiteral_move ht])
  all_goals exact hunknown

/-- A signature keeps its name; any other member is planned as a statement. -/
theorem moved_planMember (ht : SameText g source source' t)
    (hkids : ∀ k ∈ kids, SameText g source source' k) :
    Plan.Moved g (planMember source t kids)
      (planMember source' (t.move g) (kids.map (Token.move g))) := by
  have hplain := moved_planPlain [] ht hkids
  have hname := sameText_filling? hkids "name"
  cases hfind : Token.filling? "name" kids with
  | none =>
      cases hrule : t.rule <;>
        simp only [planMember, Token.rule_move, Token.filling?_move, hrule, hfind,
          Option.map_none] <;>
        exact hplain
  | some name =>
      have hidentifier := identifier_move (hname name hfind)
      have hunquoted := unquoted_move (hname name hfind)
      cases hrule : t.rule <;>
        simp only [planMember, Token.rule_move, Token.filling?_move, hrule, hfind,
          Option.map_some, hunquoted]
      case propertySignature =>
        refine moved_node_filling [identifier source name] [identifier source' (name.move g)]
          (by simp [hidentifier]) (moved_roles (fun _ => rfl) fun k => ?_) _ t "type"
        split_ifs <;> rfl
      case methodSignature =>
        refine moved_constant ?_
        simp only [hidentifier, List.map_cons, List.map_nil, Tree.map_node]
        rfl
      all_goals exact hplain

theorem moved_planExtends (t : Token) :
    Plan.Moved g (planExtends t) (planExtends (t.move g)) where
  roleOf k := by
    simp only [planExtends, Token.rule_move]
    cases k.rule <;> rfl
  build parts := by
    simp only [planExtends, extendsTargets_move, List.map_cons, List.map_nil, Tree.map_node]
    rfl

/-- Whether a heritage has clauses is up to the rules of its children, not to their places. -/
theorem moved_planHeritage (t : Token) (kids : List Token) :
    Plan.Moved g (planHeritage t kids) (planHeritage (t.move g) (kids.map (Token.move g))) := by
  have hclauses : ((kids.map (Token.move g)).filter (·.isMeaningful)).any
      (fun k => k.rule = .extendsClause || k.rule = .implementsClause) =
        (kids.filter (·.isMeaningful)).any
          (fun k => k.rule = .extendsClause || k.rule = .implementsClause) := by
    rw [List.filter_map, List.any_map]
    rfl
  rw [planHeritage, planHeritage, hclauses]
  split_ifs
  · refine moved_meaningful (fun _ => rfl) fun k => ?_
    cases k.rule <;> rfl
  · exact moved_planExtends t

theorem moved_planHeritageType (ht : SameText g source source' t)
    (hkids : ∀ k ∈ kids, SameText g source source' k) :
    Plan.Moved g (planHeritageType source t kids)
      (planHeritageType source' (t.move g) (kids.map (Token.move g))) := by
  cases hrule : t.rule <;> simp only [planHeritageType, Token.rule_move, hrule]
  case genericType =>
    simp only [genericName?_move]
    exact moved_node_filling _ _ (identifiers_move (sameText_genericName? hkids))
      argumentsOnly_move .heritageTarget t "type_arguments"
  all_goals
    refine moved_constant ?_
    simp only [identifier_move ht, target, List.map_cons, List.map_nil, Tree.map_node]
    rfl

/-- The plan for a moved node is the moved plan. -/
theorem plan_moved (role : Role) (ht : SameText g source source' t)
    (hkids : ∀ k ∈ kids, SameText g source source' k) :
    Plan.Moved g (plan source role t kids)
      (plan source' (role.move g) (t.move g) (kids.map (Token.move g))) := by
  cases role <;> simp only [plan, Role.move]
  case plain keywords => exact moved_planPlain keywords ht hkids
  case importClause =>
    refine moved_wrap (moved_roles (fun _ => rfl) fun k => ?_) .importClause t rfl
    split_ifs <;> rfl
  case namedImports =>
    refine moved_wrap (moved_roles (fun _ => rfl) fun k => ?_) .namedImports t rfl
    split_ifs <;> rfl
  case exportClause =>
    refine moved_wrap (moved_roles (fun _ => rfl) fun k => ?_) .namedExports t rfl
    split_ifs <;> rfl
  case importSpecifier => exact moved_planSpecifier _ t hkids
  case exportSpecifier => exact moved_planSpecifier _ t hkids
  case classHeritage => exact moved_planHeritage t kids
  case extendsClause => exact moved_planExtends t
  case typeClause heritage => exact moved_wrap (fun _ => rfl) (.heritageClause heritage) t rfl
  case heritageType => exact moved_planHeritageType ht hkids
  case instantiation =>
    refine moved_meaningful (fun _ => rfl) fun k => ?_
    split_ifs <;> rfl
  case interfaceBody => exact moved_meaningful (fun _ => rfl) fun _ => rfl
  case member => exact moved_planMember ht hkids
  case typeArguments => exact moved_meaningful (fun _ => rfl) fun _ => rfl
  case type => exact moved_planType ht hkids
  case operand =>
    rw [Token.rule_move]
    split_ifs
    · exact moved_meaningful (fun _ => rfl) fun _ => rfl
    · exact moved_planType ht hkids
  case name => exact moved_constant (by simp [identifier_move ht])
  case ignored => exact moved_constant rfl

/-! ### Trees -/

mutual

/-- The elements of a moved node are the moved elements. -/
theorem lower_move : ∀ (role : Role) (c : Concrete),
    (∀ t ∈ c.preorder, SameText g source source' t) →
      lower source' (role.move g) (c.map (Token.move g)) =
        (lower source role c).map (Tree.map (Element.move g))
  | role, .node t ts, h => by
      have hkids : ∀ k ∈ ts.map Tree.label, SameText g source source' k := by
        intro k hk
        obtain ⟨d, hd, rfl⟩ := List.mem_map.mp hk
        exact h _ (List.mem_cons_of_mem _ (Tree.label_mem_forestPreorder hd))
      have hplan := plan_moved role (h t List.mem_cons_self) hkids
      have hlabels : (Tree.mapForest (Token.move g) ts).map Tree.label =
          (ts.map Tree.label).map (Token.move g) := by
        simp [Tree.mapForest_eq_map, Function.comp_def]
      rw [Tree.map, lower, lower, hlabels,
        lowerParts_move hplan.roleOf ts fun k hk => h k (List.mem_cons_of_mem _ hk)]
      exact hplan.build _

/-- Moved children that are read in moved roles come with the moved elements. -/
theorem lowerParts_move {roleOf roleOf' : Token → Role}
    (hroles : ∀ k, roleOf' (k.move g) = (roleOf k).move g) : ∀ cs : List Concrete,
    (∀ t ∈ Tree.forestPreorder cs, SameText g source source' t) →
      lowerParts source' roleOf' (Tree.mapForest (Token.move g) cs) =
        (lowerParts source roleOf cs).map (Part.move g)
  | [], _ => rfl
  | c :: cs, h => by
      rw [Tree.mapForest, lowerParts, lowerParts, List.map_cons, Tree.label_map, hroles,
        lower_move (roleOf c.label) c fun k hk => h k (List.mem_append_left _ hk),
        lowerParts_move hroles cs fun k hk => h k (List.mem_append_right _ hk)]
      rfl

end

end Lowering

end PropSurface
