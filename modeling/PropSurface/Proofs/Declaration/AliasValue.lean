import PropSurface.Concrete.Sample
import PropSurface.Proofs.Declaration.Members
import PropSurface.Proofs.Element.Statements
import PropSurface.Proofs.Resolution.Replacement

/-!
# Values of type aliases

The value of an alias is written with references, object types, intersections and parentheses.
Intersections that stand directly in one another are flattened, and parentheses leave no element.
But the two do not combine: an operand in parentheses is a type of its own, and if it is an
intersection then none of its operands is taken.

**Definitions.**
* `TypeExpr`: such a type; `TypeExpr.atoms`: its references and object types, left to right.
* `TypeExpr.taken`: what an alias takes from its value.
* `TypeExpr.Plain`: no operand is an intersection in parentheses.
* `Written`, `IsAlias`: concrete trees that are written as a type, and as an alias of it.
* `DeclaresAlias`, `Realiased`: a module that declares a name as an alias, and a project in which
  this module gives the alias another value.

**Results.**
* `TypeExpr.taken_eq`: from a plain type, all references and members are taken, in order.
* `IsAlias.declarationShape_eq`: what the declaration of an alias says.
* `declaresAlias_of_statement`: an alias at the top of a module is found under its name.
* `Session.resolved_alias`: plain values of the same atoms cannot be told apart by resolution.
* `Session.resolved_alias_loses_operands`: other values can.
-/

namespace PropSurface

open Lowering

namespace TypeShape

@[simp] theorem append_empty (a : TypeShape) : a.append .empty = a := by
  simp [append, empty]

theorem append_assoc (a b c : TypeShape) : (a.append b).append c = a.append (b.append c) := by
  simp [append]

theorem concat_append (as bs : List TypeShape) :
    concat (as ++ bs) = (concat as).append (concat bs) := by
  induction as with
  | nil => simp [concat, append, empty]
  | cons a as ih =>
      rw [List.cons_append, concat, List.foldr_cons, ← concat, ih, ← append_assoc]
      rfl

@[simp] theorem concat_singleton (a : TypeShape) : concat [a] = a := append_empty a

end TypeShape

/-! ### Types of references, object types and intersections -/

/-- A type that is written with references, object types, intersections and parentheses. -/
inductive TypeExpr where
  | reference (name : String)
  | object (members : List String)
  | both (left right : TypeExpr)
  /-- An intersection that starts with its sign and has one operand. -/
  | leading (operand : TypeExpr)
  | parenthesized (inner : TypeExpr)
deriving DecidableEq, Repr

namespace TypeExpr

/-- The references and object types in a type, left to right. -/
def atoms : TypeExpr → List TypeExpr
  | reference name => [reference name]
  | object members => [object members]
  | both left right => left.atoms ++ right.atoms
  | leading operand => operand.atoms
  | parenthesized inner => inner.atoms

/-- The names that a type refers to, left to right. -/
def references (e : TypeExpr) : List String :=
  e.atoms.filterMap fun
    | reference name => some name
    | _ => none

/-- The members of the object types in a type, left to right. -/
def members (e : TypeExpr) : List String :=
  e.atoms.flatMap fun
    | object members => members
    | _ => []

/-- All references and members. -/
def whole (e : TypeExpr) : TypeShape := ⟨e.references, e.members⟩

/-- What is taken from a reference or an object type, with or without parentheses; nothing is
taken from an intersection. -/
def simple : TypeExpr → TypeShape
  | reference name => ⟨[name], []⟩
  | object members => ⟨[], members⟩
  | both _ _ => .empty
  | leading _ => .empty
  | parenthesized inner => inner.simple

/-- What is taken from an operand of an intersection. -/
def fromOperand : TypeExpr → TypeShape
  | reference name => ⟨[name], []⟩
  | object members => ⟨[], members⟩
  | both left right => left.fromOperand.append right.fromOperand
  | leading operand => operand.fromOperand
  | parenthesized inner => inner.simple

/-- What is taken from the value of an alias. -/
def taken : TypeExpr → TypeShape
  | reference name => ⟨[name], []⟩
  | object members => ⟨[], members⟩
  | both left right => left.fromOperand.append right.fromOperand
  | leading operand => operand.fromOperand
  | parenthesized inner => inner.taken

/-- Whether a type is an intersection, with or without parentheses. -/
def isIntersection : TypeExpr → Bool
  | reference _ => false
  | object _ => false
  | both _ _ => true
  | leading _ => true
  | parenthesized inner => inner.isIntersection

/-- Whether an operand is no intersection in parentheses, and has none among its own operands. -/
def PlainOperand : TypeExpr → Prop
  | reference _ => True
  | object _ => True
  | both left right => left.PlainOperand ∧ right.PlainOperand
  | leading operand => operand.PlainOperand
  | parenthesized inner => inner.isIntersection = false

/-- Whether no operand is an intersection in parentheses. -/
def Plain : TypeExpr → Prop
  | reference _ => True
  | object _ => True
  | both left right => left.PlainOperand ∧ right.PlainOperand
  | leading operand => operand.PlainOperand
  | parenthesized inner => inner.Plain

@[simp] theorem whole_object (names : List String) : (object names).whole = ⟨[], names⟩ := by
  simp [whole, references, members, atoms]

@[simp] theorem whole_both (left right : TypeExpr) :
    (both left right).whole = left.whole.append right.whole := by
  simp [whole, references, members, atoms, TypeShape.append]

theorem simple_eq {e : TypeExpr} (h : e.isIntersection = false) : e.simple = e.whole := by
  induction e with
  | reference name => rfl
  | object names => exact (whole_object names).symm
  | both left right => cases h
  | leading operand => cases h
  | parenthesized inner ih => exact ih h

theorem fromOperand_eq {e : TypeExpr} (h : e.PlainOperand) : e.fromOperand = e.whole := by
  induction e with
  | reference name => rfl
  | object names => exact (whole_object names).symm
  | both left right ihl ihr => rw [fromOperand, ihl h.1, ihr h.2, whole_both]
  | leading operand ih => exact ih h
  | parenthesized inner => exact simple_eq h

/-- From a plain type, all references and members are taken. -/
theorem taken_eq {e : TypeExpr} (h : e.Plain) : e.taken = e.whole := by
  induction e with
  | reference name => rfl
  | object names => exact (whole_object names).symm
  | both left right => exact fromOperand_eq (e := both left right) h
  | leading operand => exact fromOperand_eq (e := leading operand) h
  | parenthesized inner ih => exact ih h

end TypeExpr

/-! ### How such a type is written and lowered -/

/-- A concrete tree that is written as a type. -/
inductive Written (source : String) : TypeExpr → Concrete → Prop
  | reference {d : Concrete}
      (hrule : d.label.rule = .typeIdentifier ∨ d.label.rule = .nestedTypeIdentifier) :
      Written source (.reference (d.text source)) d
  /-- A reference with type arguments. -/
  | generic {d : Concrete} {name : Token} (hrule : d.label.rule = .genericType)
      (hname : genericName? (d.children.map Tree.label) = some name) :
      Written source (.reference (Source.slice source name.span)) d
  | object {d : Concrete} (hrule : d.label.rule = .objectType) :
      Written source (.object (d.parts.filterMap (signatureName? source))) d
  | both {d l r : Concrete} {left right : TypeExpr} (hrule : d.label.rule = .intersectionType)
      (hparts : d.parts = [l, r]) (hleft : Written source left l)
      (hright : Written source right r) :
      Written source (.both left right) d
  | leading {d o : Concrete} {operand : TypeExpr} (hrule : d.label.rule = .intersectionType)
      (hparts : d.parts = [o]) (hoperand : Written source operand o) :
      Written source (.leading operand) d
  | parenthesized {d i : Concrete} {inner : TypeExpr}
      (hrule : d.label.rule = .parenthesizedType) (hparts : d.parts = [i])
      (hinner : Written source inner i) :
      Written source (.parenthesized inner) d

/-- What is taken from a single type, by its subtree. -/
def treeSimple (t : Lowered) : TypeShape :=
  match t.label.payload with
  | .typeReference name => ⟨[name], []⟩
  | .typeLiteral => ⟨[], t.children.filterMap fun u => elementMember? u.label⟩
  | _ => .empty

/-- What is taken from the value of an alias, by its subtree. -/
def treeTaken (t : Lowered) : TypeShape :=
  match t.label.payload with
  | .intersectionType => .concat (t.children.map treeSimple)
  | _ => treeSimple t

/-- Whether an element can be the value of an alias that says something. -/
def isTreeValue (t : Lowered) : Bool :=
  decide (t.label.kind = .typeLiteral) || decide (t.label.kind = .intersectionType) ||
    decide (t.label.kind = .typeReference)

theorem simpleShape_eq (n : Node) : simpleShape n = treeSimple n.focus := by
  unfold simpleShape treeSimple
  rw [memberNames_eq]
  rfl

theorem valueShape_eq (n : Node) : valueShape n = treeTaken n.focus := by
  unfold valueShape treeTaken
  rw [simpleShape_eq, ← Cursor.map_focus_children, List.map_map]
  simp only [Function.comp_def, ← simpleShape_eq]
  rfl

/-- What the lowered form of a tree is worth as a value and as an operand. -/
structure LowersTo (source : String) (d : Concrete) (e : TypeExpr) : Prop where
  value : ∃ t, lower source .type d = [t] ∧ isTreeValue t = true ∧ treeSimple t = e.simple ∧
    treeTaken t = e.taken
  operand : TypeShape.concat ((lower source .operand d).map treeSimple) = e.fromOperand

section Lowered

variable {source : String} {d : Concrete}

theorem lower_operand_of_ne (h : d.label.rule ≠ .intersectionType) :
    lower source .operand d = lower source .type d := by
  rw [lower_eq_build, lower_eq_build]
  simp only [plan, if_neg h]

theorem lower_type_intersection (h : d.label.rule = .intersectionType) :
    lower source .type d =
      [.node ⟨.intersectionType, d.label.span⟩ (d.parts.flatMap (lower source .operand))] := by
  rw [lower_eq_build]
  simp only [plan, planType, h, wrap, meaningful_lowerParts, List.nil_append]

theorem lower_operand_intersection (h : d.label.rule = .intersectionType) :
    lower source .operand d = d.parts.flatMap (lower source .operand) := by
  rw [lower_eq_build]
  simp only [plan, h, if_true, meaningful_lowerParts]

theorem lower_type_parenthesized (h : d.label.rule = .parenthesizedType) :
    lower source .type d = d.parts.flatMap (lower source .type) := by
  rw [lower_eq_build]
  simp only [plan, planType, h, meaningful_lowerParts]

theorem lower_type_object (h : d.label.rule = .objectType) :
    lower source .type d =
      [.node ⟨.typeLiteral, d.label.span⟩ (d.parts.flatMap (lower source .member))] := by
  rw [lower_eq_build]
  simp only [plan, planType, h, wrap, meaningful_lowerParts, List.nil_append]

/-- A reference is lowered to one, with whatever is below it. -/
theorem exists_lower_type_reference (source : String)
    (h : d.label.rule = .typeIdentifier ∨ d.label.rule = .nestedTypeIdentifier) :
    ∃ below, lower source .type d =
      [.node ⟨.typeReference (d.text source), d.label.span⟩ below] := by
  refine ⟨[identifier source d.label], ?_⟩
  rw [lower_eq_build]
  rcases h with h | h
  · simp only [plan, planType, h, Plan.constant, Concrete.text]
  · simp only [plan, planType, h, Plan.constant, Concrete.text]

theorem exists_lower_type_generic (source : String) (h : d.label.rule = .genericType)
    {name : Token}
    (hname : genericName? (d.children.map Tree.label) = some name) :
    ∃ below, lower source .type d =
      [.node ⟨.typeReference (Source.slice source name.span), d.label.span⟩ below] := by
  rw [lower_eq_build]
  simp only [plan, planType, h, hname, Option.map_some, Option.getD_some]
  exact ⟨_, rfl⟩

/-- A single type that is not an intersection is worth the same as a value and as an operand. -/
theorem LowersTo.of_single {t : Lowered} {e : TypeExpr} (hrule : d.label.rule ≠ .intersectionType)
    (hlower : lower source .type d = [t]) (hvalue : isTreeValue t = true)
    (hsimple : treeSimple t = e.simple) (htaken : treeTaken t = e.taken)
    (hoperand : e.fromOperand = e.simple) : LowersTo source d e where
  value := ⟨t, hlower, hvalue, hsimple, htaken⟩
  operand := by
    rw [lower_operand_of_ne hrule, hlower, List.map_singleton, TypeShape.concat_singleton, hsimple,
      hoperand]

theorem LowersTo.intersection {e : TypeExpr} (hrule : d.label.rule = .intersectionType)
    (hsimple : e.simple = .empty) (htaken : e.taken = e.fromOperand)
    (hparts : TypeShape.concat ((d.parts.flatMap (lower source .operand)).map treeSimple) =
      e.fromOperand) : LowersTo source d e where
  value := ⟨_, lower_type_intersection hrule, rfl, hsimple.symm, hparts.trans htaken.symm⟩
  operand := by rw [lower_operand_intersection hrule, hparts]

/-- What is taken from the lowered form of a type is what is taken from the type. -/
theorem Written.lowersTo {e : TypeExpr} (h : Written source e d) : LowersTo source d e := by
  induction h with
  | reference hrule =>
      obtain ⟨below, hlower⟩ := exists_lower_type_reference source hrule
      refine .of_single (fun hne => ?_) hlower rfl rfl rfl rfl
      rcases hrule with hrule | hrule <;> rw [hrule] at hne <;> cases hne
  | generic hrule hname =>
      obtain ⟨below, hlower⟩ := exists_lower_type_generic source hrule hname
      exact .of_single (by rw [hrule]; decide) hlower rfl rfl rfl rfl
  | @object d hrule =>
      have hmembers := filterMap_parts_member source d
      refine .of_single (by rw [hrule]; decide) (lower_type_object hrule) rfl ?_ ?_ rfl
      · exact congrArg (TypeShape.mk []) hmembers
      · exact congrArg (TypeShape.mk []) hmembers
  | both hrule hparts _ _ ihleft ihright =>
      refine .intersection hrule rfl rfl ?_
      rw [hparts, List.flatMap_cons, List.flatMap_singleton, List.map_append,
        TypeShape.concat_append, ihleft.operand, ihright.operand]
      rfl
  | leading hrule hparts _ ih =>
      refine .intersection hrule rfl rfl ?_
      rw [hparts, List.flatMap_singleton, ih.operand]
      rfl
  | parenthesized hrule hparts _ ih =>
      obtain ⟨t, hlower, hvalue, hsimple, htaken⟩ := ih.value
      refine .of_single (by rw [hrule]; decide) ?_ hvalue hsimple htaken rfl
      rw [lower_type_parenthesized hrule, hparts, List.flatMap_singleton, hlower]

end Lowered

/-! ### Aliases -/

/-- Role of a child of an alias. -/
def aliasRole (k : Token) : Role :=
  if k.fills "name" then .name else if k.fills "value" then .type else .plain []

theorem lower_alias {source : String} {c : Concrete} (h : c.label.rule = .typeAliasDeclaration)
    (keywords : List Element) :
    lower source (.plain keywords) c =
      [.node ⟨.typeAliasDeclaration (declaredName source (c.children.map Tree.label)),
          c.label.span⟩
        (keywords.map leaf ++ c.parts.flatMap fun d => lower source (aliasRole d.label) d)] := by
  rw [lower_eq_build]
  simp only [plan, planPlain, h, planAlias, wrap, meaningful_lowerParts, aliasRole]

/-- A declaration of an alias with the given value.  Type parameters and the like may stand
between its name and its value. -/
structure IsAlias (source : String) (c value : Concrete) (name : String) : Prop where
  rule : c.label.rule = .typeAliasDeclaration
  name : (c.filling? "name").map (Concrete.text source) = some name
  parts : ∃ before after, c.parts = before ++ value :: after ∧
    ∀ d ∈ before, d.label.fills "value" = true → d.label.fills "name" = true
  fills_value : value.label.fills "value" = true
  fills_name : value.label.fills "name" = false

namespace IsAlias

variable {source name : String} {c value : Concrete} {e : TypeExpr} {kids : List Token}

/-- The element of an alias: its keywords, what stands before its value, the value, and the
rest. -/
theorem exists_lower_eq (h : IsAlias source c value name) (keywords : List Element) :
    ∃ before after, lower source (.plain keywords) c =
        [.node ⟨.typeAliasDeclaration name, c.label.span⟩
          (keywords.map leaf ++ (before ++ lower source .type value ++ after))] ∧
      ∀ x ∈ before, x.label.kind.isTypePart = false := by
  obtain ⟨before, after, hparts, hbefore⟩ := h.parts
  have hname : declaredName source (c.children.map Tree.label) = name := by
    rw [declaredName, Concrete.filling?_labels, Option.map_map]
    exact (congrArg (Option.getD · "") h.name).trans rfl
  have hvalue : aliasRole value.label = .type := by
    simp only [aliasRole, h.fills_name, h.fills_value, if_true, Bool.false_eq_true, if_false]
  refine ⟨before.flatMap fun d => lower source (aliasRole d.label) d,
    after.flatMap fun d => lower source (aliasRole d.label) d, ?_, ?_⟩
  · rw [lower_alias h.rule, hname, hparts, List.flatMap_append, List.flatMap_cons, hvalue,
      List.append_assoc]
  · intro x hx
    obtain ⟨d, hd, hx⟩ := List.mem_flatMap.mp hx
    by_cases hfills : d.label.fills "name" = true
    · rw [aliasRole, if_pos hfills, lower_eq_build] at hx
      rw [List.mem_singleton.mp hx]
      rfl
    · have hnot : ¬ d.label.fills "value" = true := fun hv => hfills (hbefore d hd hv)
      rw [aliasRole, if_neg hfills, if_neg hnot] at hx
      exact kind_of_mem_lower_plain source d [] x hx

theorem find?_isTreeValue (keywords before after : List Lowered) {t : Lowered}
    (hkeywords : ∀ x ∈ keywords, x.label.kind.isExport = true)
    (hbefore : ∀ x ∈ before, x.label.kind.isTypePart = false) (ht : isTreeValue t = true) :
    (keywords ++ (before ++ [t] ++ after)).find? isTreeValue = some t := by
  have hkeywordsNone : keywords.find? isTreeValue = none := by
    rw [List.find?_eq_none]
    intro x hx
    have hexport := hkeywords x hx
    rcases x with ⟨⟨payload, span⟩, below⟩
    cases payload <;> first | exact Bool.false_ne_true | cases hexport
  have hbeforeNone : before.find? isTreeValue = none := by
    rw [List.find?_eq_none]
    intro x hx
    have htype := hbefore x hx
    rcases x with ⟨⟨payload, span⟩, below⟩
    cases payload <;> first | exact Bool.false_ne_true | cases htype
  simp [List.find?_append, hkeywordsNone, hbeforeNone, ht]

/-- What the declaration of an alias says is what is taken from its value, wherever the
declaration stands. -/
theorem declarationShape_eq (h : IsAlias source c value name) (hvalue : Written source e value)
    {n : Node} (hn : lower source (.plain (exportKeywords kids)) c = [n.focus]) :
    declarationShape n = e.taken := by
  obtain ⟨t, hlower, htree, _, htaken⟩ := hvalue.lowersTo.value
  obtain ⟨before, after, heq, hbefore⟩ := h.exists_lower_eq (exportKeywords kids)
  rw [heq, hlower, List.singleton_inj] at hn
  have hfind : n.focus.children.find? isTreeValue = some t := by
    rw [← hn]
    refine find?_isTreeValue _ before after (fun x hx => ?_) hbefore htree
    obtain ⟨k, hk, rfl⟩ := List.mem_map.mp hx
    exact exportKeywords_isExport hk
  have hshape : (n.children.find? isAliasValue).map valueShape = some e.taken := by
    rw [← Cursor.map_focus_children, List.find?_map] at hfind
    obtain ⟨v, hv, rfl⟩ := Option.map_eq_some_iff.mp hfind
    have hv' : n.children.find? isAliasValue = some v := hv
    rw [hv', Option.map_some, valueShape_eq, htaken]
  unfold declarationShape
  have hpayload : n.label.payload = .typeAliasDeclaration name := by
    change n.focus.label.payload = _
    rw [← hn]
    rfl
  rw [hpayload]
  simp only [hshape, Option.getD_some]

end IsAlias

/-! ### Modules that declare an alias -/

/-- A module in which a name means an alias of the given value. -/
def DeclaresAlias (m : ParsedModule) (name : String) (e : TypeExpr) : Prop :=
  ∃ site c value kids, m.site? name = some site ∧
    lower m.source (.plain (exportKeywords kids)) c = [site.declaration.focus] ∧
    IsAlias m.source c value name ∧ Written m.source e value

theorem DeclaresAlias.exists_site {m : ParsedModule} {name : String} {e : TypeExpr}
    (h : DeclaresAlias m name e) : ∃ site, m.site? name = some site ∧ site.shape = e.taken := by
  obtain ⟨site, c, value, kids, hsite, hlower, halias, hvalue⟩ := h
  exact ⟨site, hsite, halias.declarationShape_eq hvalue hlower⟩

/-- Whether an element declares a type of the given name. -/
def declares (name : String) (t : Lowered) : Bool :=
  (decide (t.label.kind = .interfaceDeclaration) ||
    decide (t.label.kind = .typeAliasDeclaration)) && decide (t.label.name? = some name)

/-- A declaration right below the root comes before all that is deeper. -/
theorem declaration?_of_child {root n : Node} {name : String}
    (h : root.children.find? (fun n => declares name n.focus) = some n) :
    declaration? root name = some n := by
  obtain ⟨deeper, hdeeper⟩ := root.exists_descendants_eq_append
  have hguard : (fun m : Node => if QueryStep.admits
      { relation := .descendant, kind := none,
        holds := fun n => n.isTypeDeclaration && n.isNamed name } m
      then Node.query? [] m else none) = Option.guard fun n => declares name n.focus := by
    funext m
    rw [Option.guard]
    rfl
  rw [declaration?, Node.query?, hguard, Relation.first?_eq_findSome?, Relation.candidates,
    hdeeper, List.findSome?_guard, List.find?_append, h, Option.some_or]

/-- The first declaration of a name among the statements of a module is found, whether it is
exported or not. -/
theorem declaresAlias_of_statement {m : ParsedModule} {root c d value : Concrete}
    {before after : List Concrete} {name : String} {e : TypeExpr}
    (hroot : m.root = lowerRoot m.source root) (hparts : root.parts = before ++ d :: after)
    (hfirst : ∀ b ∈ before, ∀ x ∈ lower m.source (.plain []) b, declares name x = false)
    (hd : d = c ∨ d.label.rule = .exportStatement ∧ d.filling? "declaration" = some c)
    (halias : IsAlias m.source c value name) (hvalue : Written m.source e value) :
    DeclaresAlias m name e := by
  obtain ⟨kids, hkids⟩ : ∃ kids,
      lower m.source (.plain []) d = lower m.source (.plain (exportKeywords kids)) c := by
    rcases hd with rfl | ⟨hrule, hfills⟩
    · exact ⟨[], rfl⟩
    · exact ⟨_, lower_exportDeclaration hrule (.inl hfills)⟩
  obtain ⟨_, _, hlower, _⟩ := halias.exists_lower_eq (exportKeywords kids)
  generalize ht : Tree.node _ _ = t at hlower
  have hdeclares : declares name t = true := by
    rw [← ht]
    simp [declares, Element.kind, Element.name?, Payload.kind, Payload.name?]
  have hbefore : (before.flatMap (lower m.source (.plain []))).find? (declares name) = none := by
    rw [List.find?_eq_none]
    intro x hx
    obtain ⟨b, hb, hx⟩ := List.mem_flatMap.mp hx
    rw [hfirst b hb x hx]
    exact Bool.false_ne_true
  have hfind : (m.rootNode.children.map Cursor.focus).find? (declares name) = some t := by
    rw [Cursor.map_focus_children]
    change m.root.children.find? _ = _
    rw [hroot, lowerRoot_eq, Tree.children_node, hparts, List.flatMap_append, List.flatMap_cons,
      hkids, hlower, List.find?_append, hbefore, Option.none_or, List.singleton_append,
      List.find?_cons_of_pos hdeclares]
  rw [List.find?_map] at hfind
  obtain ⟨n, hn, hfocus⟩ := Option.map_eq_some_iff.mp hfind
  refine ⟨⟨m, name, n⟩, c, value, kids, ?_, by rw [hlower, hfocus], halias, hvalue⟩
  rw [ParsedModule.site?, declaration?_of_child hn]
  rfl

/-- A project in which the file of a module was rewritten, so that the module says the same about
all types but one. -/
structure Realiased (env env' : Environment) (m m' : ParsedModule) (name : String) : Prop
    extends Rewrites env env' m m' where
  others : ∀ n, n ≠ name → (m'.site? n).map Site.shape = (m.site? n).map Site.shape
  origins : ∀ n, m'.typeOrigin? n = m.typeOrigin? n

/-- If both values give the same, the modules have the same types. -/
theorem Realiased.sameTypes {env env' : Environment} {m m' : ParsedModule} {name : String}
    (h : Realiased env env' m m' name) {e e' : TypeExpr} (he : DeclaresAlias m name e)
    (he' : DeclaresAlias m' name e') (htaken : e'.taken = e.taken) : SameTypes m m' where
  path := h.path_eq
  shape n := by
    by_cases hn : n = name
    · obtain ⟨site, hsite, hshape⟩ := he.exists_site
      obtain ⟨site', hsite', hshape'⟩ := he'.exists_site
      rw [hn, hsite, hsite', Option.map_some, Option.map_some, hshape, hshape', htaken]
    · exact h.others n hn
  origin := h.origins

namespace Session

/-- A name that is an alias takes from its value what is not inside an operand in parentheses that
is an intersection.  So if there is no such operand, its bases are the references of the value and
its members those of the object types, left to right; and with another such value of the same
references and object types, however these are grouped and parenthesised, every name resolves to the
same properties or fails in the same way. -/
theorem resolved_alias (env : Environment) (m : ParsedModule) (name : String) (e : TypeExpr)
    (hm : env.Loads m) (halias : DeclaresAlias m name e) :
    (∃ site, m.site? name = some site ∧ site.shape = e.taken ∧
      (e.Plain → site.shape.bases = e.references ∧ site.shape.own = e.members)) ∧
    ∀ (env' : Environment) (m' : ParsedModule) (e' : TypeExpr), Realiased env env' m m' name →
      DeclaresAlias m' name e' → e.Plain → e'.Plain → e'.atoms = e.atoms →
        ∀ (history past : List Call) (n : String),
          resolved env' past m' n = resolved env history m n := by
  constructor
  · obtain ⟨site, hsite, hshape⟩ := halias.exists_site
    refine ⟨site, hsite, hshape, fun hplain => ?_⟩
    rw [hshape, TypeExpr.taken_eq hplain]
    exact ⟨rfl, rfl⟩
  · intro env' m' e' hother halias' hplain hplain' hatoms history past n
    obtain ⟨_, _, _, _, hread⟩ := hm.provides
    have htaken : e'.taken = e.taken := by
      rw [TypeExpr.taken_eq hplain, TypeExpr.taken_eq hplain', TypeExpr.whole, TypeExpr.whole,
        TypeExpr.references, TypeExpr.references, TypeExpr.members, TypeExpr.members, hatoms]
    have htypes := hother.sameTypes halias halias' htaken
    rw [resolved_eq_props, resolved_eq_props, props_congr (hother.alike hread htypes) htypes n]

end Session

/-! ### One intersection in three groupings -/

namespace Wrapped

open Sample (rule member)

/-- An object type with one member. -/
def object (start : Nat) : Concrete := rule "object_type" start (start + 5) [] [member (start + 2)]

theorem written_object {source name : String} {start : Nat}
    (h : (object start).parts.filterMap (signatureName? source) = [name]) :
    Written source (.object [name]) (object start) :=
  h ▸ .object (by rfl)

/-- A declaration of an alias that is as long as its module. -/
def declaration (stop : Nat) (value : Concrete) : Concrete :=
  rule "type_alias_declaration" 0 stop [] [rule "type_identifier" 5 6 ["name"] [], value]

def program (stop : Nat) (value : Concrete) : Concrete :=
  rule "program" 0 stop [] [declaration stop value]

def direct : String := "type T = { x } & { y } & { z }"

def directValue : Concrete :=
  rule "intersection_type" 9 30 ["value"]
    [rule "intersection_type" 9 22 [] [object 9, object 17], object 25]

def outer : String := "type T = ({ x } & { y } & ({ z }))"

def outerValue : Concrete :=
  rule "parenthesized_type" 9 34 ["value"]
    [ rule "intersection_type" 10 33 []
        [ rule "intersection_type" 10 23 [] [object 10, object 18],
          rule "parenthesized_type" 26 33 [] [object 27] ] ]

def inner : String := "type T = { x } & ({ y } & { z })"

def innerValue : Concrete :=
  rule "intersection_type" 9 32 ["value"]
    [ object 9,
      rule "parenthesized_type" 17 32 []
        [rule "intersection_type" 18 31 [] [object 18, object 26]] ]

def tree (source : String) : Concrete :=
  if source = direct then program 30 directValue
  else if source = outer then program 34 outerValue
  else program 32 innerValue

def env (source : String) : Environment where
  files := ⟨[(["m.ts"], .file source.toUTF8)], ⟨"/"⟩⟩
  concrete := fun _ => tree

def entry (source : String) : ParsedModule := ⟨⟨"/m.ts"⟩, source, lowerRoot source (tree source)⟩

theorem declaresAlias_entry {source : String} {stop : Nat} {value : Concrete} {e : TypeExpr}
    (htree : tree source = program stop value) (hname : Source.slice source ⟨5, 6⟩ = "T")
    (hmeaningful : value.label.isMeaningful = true) (hfields : value.label.fields = ["value"])
    (hvalue : Written source e value) : DeclaresAlias (entry source) "T" e := by
  have hparts : (declaration stop value).parts =
      [rule "type_identifier" 5 6 ["name"] []] ++ value :: [] := by
    simp only [Concrete.parts, declaration, rule, Tree.children_node, List.filter, hmeaningful]
    rfl
  have halias : IsAlias source (declaration stop value) value "T" :=
    { rule := by rfl
      name := congrArg some hname
      parts := ⟨_, _, hparts, by decide⟩
      fills_value := by rw [Token.fills, hfields]; rfl
      fills_name := by rw [Token.fills, hfields]; rfl }
  have hroot : (tree source).parts = [] ++ declaration stop value :: [] := by
    rw [htree]
    rfl
  exact declaresAlias_of_statement rfl hroot (fun b hb => absurd hb List.not_mem_nil) (.inl rfl)
    halias hvalue

def directExpr : TypeExpr := .both (.both (.object ["x"]) (.object ["y"])) (.object ["z"])

theorem declaresAlias_direct : DeclaresAlias (entry direct) "T" directExpr := by
  refine declaresAlias_entry (by rfl) (by decide +kernel) (by decide +kernel) rfl ?_
  refine .both (by rfl) rfl (.both (by rfl) rfl ?_ ?_) ?_ <;>
    exact written_object (by decide +kernel)

def outerExpr : TypeExpr :=
  .parenthesized
    (.both (.both (.object ["x"]) (.object ["y"])) (.parenthesized (.object ["z"])))

theorem declaresAlias_outer : DeclaresAlias (entry outer) "T" outerExpr := by
  refine declaresAlias_entry (by rfl) (by decide +kernel) (by decide +kernel) rfl ?_
  refine .parenthesized (by rfl) rfl (.both (by rfl) rfl (.both (by rfl) rfl ?_ ?_)
    (.parenthesized (by rfl) rfl ?_)) <;> exact written_object (by decide +kernel)

def innerExpr : TypeExpr :=
  .both (.object ["x"]) (.parenthesized (.both (.object ["y"]) (.object ["z"])))

theorem declaresAlias_inner : DeclaresAlias (entry inner) "T" innerExpr := by
  refine declaresAlias_entry (by rfl) (by decide +kernel) (by decide +kernel) rfl ?_
  refine .both (by rfl) rfl ?_ (.parenthesized (by rfl) rfl (.both (by rfl) rfl ?_ ?_)) <;>
    exact written_object (by decide +kernel)

theorem site?_entry {source : String} (h : (entry source).declaredTypes = ["T"]) {n : String}
    (hn : n ≠ "T") : (entry source).site? n = none := by
  cases hsite : declaration? (entry source).rootNode n with
  | none => rw [ParsedModule.site?, hsite, Option.map_none]
  | some found =>
      have hmem := mem_declaredTypes_of_declaration? hsite
      rw [h, List.mem_singleton] at hmem
      exact absurd hmem hn

/-- Another grouping is a rewriting of the module, which declares one type and imports none. -/
theorem realiased_direct {source : String}
    (hread : (env source).read ⟨"/m.ts"⟩ = .ok (entry source))
    (hdeclared : (entry source).declaredTypes = ["T"])
    (horigin : ∀ n, (entry source).typeOrigin? n = none) :
    Realiased (env direct) (env source) (entry direct) (entry source) "T" where
  files := ⟨["m.ts"], rfl, FileSystem.rewritten_cons ⟨"/"⟩ (List.cons_ne_nil _ _) _ _ _⟩
  concrete := rfl
  read := hread
  others n hn := by rw [site?_entry hdeclared hn, site?_entry (by decide +kernel) hn]
  origins n := by rw [horigin n, show (entry direct).typeOrigin? n = none from rfl]

theorem realiased_outer :
    Realiased (env direct) (env outer) (entry direct) (entry outer) "T" :=
  realiased_direct (by rfl) (by decide +kernel) fun _ => rfl

theorem realiased_inner :
    Realiased (env direct) (env inner) (entry direct) (entry inner) "T" :=
  realiased_direct (by rfl) (by decide +kernel) fun _ => rfl

theorem loads_direct : (env direct).Loads (entry direct) := ⟨⟨"/m.ts"⟩, by rfl⟩

end Wrapped

namespace Session

/-- The value was rewritten only in how its operands are grouped, and yet two of them are lost. -/
theorem resolved_alias_loses_operands :
    (Wrapped.env Wrapped.direct).Loads (Wrapped.entry Wrapped.direct) ∧
      DeclaresAlias (Wrapped.entry Wrapped.direct) "T" Wrapped.directExpr ∧
      DeclaresAlias (Wrapped.entry Wrapped.inner) "T" Wrapped.innerExpr ∧
      Realiased (Wrapped.env Wrapped.direct) (Wrapped.env Wrapped.inner)
        (Wrapped.entry Wrapped.direct) (Wrapped.entry Wrapped.inner) "T" ∧
      Wrapped.innerExpr.atoms = Wrapped.directExpr.atoms ∧
      resolved (Wrapped.env Wrapped.direct) [] (Wrapped.entry Wrapped.direct) "T" =
        .ok ["x", "y", "z"] ∧
      resolved (Wrapped.env Wrapped.inner) [] (Wrapped.entry Wrapped.inner) "T" = .ok ["x"] :=
  ⟨Wrapped.loads_direct, Wrapped.declaresAlias_direct, Wrapped.declaresAlias_inner,
    Wrapped.realiased_inner, rfl, by decide +kernel, by decide +kernel⟩

theorem resolved_alias_direct :
    (Wrapped.env Wrapped.direct).Loads (Wrapped.entry Wrapped.direct) ∧
      DeclaresAlias (Wrapped.entry Wrapped.direct) "T" Wrapped.directExpr ∧
      resolved (Wrapped.env Wrapped.direct) [] (Wrapped.entry Wrapped.direct) "T" =
        .ok ["x", "y", "z"] ∧
      resolved (Wrapped.env Wrapped.outer) [] (Wrapped.entry Wrapped.outer) "T" =
        .ok ["x", "y", "z"] := by
  have hdirect : resolved (Wrapped.env Wrapped.direct) [] (Wrapped.entry Wrapped.direct) "T" =
      .ok ["x", "y", "z"] := by decide +kernel
  obtain ⟨_, hregroup⟩ := resolved_alias (Wrapped.env Wrapped.direct)
    (Wrapped.entry Wrapped.direct) "T" Wrapped.directExpr Wrapped.loads_direct
    Wrapped.declaresAlias_direct
  have hsame := hregroup _ _ _ Wrapped.realiased_outer Wrapped.declaresAlias_outer
    ⟨⟨trivial, trivial⟩, trivial⟩ ⟨⟨trivial, trivial⟩, rfl⟩ rfl [] [] "T"
  exact ⟨Wrapped.loads_direct, Wrapped.declaresAlias_direct, hdirect, hsame.trans hdirect⟩

end Session

end PropSurface
