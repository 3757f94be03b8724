import Mathlib.Data.Nat.Find
import PropSurface.Concrete.Sample
import PropSurface.Extraction
import PropSurface.Proofs.Element.ClassHeader

/-!
# The prop type of a class

The prop type of a class is the first type reference, in level order, below a target of its
extends clause.  The type arguments of the target stand side by side there, so the depth of a
reference comes before the argument that it is in.

**Definitions.**
* `firstReference?`, `clauseReference?`: the first reference below an element, and below the
  targets of a heritage clause.
* `referencesAt`: the references at one depth of a type argument.

**Results.**
* `classPropType?_eq_findSome?`: the prop type of a class, by its subtree.
* `classPropType?_eq_shallowest`: it is the first of the least deep references in all type
  arguments together.
* `classPropType?_passes_first_argument`: the first argument does not have to supply it.
-/

namespace PropSurface

open Lowering

/-- The name of an element that refers to a type. -/
def referenceName? (e : Element) : Option String :=
  match e.payload with
  | .typeReference name => some name
  | _ => none

/-- The first type reference below the root of a tree, in level order. -/
def firstReference? (t : Lowered) : Option String :=
  t.levelOrder.findSome? fun u => referenceName? u.label

/-- The first type reference below a target of a heritage clause. -/
def clauseReference? (clause : Lowered) : Option String :=
  (clause.children.filter fun t => decide (t.label.kind = .heritageTarget)).findSome?
    firstReference?

/-- Whether an element is an extends clause. -/
def isExtends (t : Lowered) : Bool := decide (t.label.payload = .heritageClause .extending)

/-! ### Queries for a reference -/

/-- The name of a node that refers to a type, as a step of a query sees it. -/
theorem bind_name?_of_admits (m : Node) :
    (if (QueryStep.descendant .typeReference).admits m then some m else none).bind Node.name? =
      referenceName? m.label := by
  rcases m with ⟨⟨⟨payload, span⟩, ts⟩, above⟩
  cases payload <;> rfl

theorem isSome_name?_of_admits {m : Node}
    (h : (QueryStep.descendant .typeReference).admits m = true) : (Node.name? m).isSome = true := by
  rcases m with ⟨⟨⟨payload, span⟩, ts⟩, above⟩
  cases payload <;> first | rfl | cases h

theorem bind_findSome? {α β γ : Type} {l : List α} {f : α → Option β} {g : β → Option γ}
    (h : ∀ a b, f a = some b → (g b).isSome) :
    (l.findSome? f).bind g = l.findSome? fun a => (f a).bind g := by
  induction l with
  | nil => rfl
  | cons a l ih =>
      cases hf : f a with
      | none => simp [hf, ih]
      | some b =>
          obtain ⟨c, hc⟩ := Option.isSome_iff_exists.mp (h a b hf)
          simp [hf, hc]

/-- The search for a reference below a node, by its subtree. -/
theorem query?_reference (n : Node) :
    (n.query? [.descendant .typeReference]).bind Node.name? = firstReference? n.focus := by
  rw [Node.query?, Relation.first?_eq_findSome?, bind_findSome?, firstReference?,
    ← Cursor.map_focus_descendants, List.findSome?_map]
  · simp only [Node.query?, bind_name?_of_admits]
    exact List.findSome?_map
  · intro m r hr
    simp only [Node.query?, Option.ite_none_right_eq_some, Option.some.injEq] at hr
    obtain ⟨hadmits, rfl⟩ := hr
    exact isSome_name?_of_admits hadmits

/-- What a query for a reference finds has a name. -/
theorem isSome_name?_of_query? {n r : Node} {q : List QueryStep}
    (h : n.query? (q ++ [.descendant .typeReference]) = some r) : (Node.name? r).isSome := by
  induction q generalizing n with
  | nil =>
      rw [List.nil_append, Node.query?_cons] at h
      obtain ⟨m, hm, hr⟩ := List.exists_of_findSome?_eq_some h
      obtain rfl : m = r := Option.some.inj hr
      exact isSome_name?_of_admits (List.mem_filter.mp hm).2
  | cons s q ih =>
      rw [List.cons_append, Node.query?_cons] at h
      obtain ⟨m, _, hr⟩ := List.exists_of_findSome?_eq_some h
      exact ih hr

/-- A step to a child, and then on to a reference, by the subtree. -/
theorem query?_child_reference {s : QueryStep} (hs : s.relation = .child) {q : List QueryStep}
    {p : Lowered → Bool} (hp : ∀ m : Node, s.admits m = p m.focus) {f : Lowered → Option String}
    (hf : ∀ m : Node, (m.query? (q ++ [.descendant .typeReference])).bind Node.name? = f m.focus)
    (n : Node) :
    (n.query? (s :: (q ++ [.descendant .typeReference]))).bind Node.name? =
      (n.focus.children.filter p).findSome? f := by
  rw [Node.query?_child hs, bind_findSome? fun _ _ => isSome_name?_of_query?,
    ← Cursor.map_focus_children, List.filter_map, List.findSome?_map]
  simp only [hf]
  congr 1
  exact List.filter_congr fun m _ => hp m

theorem query?_target_reference (n : Node) :
    (n.query? [.child .heritageTarget, .descendant .typeReference]).bind Node.name? =
      clauseReference? n.focus :=
  query?_child_reference (q := []) rfl
    (fun m => by simp [QueryStep.child, QueryStep.admits, Node.is]; rfl)
    query?_reference n

/-- The prop type of a class, by its subtree: the first reference below a target of an extends
clause. -/
theorem classPropType?_eq_findSome? (n : Node) :
    classPropType? n = (n.focus.children.filter isExtends).findSome? clauseReference? := by
  refine query?_child_reference (q := [.child .heritageTarget]) rfl (fun m => ?_)
    query?_target_reference n
  rcases m with ⟨⟨⟨payload, span⟩, ts⟩, above⟩
  cases payload <;> rfl

/-! ### Classes by their headers -/

namespace ClassHeader

/-- The first type reference below a target of the extends clause. -/
def extendsType (h : ClassHeader) (source : String) : Option String :=
  (h.extending.toList.flatMap (lower source .extendsClause)).findSome? clauseReference?

/-- The first type reference below a target of the implements clause. -/
def implementsType (h : ClassHeader) (source : String) : Option String :=
  (h.implementing.toList.flatMap (lower source (.typeClause .implementing))).findSome?
    clauseReference?

end ClassHeader

namespace IsClass

variable {source : String} {c : Concrete} {h : ClassHeader}

theorem filter_isExtends_keywords (kids : List Token) :
    ((exportKeywords kids).map leaf).filter isExtends = [] := by
  rw [List.filter_eq_nil_iff]
  intro x hx
  obtain ⟨e, he, rfl⟩ := List.mem_map.mp hx
  have hexport := exportKeywords_isExport he
  rcases e with ⟨payload, span⟩
  cases payload <;> first | exact Bool.false_ne_true | cases hexport

theorem filter_isExtends_clauses (source : String) (h : ClassHeader) :
    (h.clauses source).filter isExtends =
      h.extending.toList.flatMap (lower source .extendsClause) := by
  have hextending : (h.extending.toList.flatMap (lower source .extendsClause)).filter isExtends =
      h.extending.toList.flatMap (lower source .extendsClause) := by
    cases h.extending with
    | none => rfl
    | some d =>
        simp only [Option.toList_some, List.flatMap_singleton, lower_extendsClause]
        rfl
  have himplementing : (h.implementing.toList.flatMap
      (lower source (.typeClause .implementing))).filter isExtends = [] := by
    cases h.implementing with
    | none => rfl
    | some d =>
        simp only [Option.toList_some, List.flatMap_singleton, lower_typeClause]
        rfl
  rw [ClassHeader.clauses, List.filter_append, hextending, himplementing, List.append_nil]

/-- A class of the given header has at most one extends clause. -/
theorem filter_isExtends (hc : IsClass c h) (source : String) (kids : List Token) :
    ((exportKeywords kids).map leaf ++ identifier source h.name.label ::
        (h.parameters.toList.flatMap (lower source (.plain [])) ++ h.clauses source ++
          lower source (.plain []) h.body)).filter isExtends =
      h.extending.toList.flatMap (lower source .extendsClause) := by
  have hplain : ∀ d ∈ h.parameters.toList ++ [h.body],
      (lower source (.plain []) d).filter isExtends = [] := by
    intro d hd
    rw [lower_plain_other (hc.rule_eq_other hd)]
    rfl
  have hparameters : (h.parameters.toList.flatMap (lower source (.plain []))).filter
      isExtends = [] := by
    rw [List.filter_flatMap, List.flatMap_eq_nil_iff]
    exact fun d hd => hplain d (List.mem_append_left _ hd)
  rw [List.filter_append, filter_isExtends_keywords,
    List.filter_cons_of_neg (by exact Bool.false_ne_true), List.filter_append, List.filter_append,
    hparameters, filter_isExtends_clauses, hplain h.body (by simp)]
  simp

/-- The prop type of a class comes from its extends clause, with or without type parameters, and
never from its implements clause. -/
theorem classPropType?_eq (hc : IsClass c h) {kids : List Token} {n : Node}
    (hn : lower source (.plain (exportKeywords kids)) c = [n.focus]) :
    classPropType? n = h.extendsType source := by
  rw [hc.lower_eq, List.singleton_inj] at hn
  rw [classPropType?_eq_findSome?, ← hn, Tree.children_node, hc.filter_isExtends]
  rfl

end IsClass

/-! ### Type arguments -/

/-- Names of the references `k` steps below the roots of a forest, left to right. -/
def referencesBelow (ts : List Lowered) (k : Nat) : List String :=
  (Tree.row k ts).filterMap fun u => referenceName? u.label

/-- Names of the references `k` steps below the top of a type argument, left to right. -/
def referencesAt (source : String) (argument : Concrete) (k : Nat) : List String :=
  referencesBelow (lower source .type argument) k

theorem referencesBelow_append (ts us : List Lowered) (k : Nat) :
    referencesBelow (ts ++ us) k = referencesBelow ts k ++ referencesBelow us k := by
  rw [referencesBelow, Tree.row_append, List.filterMap_append]
  rfl

theorem referencesBelow_flatMap (source : String) (arguments : List Concrete) (k : Nat) :
    referencesBelow (arguments.flatMap (lower source .type)) k =
      arguments.flatMap (referencesAt source · k) := by
  rw [referencesBelow, Tree.row_flatMap, List.filterMap_flatMap]
  rfl

theorem referencesBelow_eq_nil_iff {ts : List Lowered} :
    (∀ k, referencesBelow ts k = []) ↔
      ∀ e ∈ Tree.forestPreorder ts, referenceName? e = none := by
  simp only [referencesBelow, List.filterMap_eq_nil_iff]
  constructor
  · intro h e he
    obtain ⟨k, u, hu, rfl⟩ := Tree.exists_mem_row_iff.mpr he
    exact h k u hu
  · exact fun h k u hu => h _ (Tree.label_mem_of_mem_row hu)

/-- The first reference in level order is the first one of the least deep row that has one. -/
theorem firstReference?_eq_some_iff {t : Lowered} {name : String} :
    firstReference? t = some name ↔
      ∃ k, (∀ j < k, referencesBelow t.children j = []) ∧
        (referencesBelow t.children k).head? = some name := by
  simp only [firstReference?, Tree.findSome?_levelOrder_eq_some_iff, referencesBelow,
    List.head?_filterMap, List.filterMap_eq_nil_iff, List.findSome?_eq_none_iff]

/-- A class that extends one target: an expression without a type reference, and type
arguments. -/
def ExtendsGeneric (source : String) (c : Concrete) (arguments : List Concrete) : Prop :=
  ∃ (h : ClassHeader) (clause base list : Concrete), IsClass c h ∧
    h.extending = some clause ∧ clause.parts = [base, list] ∧
    base.label.rule ≠ .typeArguments ∧ list.label.rule = .typeArguments ∧
    list.parts = arguments ∧
    ∀ e ∈ Tree.forestPreorder (lower source (expressionRole base.label) base),
      e.kind ≠ .typeReference

theorem referenceName?_of_kind_ne {e : Element} (h : e.kind ≠ .typeReference) :
    referenceName? e = none := by
  rcases e with ⟨payload, span⟩
  cases payload <;> first | rfl | exact absurd rfl h

/-- The prop type of a class with type arguments, by the references at each depth of all of
them. -/
theorem ExtendsGeneric.classPropType?_eq_some_iff {source : String} {c : Concrete}
    {arguments : List Concrete} (hc : ExtendsGeneric source c arguments) {kids : List Token}
    {n : Node} (hn : lower source (.plain (exportKeywords kids)) c = [n.focus]) {name : String} :
    classPropType? n = some name ↔
      ∃ k, (∀ j < k, ∀ a ∈ arguments, referencesAt source a j = []) ∧
        (arguments.flatMap (referencesAt source · k)).head? = some name := by
  obtain ⟨h, clause, base, list, hclass, hextending, hparts, hbase, hlist, rfl, hquiet⟩ := hc
  have hnone : ∀ k, referencesBelow (lower source (expressionRole base.label) base) k = [] :=
    referencesBelow_eq_nil_iff.mpr fun e he => referenceName?_of_kind_ne (hquiet e he)
  have htype : h.extendsType source = firstReference? (target base.label
      (lower source (expressionRole base.label) base ++
        list.parts.flatMap (lower source .type))) := by
    rw [ClassHeader.extendsType, hextending, Option.toList_some, List.flatMap_singleton,
      lower_extendsClause_pair hparts hbase hlist]
    simp [clauseReference?, target, Element.kind, Payload.kind]
  rw [hclass.classPropType?_eq hn, htype, firstReference?_eq_some_iff]
  simp only [target, Tree.children_node, referencesBelow_append, hnone, List.nil_append,
    referencesBelow_flatMap, List.flatMap_eq_nil_iff]

/-- The prop type of a class with type arguments is the first type reference in level order of
all its arguments together: the least deep one, and the leftmost of those.  So it is the first
reference of the first argument if no later argument has a less deep one, and there is none only
if no argument has a reference. -/
theorem classPropType?_eq_shallowest (source : String) (c : Concrete)
    (arguments : List Concrete) (hc : ExtendsGeneric source c arguments) (kids : List Token)
    (n : Node) (hn : lower source (.plain (exportKeywords kids)) c = [n.focus]) :
    (∀ name, classPropType? n = some name ↔
      ∃ k, (∀ j < k, ∀ a ∈ arguments, referencesAt source a j = []) ∧
        (arguments.flatMap (referencesAt source · k)).head? = some name) ∧
    (∀ (a : Concrete) (later : List Concrete) (k : Nat), arguments = a :: later →
      (∀ j < k, referencesAt source a j = []) → referencesAt source a k ≠ [] →
      (∀ b ∈ later, ∀ j < k, referencesAt source b j = []) →
        classPropType? n = (referencesAt source a k).head?) ∧
    (classPropType? n = none ↔ ∀ a ∈ arguments, ∀ k, referencesAt source a k = []) := by
  refine ⟨fun name => hc.classPropType?_eq_some_iff hn, ?_, ?_⟩
  · rintro a later k rfl hnone hsome hlater
    obtain ⟨name, hname⟩ := Option.isSome_iff_exists.mp (List.isSome_head?.mpr hsome)
    rw [hname]
    refine (hc.classPropType?_eq_some_iff hn).mpr ⟨k, fun j hj b hb => ?_, ?_⟩
    · rcases List.mem_cons.mp hb with rfl | hb
      · exact hnone j hj
      · exact hlater b hb j hj
    · rw [List.flatMap_cons, List.head?_append, hname, Option.some_or]
  · constructor
    · intro hnone a ha k
      -- A row with a reference would have a least one.
      by_contra hsome
      have hexists : ∃ k, arguments.flatMap (referencesAt source · k) ≠ [] :=
        ⟨k, fun hnil => hsome (List.flatMap_eq_nil_iff.mp hnil a ha)⟩
      classical
      obtain ⟨name, hname⟩ := Option.isSome_iff_exists.mp
        (List.isSome_head?.mpr (Nat.find_spec hexists))
      have hfound : classPropType? n = some name :=
        (hc.classPropType?_eq_some_iff hn).mpr ⟨Nat.find hexists, fun j hj b hb =>
          List.flatMap_eq_nil_iff.mp (not_not.mp (Nat.find_min hexists hj)) b hb, hname⟩
      rw [hnone] at hfound
      cases hfound
    · intro hnone
      rw [Option.eq_none_iff_forall_ne_some]
      intro name hname
      obtain ⟨k, _, hhead⟩ := (hc.classPropType?_eq_some_iff hn).mp hname
      rw [List.flatMap_eq_nil_iff.mpr fun a ha => hnone a ha k] at hhead
      cases hhead

/-! ### A class with props and state

The props are an object type, so that the reference in them is deeper than the state. -/

namespace Panel

open Sample (rule)

def source : String := "class X extends C<{ a: P }, S> {}"

def props : Concrete :=
  rule "object_type" 18 26 []
    [ rule "property_signature" 20 24 []
        [ rule "property_identifier" 20 21 ["name"] [],
          rule "type_annotation" 21 24 ["type"] [rule "type_identifier" 23 24 [] []] ] ]

def state : Concrete := rule "type_identifier" 28 29 [] []

def base : Concrete := rule "identifier" 16 17 ["value"] []

def list : Concrete := rule "type_arguments" 17 30 ["type_arguments"] [props, state]

def clause : Concrete := rule "extends_clause" 8 30 [] [base, list]

def header : ClassHeader where
  name := rule "type_identifier" 6 7 ["name"] []
  parameters := none
  heritage := some (rule "class_heritage" 8 30 [] [clause])
  extending := some clause
  implementing := none
  body := rule "class_body" 31 33 ["body"] []

def cls : Concrete :=
  rule "class_declaration" 0 33 []
    [header.name, rule "class_heritage" 8 30 [] [clause], header.body]

theorem isClass_cls : IsClass cls header where
  rule := by decide +kernel
  parts := by rfl
  name_eq := by rfl
  name_only := by decide +kernel
  name_rule := by decide +kernel
  parameters_kind := by simp [header]
  body_kind := rfl
  heritage_rule := by
    rintro d ⟨⟩
    decide +kernel
  heritage_isSome := rfl
  heritage_parts := by
    rintro d ⟨⟩
    rfl
  extending_rule := by
    rintro d ⟨⟩
    decide +kernel
  implementing_rule := by simp [header]

theorem extendsGeneric_cls : ExtendsGeneric source cls [props, state] :=
  ⟨header, clause, base, list, isClass_cls, rfl, by rfl, by decide +kernel, by decide +kernel,
    by rfl, by decide +kernel⟩

/-- The element of the class. -/
def node : Node :=
  .ofRoot (.node ⟨.classDeclaration (some "X"), ⟨0, 33⟩⟩
    (identifier source header.name.label :: (header.clauses source ++
      lower source (.plain []) header.body)))

theorem lower_cls : lower source (.plain (exportKeywords [])) cls = [node.focus] := by rfl

end Panel

/-- The first argument has a reference, and yet the prop type comes from the second one. -/
theorem classPropType?_passes_first_argument :
    ExtendsGeneric Panel.source Panel.cls [Panel.props, Panel.state] ∧
      lower Panel.source (.plain (exportKeywords [])) Panel.cls = [Panel.node.focus] ∧
      (List.range 3).map (referencesAt Panel.source Panel.props) = [[], [], ["P"]] ∧
      classPropType? Panel.node = some "S" :=
  ⟨Panel.extendsGeneric_cls, Panel.lower_cls, by decide +kernel, by decide +kernel⟩

theorem classPropType?_eq_shallowest_panel :
    ExtendsGeneric Panel.source Panel.cls [Panel.props, Panel.state] ∧
      lower Panel.source (.plain (exportKeywords [])) Panel.cls = [Panel.node.focus] ∧
      classPropType? Panel.node = some "S" := by
  refine ⟨Panel.extendsGeneric_cls, Panel.lower_cls, ?_⟩
  refine ((classPropType?_eq_shallowest Panel.source Panel.cls [Panel.props, Panel.state]
    Panel.extendsGeneric_cls [] Panel.node Panel.lower_cls).1 "S").mpr ⟨0, ?_, by decide +kernel⟩
  exact fun j hj => absurd hj (Nat.not_lt_zero j)

end PropSurface
